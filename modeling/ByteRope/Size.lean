import ByteRope.Fault

/-!
# Sizes

Lengths, offsets and depths are natural numbers up to `Size.max`. Sums are checked: a sum past the
largest size is a fault and never wraps around. A rope may be longer than any buffer: one buffer
takes at most `Size.maxBuffer` octets.
-/

namespace ByteRope.Size

/-- The largest size, one less than two to the power 64. -/
def max : Nat := 18446744073709551615

/-- The sum of two sizes. -/
def add (a b : Nat) : Except Fault Nat :=
  if a + b ≤ max then .ok (a + b) else .error .sizeOverflow

/-- The most octets that one buffer takes, one less than two to the power 63. -/
def maxBuffer : Nat := 9223372036854775807

/-- Refuses a buffer of more octets than one takes. -/
def checkBuffer (len : Nat) : Except Fault Unit :=
  if len ≤ maxBuffer then .ok () else .error .capacityOverflow

/-- The product of two sizes, or the largest size if that is smaller. -/
def mulSaturating (a b : Nat) : Nat :=
  min (a * b) max

theorem add_eq_ok_iff {a b c : Nat} : add a b = .ok c ↔ a + b ≤ max ∧ c = a + b := by
  unfold add
  split <;> simp <;> omega

theorem add_of_le {a b : Nat} (h : a + b ≤ max) : add a b = .ok (a + b) := by
  simp [add, h]

end ByteRope.Size
