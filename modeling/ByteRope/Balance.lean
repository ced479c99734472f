import ByteRope.Size

/-!
# Balance

A rope is balanced if its depth stays within a multiple of the number of bits of its byte length.
-/

namespace ByteRope

/-- How much depth a rope may have for its length: `factor` levels a bit of its byte length, and at
least one. -/
structure BalancePolicy where
  factor : Nat
  deriving DecidableEq, Repr

namespace BalancePolicy

/-- Two levels a bit. -/
def standard : BalancePolicy := ⟨2⟩

instance : Inhabited BalancePolicy := ⟨standard⟩

/-- The number of binary digits of a number; zero has one. -/
def bitLength (n : Nat) : Nat := n.log2 + 1

/-- The greatest depth of a balanced rope of this many bytes. -/
def depthLimit (policy : BalancePolicy) (byteLen : Nat) : Nat :=
  Size.mulSaturating (max policy.factor 1) (bitLength byteLen)

/-- A rope of this depth and length is balanced. -/
def isBalanced (policy : BalancePolicy) (depth byteLen : Nat) : Bool :=
  decide (depth ≤ policy.depthLimit byteLen)

end BalancePolicy

end ByteRope
