import ByteRope.Bytes

/-!
# Lossy decoding

The text of an octet sequence read as UTF-8, with one replacement character U+FFFD for each maximal
ill-formed part. The reading goes character by character: a first octet tells how many octets
follow it and the bounds of the first of those, and all later ones lie between 0x80 and 0xBF.
-/

namespace ByteRope.Text

/-- Stands for an ill-formed part. -/
def replacement : Char := Char.ofNat 0xFFFD

/-- What a first octet announces: the octets that follow, the bounds of the next of them, and the
number that the first octet contributes. -/
structure Announced where
  count : Nat
  lower : Nat
  upper : Nat
  value : Nat

/-- What a first octet from 0x80 on announces, if it begins a character. -/
def announced? (byte : Nat) : Option Announced :=
  if byte < 0xC2 then none
  else if byte ≤ 0xDF then some ⟨1, 0x80, 0xBF, byte - 0xC0⟩
  else if byte ≤ 0xEF then
    some ⟨2, if byte = 0xE0 then 0xA0 else 0x80, if byte = 0xED then 0x9F else 0xBF, byte - 0xE0⟩
  else if byte ≤ 0xF4 then
    some ⟨3, if byte = 0xF0 then 0x90 else 0x80, if byte = 0xF4 then 0x8F else 0xBF, byte - 0xF0⟩
  else none

/-- Reads the announced octets. The rest begins at the first octet that is not as announced. -/
def continued (value : Nat) : Nat → Nat → Nat → List UInt8 → Char × List UInt8
  | 0, _, _, rest => (Char.ofNat value, rest)
  | _ + 1, _, _, [] => (replacement, [])
  | count + 1, lower, upper, byte :: rest =>
    if lower ≤ byte.toNat ∧ byte.toNat ≤ upper then
      continued (value * 64 + (byte.toNat - 0x80)) count 0x80 0xBF rest
    else
      (replacement, byte :: rest)

/-- Reads one character, or one ill-formed part, that begins with the octet `byte`. -/
def decodeOne (byte : UInt8) (rest : List UInt8) : Char × List UInt8 :=
  if byte.toNat < 0x80 then (Char.ofNat byte.toNat, rest)
  else
    match announced? byte.toNat with
    | none => (replacement, rest)
    | some lead => continued lead.value lead.count lead.lower lead.upper rest

theorem length_continued_le (value count lower upper : Nat) (bytes : List UInt8) :
    (continued value count lower upper bytes).2.length ≤ bytes.length := by
  induction bytes generalizing value count lower upper with
  | nil => cases count <;> simp [continued]
  | cons byte rest ih =>
    cases count with
    | zero => simp [continued]
    | succ count =>
      simp only [continued]
      split
      · exact Nat.le_trans (ih ..) (Nat.le_succ _)
      · simp

/-- Reading a character uses up its first octet. -/
theorem length_decodeOne_le (byte : UInt8) (rest : List UInt8) :
    (decodeOne byte rest).2.length ≤ rest.length := by
  unfold decodeOne
  split
  · exact Nat.le_refl _
  · split
    · exact Nat.le_refl _
    · exact length_continued_le ..

/-- Reads on after the characters `done`, the last of which comes first. -/
def decodeAfter (done : List Char) (bytes : List UInt8) : List Char :=
  match bytes with
  | [] => done.reverse
  | byte :: rest => decodeAfter ((decodeOne byte rest).1 :: done) (decodeOne byte rest).2
  termination_by bytes.length
  decreasing_by exact Nat.lt_succ_of_le (length_decodeOne_le byte rest)

/-- The characters of an octet sequence, ill-formed parts replaced. -/
def decodeLossy (bytes : List UInt8) : List Char :=
  decodeAfter [] bytes

end ByteRope.Text
