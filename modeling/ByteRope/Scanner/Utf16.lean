import ByteRope.Bytes

/-!
# UTF-16LE, octet by octet

An automaton over little-endian code units that counts characters. A surrogate pair is one
character; a surrogate without its partner and an octet without its partner are one ill-formed
character each.
-/

namespace ByteRope.Utf16

/-- A code unit that has to be followed by a low surrogate. -/
def isHighSurrogate (unit : Nat) : Bool :=
  decide (0xD800 ≤ unit) && decide (unit ≤ 0xDBFF)

/-- A code unit that has to follow a high surrogate. -/
def isLowSurrogate (unit : Nat) : Bool :=
  decide (0xDC00 ≤ unit) && decide (unit ≤ 0xDFFF)

/-- The code unit of two octets, the lower one first. -/
def codeUnit (low high : UInt8) : Nat :=
  low.toNat + 256 * high.toNat

/-- What has been read of a sequence: the first octet of a code unit if the other one is still to
come, whether the last code unit was a high surrogate without its partner yet, and the counts. -/
structure Scan where
  half : Option UInt8
  surrogate : Bool
  chars : Nat
  broken : Bool
  deriving DecidableEq, Repr

namespace Scan

/-- Nothing read yet. -/
def empty : Scan := ⟨none, false, 0, false⟩

/-- Reads a code unit between characters. -/
def lead (scan : Scan) (unit : Nat) : Scan :=
  if isHighSurrogate unit then { scan with surrogate := true }
  else if isLowSurrogate unit then { scan with chars := scan.chars + 1, broken := true }
  else { scan with chars := scan.chars + 1 }

/-- Reads a code unit. -/
def readUnit (scan : Scan) (unit : Nat) : Scan :=
  if scan.surrogate then
    if isLowSurrogate unit then { scan with surrogate := false, chars := scan.chars + 1 }
    else Scan.lead { scan with surrogate := false, chars := scan.chars + 1, broken := true } unit
  else
    scan.lead unit

/-- Reads one octet. -/
def step (scan : Scan) (byte : UInt8) : Scan :=
  match scan.half with
  | none => { scan with half := some byte }
  | some low => Scan.readUnit { scan with half := none } (codeUnit low byte)

/-- Reads a buffer. -/
def feed (scan : Scan) (bytes : Bytes) : Scan :=
  bytes.foldl step scan

/-- Ends the sequence: a surrogate and an octet still waiting are ill formed, one character each. -/
def finish (scan : Scan) : Scan :=
  ⟨none, false,
    scan.chars + (if scan.surrogate then 1 else 0) + (if scan.half.isSome then 1 else 0),
    scan.broken || scan.surrogate || scan.half.isSome⟩

end Scan

end ByteRope.Utf16
