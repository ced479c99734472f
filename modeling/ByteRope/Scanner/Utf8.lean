import ByteRope.Bytes

/-!
# UTF-8, octet by octet

An automaton that counts the characters of an octet sequence. Each maximal ill-formed part counts
as one character: an octet that cannot continue the character begun before it ends that part, and
is looked at afresh.
-/

namespace ByteRope.Utf8

/-- What the octets read so far allow next. The states after E0, ED, F0 and F4 leave out overlong
forms, surrogates and numbers past U+10FFFF. -/
inductive State where
  | start
  | tail1
  | tail2
  | tail3
  | afterE0
  | afterED
  | afterF0
  | afterF4
  deriving DecidableEq, Repr, Inhabited

/-- The octet lies between two bounds. -/
def within (lower upper byte : UInt8) : Bool :=
  decide (lower ≤ byte) && decide (byte ≤ upper)

namespace State

/-- The state after the first octet of a character, if the octet can be one. -/
def ofLead? (byte : UInt8) : Option State :=
  if byte < 0x80 then some start
  else if within 0xC2 0xDF byte then some tail1
  else if byte = 0xE0 then some afterE0
  else if byte = 0xED then some afterED
  else if within 0xE1 0xEF byte then some tail2
  else if byte = 0xF0 then some afterF0
  else if within 0xF1 0xF3 byte then some tail3
  else if byte = 0xF4 then some afterF4
  else none

/-- The state after an octet that continues a character, if the octet does. -/
def next? : State → UInt8 → Option State
  | start, _ => none
  | tail1, byte => if within 0x80 0xBF byte then some start else none
  | tail2, byte => if within 0x80 0xBF byte then some tail1 else none
  | tail3, byte => if within 0x80 0xBF byte then some tail2 else none
  | afterE0, byte => if within 0xA0 0xBF byte then some tail1 else none
  | afterED, byte => if within 0x80 0x9F byte then some tail1 else none
  | afterF0, byte => if within 0x90 0xBF byte then some tail2 else none
  | afterF4, byte => if within 0x80 0x8F byte then some tail2 else none

end State

/-- The automaton with what it has counted. -/
structure Scan where
  state : State
  chars : Nat
  broken : Bool
  deriving DecidableEq, Repr

namespace Scan

/-- Nothing read yet. -/
def empty : Scan := ⟨.start, 0, false⟩

/-- Reads the first octet of a character. -/
def lead (scan : Scan) (byte : UInt8) : Scan :=
  match State.ofLead? byte with
  | some .start => ⟨.start, scan.chars + 1, scan.broken⟩
  | some state => ⟨state, scan.chars, scan.broken⟩
  | none => ⟨.start, scan.chars + 1, true⟩

/-- Reads one octet. -/
def step (scan : Scan) (byte : UInt8) : Scan :=
  match scan.state with
  | .start => scan.lead byte
  | state =>
    match state.next? byte with
    | some .start => ⟨.start, scan.chars + 1, scan.broken⟩
    | some state => ⟨state, scan.chars, scan.broken⟩
    | none => Scan.lead ⟨.start, scan.chars + 1, true⟩ byte

/-- Reads a buffer. Between characters an ASCII buffer is one character an octet. -/
def feed (scan : Scan) (bytes : Bytes) : Scan :=
  if scan.state = .start ∧ bytes.isAscii then
    { scan with chars := scan.chars + bytes.size }
  else
    bytes.foldl step scan

/-- Ends the sequence: a character begun and not finished is an ill-formed part. -/
def finish (scan : Scan) : Scan :=
  match scan.state with
  | .start => scan
  | _ => ⟨.start, scan.chars + 1, true⟩

end Scan

end ByteRope.Utf8
