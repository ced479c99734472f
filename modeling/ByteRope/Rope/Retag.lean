import ByteRope.Rope.Leaf
import ByteRope.Rope.Read

/-!
# Changing tags

A rope can be given other tags without touching its octets: the new root has the children of the
old one and starts with the buffer that the old one has. Two transitions change the encoding, and
resolving replaces tags that are not good by what a scan finds.
-/

namespace ByteRope.Rope

/-- A new root over the same octets. -/
def retag (rope : Rope) (tags : Tags) : RopeM Rope := do
  match rope with
  | leaf _ _ _ _ bytes =>
    match LeafKind.ofRange? tags.range with
    | none => throw .unclassifiedLeaf
    | some kind =>
      if kind = .asciiOnly ∧ ¬tags.encoding.isAsciiOnly bytes then throw .notAsciiOnly
      else newLeaf kind tags.encoding tags.charLen bytes
  | join id _ byteLen depth balanced left right =>
    newJoin tags byteLen depth balanced left right ((← get).cell id).bytes?
  | view id _ byteLen depth offset child =>
    newView tags byteLen depth offset child ((← get).cell id).bytes?

/-! ## Transitions -/

/-- Refuses a rope whose range is not the one that the transition requires. -/
def checkTransition (rope : Rope) (transition : Transition) : Except Refusal Unit :=
  if rope.range = transition.required then .ok ()
  else .error (.illegalTransition transition rope.range)

/-- The ASCII-only rope under another ASCII-compatible encoding. -/
def toSevenBit? (rope : Rope) (encoding : Encoding) : RopeM (Except Refusal Rope) := do
  match rope.checkTransition .sevenBit with
  | .error refusal => return .error refusal
  | .ok () =>
    if encoding.isAsciiCompatible then
      return .ok (← rope.retag ⟨encoding, Transition.required .sevenBit, rope.charLen⟩)
    else
      throw (.cannotCarryAscii encoding)

/-- The ASCII-only rope under another ASCII-compatible encoding; other ropes are a fault. -/
def toSevenBit (rope : Rope) (encoding : Encoding) : RopeM Rope :=
  RopeM.insist (rope.toSevenBit? encoding)

/-- The valid rope with each octet a character of its own. -/
def toBinary? (rope : Rope) : RopeM (Except Refusal Rope) := do
  match rope.checkTransition .binary with
  | .error refusal => return .error refusal
  | .ok () => return .ok (← rope.retag ⟨.binary, Transition.required .binary, rope.byteLen⟩)

/-- The valid rope with each octet a character of its own; other ropes are a fault. -/
def toBinary (rope : Rope) : RopeM Rope :=
  RopeM.insist rope.toBinary?

/-! ## Resolving -/

/-- The rope with the tags that a scan finds, unless its range is good already. -/
def resolve (rope : Rope) : RopeM Rope := do
  if rope.range.isGood then return rope
  else
    let scanned ← rope.scanRange 0 rope.byteLen
    RopeM.emit (.rangeResolved rope.range scanned.range scanned.charLen)
    if scanned.range = rope.range ∧ scanned.charLen = rope.charLen then return rope
    else rope.retag ⟨rope.encoding, scanned.range, scanned.charLen⟩

/-- The content in a leaf. The leaf keeps the tags, or is classified if the range is unknown. -/
def toLeaf (rope : Rope) : RopeM Rope := do
  match rope with
  | leaf .. => return rope
  | join .. | view .. =>
    let bytes ← rope.flatten
    match LeafKind.ofRange? rope.range with
    | none => ofBytes bytes rope.encoding
    | some kind =>
      checkNode rope.tags rope.byteLen (some bytes)
      newLeaf kind rope.encoding rope.charLen bytes

end ByteRope.Rope
