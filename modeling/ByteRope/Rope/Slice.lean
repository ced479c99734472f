import ByteRope.Rope.Leaf
import ByteRope.Rope.Read

/-!
# Slices

A slice copies nothing: it is the rope itself, a node of its tree, or a view of the smallest node of
its tree that covers the range. Its tags come from a scan of the octets it shows.
-/

namespace ByteRope.Rope

/-- A view with tags of the caller's choice. -/
def taggedView (child : Rope) (tags : Tags) (offset len : Nat) : RopeM Rope := do
  match child.checkRange offset len with
  | .error refusal => throw (.refused refusal)
  | .ok () => newView tags len (child.depth + 1) offset child none

/-- The smallest node that covers the range, and where the range begins in it. -/
def covering (len : Nat) : Rope → Nat → Except Fault (Rope × Nat)
  | rope@(leaf ..), offset => .ok (rope, offset)
  | rope@(join _ _ _ _ _ left right), offset =>
    match Size.add offset len with
    | .error fault => .error fault
    | .ok stop =>
      if stop ≤ left.byteLen then left.covering len offset
      else if left.byteLen ≤ offset then right.covering len (offset - left.byteLen)
      else .ok (rope, offset)
  | view _ _ _ _ start child, offset =>
    match Size.add offset start with
    | .error fault => .error fault
    | .ok offset => child.covering len offset

/-- The tags of a slice. Slices of ASCII-only ropes need no scan. -/
def sliceTags (rope : Rope) (offset len : Nat) : RopeM Tags := do
  if rope.isAsciiOnly then return ⟨rope.encoding, .asciiOnly, len⟩
  else
    let scanned ← rope.scanRange offset len
    return ⟨rope.encoding, scanned.range, scanned.charLen⟩

/-- The slice of `len` octets from `offset` on. -/
def slice? (rope : Rope) (offset len : Nat) : RopeM (Except Refusal Rope) := do
  match rope.checkRange offset len with
  | .error refusal => return .error refusal
  | .ok () =>
    if offset = 0 ∧ len = rope.byteLen then return .ok rope
    else if len = 0 then return .ok (← empty rope.encoding)
    else
      let (target, start) ← rope.covering len offset
      if start = 0 ∧ len = target.byteLen ∧ target.encoding = rope.encoding
          ∧ target.range.isResolved then
        return .ok target
      else
        return .ok (← target.taggedView (← rope.sliceTags offset len) start len)

/-- The slice of `len` octets from `offset` on; a range past the end is a fault. -/
def slice (rope : Rope) (offset len : Nat) : RopeM Rope :=
  RopeM.insist (rope.slice? offset len)

end ByteRope.Rope
