import ByteRope.Balance
import ByteRope.Rope.Node

/-!
# Concatenation

Joining copies nothing. An empty side disappears. The encodings are reconciled if they can be; if
not, the whole keeps the encoding of its left side and is broken.
-/

namespace ByteRope.Rope

/-- A join with tags of the caller's choice. Its depth has to be one more than that of its deeper
child; its lengths are the sums of its children's. -/
def taggedJoin (left right : Rope) (encoding : Encoding) (range : CodeRange) (depth : Nat)
    (balanced : Bool) : RopeM Rope := do
  if depth = max left.depth right.depth + 1 then
    let byteLen ← Size.add left.byteLen right.byteLen
    let charLen ← Size.add left.charLen right.charLen
    newJoin ⟨encoding, range, charLen⟩ byteLen depth balanced left right none
  else
    throw (.depthDiffers depth (max left.depth right.depth + 1))

/-- The encoding and the range of one rope after another. -/
def joinedTags (left right : Rope) : Encoding × CodeRange :=
  match Encoding.compatible left.encoding left.range right.encoding right.range with
  | some encoding => (encoding, left.range.combine right.range)
  | none => (left.encoding, .broken)

/-- One rope after another. The policy decides only whether a new join is marked balanced. -/
def concat (left right : Rope) (policy : BalancePolicy) : RopeM Rope := do
  if right.isEmpty then return left
  else if left.isEmpty then return right
  else
    let (encoding, range) := joinedTags left right
    let depth := max left.depth right.depth + 1
    let byteLen ← Size.add left.byteLen right.byteLen
    taggedJoin left right encoding range depth (policy.isBalanced depth byteLen)

/-- Puts a piece after the rope, or before it, again and again. -/
def chain (rope piece : Rope) (front : Bool) (policy : BalancePolicy) (count : Nat) :
    RopeM Rope :=
  RopeM.iterate (fun longer => if front then piece.concat longer policy
    else longer.concat piece policy) count rope

end ByteRope.Rope
