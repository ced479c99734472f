import ByteRope.Rope.Concat
import ByteRope.Rope.Cursor
import ByteRope.Rope.Retag

/-!
# Rebalancing

A join is rebuilt from its pieces, the nonempty nodes under it that are no joins. Round by round
each piece is joined with its neighbour until two are left, so the new tree is as shallow as any
tree over these pieces can be. The old node stays if that is no gain.
-/

namespace ByteRope.Rope

/-- The number of nodes in a stack of ropes. -/
def stackWeight : List Rope → Nat
  | [] => 0
  | rope :: rest => rope.weight + stackWeight rest

/-- Takes apart the joins at the front of `stack`, and puts what is no join and not empty behind
the pieces found so far. -/
def piecesAfter (found : Array Rope) (stack : List Rope) : Array Rope :=
  match stack with
  | [] => found
  | join _ _ _ _ _ left right :: rest => piecesAfter found (left :: right :: rest)
  | piece :: rest => piecesAfter (if piece.isEmpty then found else found.push piece) rest
  termination_by stackWeight stack
  decreasing_by
    · simp only [stackWeight, weight]
      omega
    · have := piece.weight_pos
      simp only [stackWeight]
      omega

/-- The nonempty nodes under a rope that are no joins, in order. -/
def pieces (rope : Rope) : List Rope :=
  (piecesAfter #[] [rope]).toList

/-- A view of something unbalanced would keep all of its depth, so it is copied into a leaf. -/
def settle (piece : Rope) : RopeM Rope :=
  match piece with
  | view .. => if piece.isBalanced then return piece else piece.toLeaf
  | leaf .. | join .. => return piece

/-- Joins each rope at an even place with its neighbour, and puts the results behind `done`. -/
def pairAfter (policy : BalancePolicy) (done : Array Rope) : List Rope → RopeM (List Rope)
  | [] => return done.toList
  | [last] => return (done.push last).toList
  | left :: right :: rest => do
    pairAfter policy (done.push (← left.concat right policy)) rest

/-- Pairs up until at most two ropes are left. Every round halves their number, so there are never
more rounds than ropes. -/
def pairUp (policy : BalancePolicy) : Nat → List Rope → RopeM (List Rope)
  | 0, ropes => return ropes
  | rounds + 1, ropes => do
    if ropes.length ≤ 2 then return ropes
    else pairUp policy rounds (← pairAfter policy #[] ropes)

/-- The tree over two halves with the tags of the rope they are the content of. -/
def rebuild (rope left right : Rope) (depth : Nat) (policy : BalancePolicy) : RopeM Rope := do
  let root ← left.taggedJoin right rope.encoding rope.range depth
    (policy.isBalanced depth rope.byteLen)
  if root.charLen = rope.charLen then return root
  else root.retag rope.tags

/-- A rope of the same content with the least depth that its pieces allow. -/
def rebalance (rope : Rope) (policy : BalancePolicy) : RopeM Rope := do
  match rope with
  | leaf .. | view .. => return rope
  | join .. =>
    RopeM.emit (.rebalanceBegun rope.depth)
    let pieces ← rope.pieces.mapM settle
    RopeM.emit (.rebalancePieces pieces.length)
    match ← pairUp policy pieces.length pieces with
    | [left, right] =>
      let depth := max left.depth right.depth + 1
      if rope.depth ≤ depth then
        RopeM.emit (.rebalanceDepth rope.depth)
        RopeM.emit (.treeKept depth)
        return rope
      else
        let root ← rope.rebuild left right depth policy
        RopeM.emit (.rebalanceDepth root.depth)
        RopeM.emit (.ropeRebalanced root.byteLen)
        return root
    | _ => return rope

end ByteRope.Rope
