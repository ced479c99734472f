import ByteRope.Rope.Rebalance

/-!
# Builders

A builder puts pieces one after another and keeps the tree shallow. It holds a forest of trees with
the number of pieces in each, and joins two trees only when they hold equally many, like the carries
of a binary counter. The last small piece is held back, so that the next small one can be merged
with it into one leaf.
-/

namespace ByteRope

/-- A tree of a builder's forest and the number of pieces in it. -/
structure Builder.Tree where
  rope : Rope
  count : Nat

/-- A rope in the making. The forest comes last tree first. -/
structure Builder where
  forest : List Builder.Tree
  tail? : Option Rope
  encoding : Encoding
  config : Config

namespace Builder

/-- A builder without pieces. -/
def new (encoding : Encoding) (config : Config) : Builder :=
  ⟨[], none, encoding, config⟩

/-- The number of octets pushed. -/
def byteLen (builder : Builder) : Except Fault Nat := do
  let trees ← builder.forest.foldlM (fun sum tree => Size.add sum tree.rope.byteLen) 0
  Size.add trees ((builder.tail?.map Rope.byteLen).getD 0)

/-- No octets have been pushed. -/
def isEmpty (builder : Builder) : Except Fault Bool :=
  builder.byteLen.map fun byteLen => decide (byteLen = 0)

/-- The depth of the rope that the forest makes. -/
def depth (builder : Builder) : Nat :=
  match builder.forest with
  | [] => 0
  | last :: earlier =>
    earlier.foldl (fun depth tree => max tree.rope.depth depth + 1) last.rope.depth

/-! ## Pieces and trees -/

/-- Copies a tree into a leaf, and reports that. -/
def flattened (rope : Rope) : RopeM Rope := do
  let flat ← rope.toLeaf
  RopeM.emit (.pieceFlattened flat.byteLen rope.depth)
  return flat

/-- A piece as the forest takes it: balanced, unless the strategy is to leave it. -/
def prepare (config : Config) (piece : Rope) : RopeM Rope := do
  if piece.isBalanced then return piece
  else
    match config.rebalance with
    | .never => return piece
    | .flatten => flattened piece
    | .rebalance =>
      let rebuilt ← piece.rebalance config.policy
      if rebuilt.isBalanced then
        RopeM.emit (.pieceRebalanced piece.depth rebuilt.depth)
        return rebuilt
      else
        flattened piece

/-- Two trees of a forest in one. -/
def merge (config : Config) (left right : Rope) : RopeM Rope := do
  let joined ← left.concat right config.policy
  match config.rebalance with
  | .flatten => flattened joined
  | .rebalance | .never =>
    RopeM.emit (.forestMerged joined.depth)
    return joined

/-- Adds a tree to the forest and merges it with the last tree as long as both hold equally many
pieces. -/
def carry (config : Config) (rope : Rope) (count : Nat) : List Tree → RopeM (List Tree)
  | [] => return [⟨rope, count⟩]
  | last :: earlier => do
    if last.count = count then
      carry config (← merge config last.rope rope) (count + last.count) earlier
    else
      return ⟨rope, count⟩ :: last :: earlier

/-- Adds a piece to the only tree of a forest that is left unbalanced. -/
def extend (config : Config) (piece : Rope) : List Tree → RopeM (List Tree)
  | [] => return [⟨piece, 1⟩]
  | last :: earlier => do
    return ⟨← last.rope.concat piece config.policy, last.count + 1⟩ :: earlier

/-- Adds a piece to the forest. -/
def append (builder : Builder) (piece : Rope) : RopeM Builder := do
  let piece ← prepare builder.config piece
  let forest ←
    match builder.config.rebalance with
    | .never => extend builder.config piece builder.forest
    | .rebalance | .flatten => carry builder.config piece 1 builder.forest
  return { builder with forest }

/-- Moves the piece held back into the forest. -/
def flushTail (builder : Builder) : RopeM Builder :=
  match builder.tail? with
  | none => return builder
  | some tail => { builder with tail? := none }.append tail

/-! ## Pushing -/

/-- The piece can be merged into the piece held back. -/
def fitsTail (config : Config) (tail piece : Rope) : Except Fault Bool :=
  if tail.encoding = piece.encoding then
    (Size.add tail.byteLen piece.byteLen).map fun byteLen =>
      decide (byteLen ≤ config.smallConcatBytes)
  else
    .ok false

/-- Takes a piece that cannot be merged: a small one is held back, a larger one joins the forest. -/
def accept (builder : Builder) (piece : Rope) : RopeM Builder := do
  let builder ← builder.flushTail
  if piece.byteLen ≤ builder.config.smallConcatBytes then
    return { builder with tail? := some piece }
  else
    builder.append piece

/-- Adds a piece at the end. -/
def push (builder : Builder) (piece : Rope) : RopeM Builder := do
  if piece.isEmpty then return builder
  else
    match builder.tail? with
    | none => builder.accept piece
    | some tail =>
      if ← fitsTail builder.config tail piece then
        let merged ← (← tail.concat piece builder.config.policy).toLeaf
        RopeM.emit (.smallMerged merged.byteLen builder.config.smallConcatBytes)
        return { builder with tail? := some merged }
      else
        builder.accept piece

/-- Adds octets at the end, under the encoding of the builder. -/
def pushBytes (builder : Builder) (bytes : Bytes) : RopeM Builder := do
  if bytes.isEmpty then return builder
  else builder.push (← Rope.ofBytes bytes builder.encoding)

/-- Adds a piece at the end again and again. -/
def pushTimes (builder : Builder) (piece : Rope) (count : Nat) : RopeM Builder :=
  RopeM.iterate (fun builder => builder.push piece) count builder

/-- Adds octets at the end again and again. -/
def pushBytesTimes (builder : Builder) (bytes : Bytes) (count : Nat) : RopeM Builder :=
  RopeM.iterate (fun builder => builder.pushBytes bytes) count builder

/-! ## Building -/

/-- Joins the trees of a forest, the last two first. -/
def joinTrees (policy : BalancePolicy) (rope : Rope) (earlier : List Tree) : RopeM Rope :=
  earlier.foldlM (fun rope tree => tree.rope.concat rope policy) rope

/-- The rope of all pieces. -/
def build (builder : Builder) : RopeM Rope := do
  let builder ← builder.flushTail
  match builder.forest with
  | [] => Rope.empty builder.encoding
  | last :: earlier =>
    let rope ← joinTrees builder.config.policy last.rope earlier
    RopeM.emit (.ropeBuilt rope.byteLen rope.depth builder.forest.length)
    return rope

end Builder

end ByteRope
