import ByteRope.Chunk
import ByteRope.Store

/-!
# Walking a rope

A cursor is a stack of stretches of nodes still to be read, the next one first. Entering a stretch
gives a chunk if the node has its content in one buffer, and else the stretches of its children that
make it up. The walk follows the stack and never the depth of the tree, and it looks at the store
anew at every node, so a node that comes to remember its content meanwhile shortens it.
-/

namespace ByteRope

/-- A stretch of a node. -/
structure Frame where
  node : Rope
  offset : Nat
  len : Nat

/-- What is found on entering a stretch. -/
inductive Entered where
  | chunk (chunk : Chunk)
  | parts (frames : List Frame)

/-- The stretches still to be read. -/
abbrev Cursor := List Frame

namespace Frame

/-- The stretches of the two sides of a join that make up a stretch of the join. -/
def split (left right : Rope) (offset stop : Nat) : List Frame :=
  let border := left.byteLen
  let before : List Frame :=
    if offset < border then [⟨left, offset, min border stop - offset⟩] else []
  let after : List Frame :=
    if border < stop then
      [⟨right, max offset border - border, stop - max offset border⟩]
    else []
  before ++ after

/-- Looks at the first node of a stretch. -/
def enter (store : Store) (frame : Frame) : Except Fault Entered :=
  if frame.len = 0 then .ok (.parts [])
  else
    match store.raw? frame.node with
    | some bytes => (Chunk.of bytes frame.offset frame.len).map .chunk
    | none =>
      match frame.node with
      | .leaf .. => .error .unmaterializedLeaf
      | .join _ _ _ _ _ left right =>
        (Size.add frame.offset frame.len).map fun stop =>
          .parts (split left right frame.offset stop)
      | .view _ _ _ _ offset child =>
        (Size.add frame.offset offset).map fun start => .parts [⟨child, start, frame.len⟩]

end Frame

namespace Cursor

/-- The number of nodes that can still be entered. -/
def weight : Cursor → Nat
  | [] => 0
  | frame :: rest => frame.node.weight + weight rest

@[simp] theorem weight_nil : weight [] = 0 := rfl

@[simp] theorem weight_cons (frame : Frame) (rest : Cursor) :
    weight (frame :: rest) = frame.node.weight + weight rest := rfl

@[simp] theorem weight_append (front rest : Cursor) :
    weight (front ++ rest) = weight front + weight rest := by
  induction front with
  | nil => simp
  | cons frame front ih => simp [ih, Nat.add_assoc]

theorem weight_split_le (left right : Rope) (offset stop : Nat) :
    weight (Frame.split left right offset stop) ≤ left.weight + right.weight := by
  unfold Frame.split
  simp only [weight_append]
  split <;> split <;> simp

/-- The stretches found in a node are lighter than the node. -/
theorem weight_lt_of_enter {store : Store} {frame : Frame} {parts : List Frame}
    (h : frame.enter store = .ok (.parts parts)) : weight parts < frame.node.weight := by
  obtain ⟨node, offset, len⟩ := frame
  unfold Frame.enter at h
  split at h
  · cases h
    exact node.weight_pos
  · split at h
    · rename_i bytes _
      cases hc : Chunk.of bytes offset len <;> simp [hc, Except.map] at h
    · cases node with
      | leaf => simp at h
      | join id tags byteLen depth balanced left right =>
        cases hs : Size.add offset len <;> simp [hs, Except.map] at h
        subst h
        exact Nat.lt_succ_of_le (weight_split_le ..)
      | view id tags byteLen depth start child =>
        cases hs : Size.add offset start <;> simp [hs, Except.map] at h
        subst h
        simp [Rope.weight]

/-- A stretch of a rope, about to be read. -/
def ofRange (rope : Rope) (offset len : Nat) : Except Fault Cursor := do
  let stop ← Size.add offset len
  if stop ≤ rope.byteLen then .ok [⟨rope, offset, len⟩]
  else .error .walkExceeded

/-- The next chunk, and what is still to be read after it. -/
def next? (store : Store) : Cursor → Except Fault (Option (Chunk × Cursor))
  | [] => .ok none
  | frame :: rest =>
    match _h : frame.enter store with
    | .error fault => .error fault
    | .ok (.chunk chunk) => .ok (some (chunk, rest))
    | .ok (.parts parts) => next? store (parts ++ rest)
  termination_by cursor => cursor.weight
  decreasing_by
    have := weight_lt_of_enter _h
    simp only [weight_append, weight_cons]
    omega

theorem weight_lt_of_next? {store : Store} {cursor rest : Cursor} {chunk : Chunk}
    (h : cursor.next? store = .ok (some (chunk, rest))) : rest.weight < cursor.weight := by
  fun_induction next? store cursor with
  | case1 => simp at h
  | case2 => simp at h
  | case3 frame rest' chunk' hf =>
    simp only [Except.ok.injEq, Option.some.injEq, Prod.mk.injEq] at h
    obtain ⟨rfl, rfl⟩ := h
    have := frame.node.weight_pos
    simp only [weight_cons]
    omega
  | case4 frame rest' parts hf ih =>
    have := ih h
    have := weight_lt_of_enter hf
    simp only [weight_append, weight_cons] at *
    omega

/-- Reads to the end, chunk after chunk. -/
def fold {α : Type} (store : Store) (f : α → Chunk → α) (acc : α) (cursor : Cursor) :
    Except Fault α :=
  match _h : cursor.next? store with
  | .error fault => .error fault
  | .ok none => .ok acc
  | .ok (some (chunk, rest)) => fold store f (f acc chunk) rest
  termination_by cursor.weight
  decreasing_by exact weight_lt_of_next? _h

/-- All chunks in order. -/
def chunks (store : Store) (cursor : Cursor) : Except Fault (Array Chunk) :=
  cursor.fold store Array.push #[]

end Cursor

end ByteRope
