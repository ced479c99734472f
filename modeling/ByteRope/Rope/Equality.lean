import ByteRope.Rope.Read

/-!
# Equality and digests

Two ropes are equal if they have one encoding and the same octets, whatever their trees. They are
compared side by side, chunk against chunk, without copying either together. The digest of a rope is
what the function of the store makes of its encoding and its octets; a node remembers it once it has
been computed, and two remembered digests that differ settle a comparison at once.
-/

namespace ByteRope

/-- A walk with the part of the current chunk that is still to be read. -/
structure Stream where
  chunk : Chunk
  cursor : Cursor

namespace Stream

/-- Goes to the next chunk if the current one is used up. At the end an empty chunk stays. -/
def refill (store : Store) (stream : Stream) : Except Fault Stream :=
  if stream.chunk.len = 0 then
    match stream.cursor.next? store with
    | .error fault => .error fault
    | .ok none => .ok ⟨.empty, []⟩
    | .ok (some (chunk, cursor)) => .ok ⟨chunk, cursor⟩
  else
    .ok stream

/-- What is left of a stream after `count` octets of its chunk. -/
def drop (stream : Stream) (count : Nat) : Stream :=
  ⟨stream.chunk.drop count, stream.cursor⟩

/-- Refilling goes on in the walk, or changes nothing, or finds the end. -/
theorem refill_cases {store : Store} {stream full : Stream}
    (h : stream.refill store = .ok full) :
    full = stream ∨ full.chunk.len = 0 ∨ full.cursor.weight < stream.cursor.weight := by
  unfold refill at h
  split at h
  · split at h
    · simp at h
    · cases h
      exact .inr (.inl rfl)
    · rename_i hn
      cases h
      exact .inr (.inr (Cursor.weight_lt_of_next? hn))
  · cases h
    exact .inl rfl

/-- Two streams hold the same octets from here on. -/
def agree (store : Store) (left right : Stream) : Except Fault Bool :=
  match _hl : left.refill store, _hr : right.refill store with
  | .error fault, _ => .error fault
  | _, .error fault => .error fault
  | .ok a, .ok b =>
    let count := min a.chunk.len b.chunk.len
    if _hc : count = 0 then
      .ok (decide (a.chunk.len = 0) && decide (b.chunk.len = 0))
    else if (a.chunk.take count).bytes = (b.chunk.take count).bytes then
      agree store (a.drop count) (b.drop count)
    else
      .ok false
  termination_by (left.cursor.weight + right.cursor.weight, left.chunk.len + right.chunk.len)
  decreasing_by
    have hc' : min a.chunk.len b.chunk.len ≠ 0 := _hc
    have ha : a.chunk.len ≠ 0 := by omega
    have hb : b.chunk.len ≠ 0 := by omega
    rcases refill_cases _hl with rfl | h | h
    · rcases refill_cases _hr with rfl | h' | h'
      · apply Prod.Lex.right
        simp only [drop, Chunk.drop]
        omega
      · exact absurd h' hb
      · apply Prod.Lex.left
        simp only [drop]
        omega
    · exact absurd h ha
    · apply Prod.Lex.left
      simp only [drop]
      rcases refill_cases _hr with rfl | h' | h'
      · omega
      · exact absurd h' hb
      · omega

end Stream

namespace Rope

/-- The two ropes are one node. -/
def isSame (left right : Rope) : Bool := decide (left.id = right.id)

/-- The two ropes both remember a digest, and not the same one. -/
def digestsDiffer (store : Store) (left right : Rope) : Bool :=
  match store.digest? left, store.digest? right with
  | some a, some b => a != b
  | _, _ => false

/-- The two ropes have one encoding and the same octets. -/
def equal (left right : Rope) : RopeM Bool := do
  let store ← get
  if left.isSame right then return true
  else if left.encoding ≠ right.encoding ∨ left.byteLen ≠ right.byteLen then return false
  else if digestsDiffer store left right then return false
  else
    let a ← Cursor.ofRange left 0 left.byteLen
    let b ← Cursor.ofRange right 0 right.byteLen
    Stream.agree store ⟨.empty, a⟩ ⟨.empty, b⟩

/-- The digest of the rope, which it remembers from now on, as it does its content. -/
def digest (rope : Rope) : RopeM UInt64 := do
  match (← get).digest? rope with
  | some digest => return digest
  | none =>
    let bytes ← rope.flatten
    let digest := (← get).digestOf rope.encoding bytes
    modify fun store => store.memoize rope.id digest
    return digest

end Rope

end ByteRope
