import ByteRope.Proofs.Store.Census
import ByteRope.Rope.Cursor

/-!
# Walks

A walk yields the octets of its stretches, in order, as chunks of one octet at least, whichever
nodes have a buffer (`Cursor.next?_cases`, `Cursor.exists_chunks`). Every stretch on its stack lies
within a node in use; entering a node replaces its stretch by stretches of the same octets, and so
no buffer is ever overrun.
-/

namespace ByteRope

variable {c : Census}

namespace Chunk

/-- A stretch of one octet at least that the buffer holds. -/
structure WF (chunk : Chunk) : Prop where
  pos : 0 < chunk.len
  le_size : chunk.start + chunk.len ≤ chunk.buffer.size

theorem toList_bytes (chunk : Chunk) :
    chunk.bytes.toList = (chunk.buffer.toList.drop chunk.start).take chunk.len := by
  rw [bytes, Array.toList_extract, List.extract_eq_drop_take', List.drop_take]
  congr 1
  omega

theorem length_bytes {chunk : Chunk} (h : chunk.start + chunk.len ≤ chunk.buffer.size) :
    chunk.bytes.toList.length = chunk.len := by
  rw [toList_bytes, List.length_take, List.length_drop, Array.length_toList]
  omega

theorem of_eq {buffer : Bytes} {start len : Nat} (h : start + len ≤ buffer.size)
    (hs : buffer.size ≤ Size.maxBuffer) : Chunk.of buffer start len = .ok ⟨buffer, start, len⟩ := by
  have hm : start + len ≤ Size.max := Nat.le_trans (Nat.le_trans h hs) (by decide)
  rw [of, Size.add_of_le hm]
  exact if_pos h

end Chunk

namespace Frame

/-- The stretch lies within a node in use. -/
structure Fits (c : Census) (frame : Frame) : Prop where
  live : c.live frame.node
  range : frame.offset + frame.len ≤ frame.node.byteLen

/-- The octets of the stretch. -/
def octets (frame : Frame) : List UInt8 := frame.node.stretch frame.offset frame.len

end Frame

namespace Cursor

/-- All stretches lie within nodes in use. -/
def Fits (c : Census) (cursor : Cursor) : Prop := ∀ frame ∈ cursor, frame.Fits c

/-- The octets still to be read. -/
def octets (cursor : Cursor) : List UInt8 := cursor.flatMap Frame.octets

theorem fits_nil : Fits c [] := nofun

theorem fits_cons {frame : Frame} {rest : Cursor} (hf : frame.Fits c) (hr : rest.Fits c) :
    Fits c (frame :: rest) := by
  rintro other (_ | ⟨_, h⟩)
  · exact hf
  · exact hr other h

theorem fits_append {front rest : Cursor} (hf : front.Fits c) (hr : rest.Fits c) :
    Fits c (front ++ rest) := fun frame h =>
  (List.mem_append.mp h).elim (hf frame) (hr frame)

/-- Stretches of nodes in use stay so. -/
theorem Fits.mono {c' : Census} {cursor : Cursor} (h : cursor.Fits c) (hle : c ≤ c') :
    cursor.Fits c' :=
  fun frame hmem => ⟨hle.live (h frame hmem).live, (h frame hmem).range⟩

end Cursor

/-! ## Entering -/

/-- What is found on entering a stretch of these octets. -/
inductive Entered.Shows (c : Census) (octets : List UInt8) : Entered → Prop
  | chunk {chunk : Chunk} : chunk.WF → chunk.bytes.toList = octets → Shows c octets (.chunk chunk)
  | parts {parts : Cursor} : parts.Fits c → parts.octets = octets → Shows c octets (.parts parts)

/-- A part of a stretch of a join begins and ends where the stretch or the side does: the
differences of offsets that it is made of are of the smaller from the larger. -/
def Frame.Exact (left right : Rope) (offset stop : Nat) (part : Frame) : Prop :=
  (part.node = left ∧ part.offset = offset ∧ part.offset + part.len = min left.byteLen stop) ∨
    (part.node = right ∧ left.byteLen + part.offset = max offset left.byteLen ∧
      left.byteLen + part.offset + part.len = stop)

theorem Frame.split_exact {left right : Rope} {offset stop : Nat} (ho : offset ≤ stop)
    {part : Frame} (h : part ∈ split left right offset stop) :
    part.Exact left right offset stop := by
  unfold split at h
  rcases List.mem_append.mp h with hl | hr
  · split at hl
    next hlt =>
      cases List.mem_singleton.mp hl
      exact .inl ⟨rfl, rfl, by dsimp only; omega⟩
    next => cases hl
  · split at hr
    next hlt =>
      cases List.mem_singleton.mp hr
      exact .inr ⟨rfl, by dsimp only; omega, by dsimp only; omega⟩
    next => cases hr

theorem Frame.split_fits {left right : Rope} (hl : c.live left) (hr : c.live right)
    {offset stop : Nat} (ho : offset ≤ stop) (h : stop ≤ left.byteLen + right.byteLen) :
    Cursor.Fits c (split left right offset stop) := by
  unfold split
  apply Cursor.fits_append <;> split
  · exact Cursor.fits_cons ⟨hl, by simp only; omega⟩ Cursor.fits_nil
  · exact Cursor.fits_nil
  · exact Cursor.fits_cons ⟨hr, by simp only; omega⟩ Cursor.fits_nil
  · exact Cursor.fits_nil

/-- The two sides of a stretch of a join; one that would be empty is left out. -/
theorem Frame.octets_split (left right : Rope) (offset stop : Nat) :
    Cursor.octets (split left right offset stop) =
      left.stretch offset (min left.byteLen stop - offset) ++
        right.stretch (max offset left.byteLen - left.byteLen)
          (stop - max offset left.byteLen) := by
  have none_left (h : ¬offset < left.byteLen) : min left.byteLen stop - offset = 0 := by omega
  have none_right (h : ¬left.byteLen < stop) : stop - max offset left.byteLen = 0 := by omega
  unfold split Cursor.octets
  rw [List.flatMap_append]
  congr 1
  · split
    · simp [octets]
    next h => rw [none_left h, Rope.stretch_zero, List.flatMap_nil]
  · split
    · simp [octets]
    next h => rw [none_right h, Rope.stretch_zero, List.flatMap_nil]

theorem Frame.enter_shows {frame : Frame} (h : frame.Fits c) :
    ∃ entered, frame.enter c.store = .ok entered ∧ entered.Shows c frame.octets := by
  obtain ⟨node, offset, len⟩ := frame
  obtain ⟨hlive, hrange⟩ := h
  have hwf := c.wf hlive
  unfold enter
  split
  next hzero =>
    refine ⟨_, rfl, .parts Cursor.fits_nil ?_⟩
    cases hzero
    exact (node.stretch_zero offset).symm
  next hzero =>
    split
    next bytes hraw =>
      obtain ⟨hoctets, hmax⟩ := c.raw hlive hraw
      have hsize := hwf.size_of_heldBy (c.raw hlive hraw)
      rw [Chunk.of_eq (hsize ▸ hrange) hmax]
      refine ⟨_, rfl, .chunk ⟨Nat.pos_of_ne_zero hzero, hsize ▸ hrange⟩ ?_⟩
      rw [Chunk.toList_bytes, hoctets]
      rfl
    next hraw =>
      cases hwf with
      | leaf => cases hraw
      | join hl hr hlen hmax =>
        simp only [Rope.byteLen, hlen] at hrange
        rw [Size.add_of_le (Nat.le_trans hrange (hlen ▸ hmax))]
        refine ⟨_, rfl, .parts (split_fits ?_ ?_ (Nat.le_add_right ..) hrange) ?_⟩
        · exact c.closed hlive (List.mem_cons_self ..)
        · exact c.closed hlive (List.mem_cons_of_mem _ (List.mem_cons_self ..))
        · rw [octets_split]
          exact (Rope.stretch_join hl).symm
      | @view id tags byteLen depth start child hchild hstart =>
        simp only [Rope.byteLen] at hrange
        have hend : offset + start + len ≤ child.byteLen := by omega
        have hsum : offset + start ≤ Size.max :=
          Nat.le_trans (Nat.le_trans (Nat.le_add_right ..) hend) hchild.byteLen_le
        dsimp only
        rw [Size.add_of_le hsum]
        refine ⟨_, rfl, .parts (Cursor.fits_cons ⟨?_, hend⟩ Cursor.fits_nil) ?_⟩
        · exact c.closed hlive (List.mem_cons_self ..)
        · rw [Cursor.octets, List.flatMap_cons, List.flatMap_nil, List.append_nil]
          exact (Rope.stretch_view hrange).symm

/-! ## Walking on -/

namespace Cursor

/-- The next chunk is never empty, and with what follows it makes up what is still to be read. -/
theorem next?_cases {cursor : Cursor} (h : cursor.Fits c) :
    (cursor.next? c.store = .ok none ∧ cursor.octets = []) ∨
      ∃ chunk rest, cursor.next? c.store = .ok (some (chunk, rest)) ∧ chunk.WF ∧ rest.Fits c ∧
        cursor.octets = chunk.bytes.toList ++ rest.octets := by
  fun_induction next? c.store cursor with
  | case1 => exact .inl ⟨rfl, rfl⟩
  | case2 frame rest fault hf =>
    obtain ⟨_, he, _⟩ := Frame.enter_shows (h frame (List.mem_cons_self ..))
    rw [hf] at he
    cases he
  | case3 frame rest chunk hf =>
    obtain ⟨_, he, hshows⟩ := Frame.enter_shows (h frame (List.mem_cons_self ..))
    rw [hf] at he
    cases he
    cases hshows with
    | chunk hwf hoctets =>
      refine .inr ⟨chunk, rest, rfl, hwf, fun f hr => h f (List.mem_cons_of_mem _ hr), ?_⟩
      rw [hoctets]
      rfl
  | case4 frame rest parts hf ih =>
    obtain ⟨_, he, hshows⟩ := Frame.enter_shows (h frame (List.mem_cons_self ..))
    rw [hf] at he
    cases he
    cases hshows with
    | parts hfits hoctets =>
      have hsame : Cursor.octets (frame :: rest) = Cursor.octets (parts ++ rest) := by
        rw [octets, octets, List.flatMap_append, List.flatMap_cons, ← hoctets, octets]
      rw [hsame]
      exact ih (fits_append hfits fun f hr => h f (List.mem_cons_of_mem _ hr))

/-- Reading to the end takes chunks that make up the octets still to be read. Which chunks they are
hangs on the buffers that nodes have, and not on what is done with the chunks. -/
theorem exists_chunks {cursor : Cursor} (h : cursor.Fits c) :
    ∃ chunks : List Chunk, (∀ chunk ∈ chunks, chunk.WF) ∧
      chunks.flatMap (fun chunk => chunk.bytes.toList) = cursor.octets ∧
      ∀ {α : Type} (f : α → Chunk → α) (acc : α),
        cursor.fold c.store f acc = .ok (chunks.foldl f acc) := by
  rcases next?_cases h with ⟨hend, hoctets⟩ | ⟨chunk, rest, hnext, hwf, hrest, hoctets⟩
  · refine ⟨[], nofun, hoctets.symm, fun f acc => ?_⟩
    rw [fold]
    split <;> simp_all
  · have := weight_lt_of_next? hnext
    obtain ⟨chunks, hall, hflat, hfold⟩ := exists_chunks hrest
    refine ⟨chunk :: chunks, ?_, ?_, fun f acc => ?_⟩
    · rintro other (_ | ⟨_, hm⟩)
      · exact hwf
      · exact hall other hm
    · rw [List.flatMap_cons, hflat, hoctets]
    · rw [fold]
      split <;> simp_all
  termination_by cursor.weight

theorem ofRange_eq {rope : Rope} (h : rope.WF) {offset len : Nat}
    (hr : offset + len ≤ rope.byteLen) : ofRange rope offset len = .ok [⟨rope, offset, len⟩] := by
  rw [ofRange, Size.add_of_le (Nat.le_trans hr h.byteLen_le)]
  exact if_pos hr

theorem fits_singleton {rope : Rope} (h : c.live rope) {offset len : Nat}
    (hr : offset + len ≤ rope.byteLen) : Fits c [⟨rope, offset, len⟩] :=
  fits_cons ⟨h, hr⟩ fits_nil

theorem octets_singleton (rope : Rope) (offset len : Nat) :
    octets [⟨rope, offset, len⟩] = rope.stretch offset len := by
  rw [octets, List.flatMap_cons, List.flatMap_nil, List.append_nil]
  rfl

end Cursor

end ByteRope
