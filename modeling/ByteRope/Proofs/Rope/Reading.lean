import ByteRope.Proofs.Rope.Walk
import ByteRope.Proofs.Scanner.Parts
import ByteRope.Proofs.Store.Computation
import ByteRope.Rope.Read

/-!
# Reading ropes

Each way to the octets of a rope gives what the tree says, whichever nodes remember their content.
The ways that ask for one buffer for the whole content fail if that is longer than a buffer can be,
and only then; the others do not fail on a range that the rope has.
-/

namespace ByteRope.Rope

open RopeM

variable {c : Census} {rope : Rope} {offset len index : Nat}

/-! ## One buffer -/

theorem gathered_toList (gathered : Gathered) (chunks : List Chunk) :
    (chunks.foldl Gathered.add gathered).bytes.toList =
      gathered.bytes.toList ++ chunks.flatMap fun chunk => chunk.bytes.toList := by
  induction chunks generalizing gathered with
  | nil => simp
  | cons chunk rest ih =>
    rw [List.foldl_cons, ih, List.flatMap_cons, Gathered.add, Array.toList_append,
      List.append_assoc]

theorem gather_eq (h : c.live rope) (hlen : rope.byteLen ≤ Size.maxBuffer) :
    ∃ gathered, gather c.store rope = .ok gathered ∧ gathered.bytes.toList = rope.content := by
  have hwf := c.wf h
  have hrange : 0 + rope.byteLen ≤ rope.byteLen := Nat.le_of_eq (Nat.zero_add _)
  obtain ⟨chunks, -, hflat, hfold⟩ := Cursor.exists_chunks (Cursor.fits_singleton h hrange)
  rw [Cursor.octets_singleton, hwf.stretch_all] at hflat
  have hcontent : (chunks.foldl Gathered.add ⟨#[], 0⟩).bytes.toList = rope.content := by
    rw [gathered_toList, hflat]
    rfl
  have hsize : (chunks.foldl Gathered.add ⟨#[], 0⟩).bytes.size = rope.byteLen := by
    rw [← Array.length_toList, hcontent, hwf.length_content]
  refine ⟨_, ?_, hcontent⟩
  rw [gather, Size.checkBuffer, if_pos hlen, Cursor.ofRange_eq hwf hrange]
  change (do
    let gathered ← Cursor.fold c.store Gathered.add ⟨#[], 0⟩ [⟨rope, 0, rope.byteLen⟩]
    if gathered.bytes.size = rope.byteLen then .ok gathered
    else .error (.lengthsDiffer gathered.bytes.size rope.byteLen)) = _
  rw [hfold]
  exact if_pos hsize

theorem gather_of_lt (h : Size.maxBuffer < rope.byteLen) (store : Store) :
    gather store rope = .error .capacityOverflow := by
  rw [gather, Size.checkBuffer, if_neg (Nat.not_le_of_lt h)]
  rfl

theorem wf_assemble (h : c.live rope) :
    RopeM.WF c rope.assemble (fun bytes _ => rope.HeldBy bytes) (Overlong rope.byteLen) := by
  refine WF.get (WF.lift (fun gathered hg => WF.emit fun c' hle => WF.pure ?_) ?_)
  all_goals
    rcases Nat.lt_or_ge Size.maxBuffer rope.byteLen with hlt | hge
  · rw [gather_of_lt hlt] at hg
    cases hg
  · obtain ⟨_, hok, hcontent⟩ := gather_eq h hge
    rw [hok] at hg
    cases hg
    refine ⟨hcontent, ?_⟩
    rwa [← Array.length_toList, hcontent, (c.wf h).length_content]
  · rw [gather_of_lt hlt]
    intro _ heq
    cases heq
    exact ⟨rfl, hlt⟩
  · obtain ⟨_, hok, -⟩ := gather_eq h hge
    rw [hok]
    nofun

theorem wf_copyOut (h : c.live rope) :
    RopeM.WF c rope.copyOut (fun bytes _ => rope.HeldBy bytes) (Overlong rope.byteLen) := by
  cases rope with
  | leaf | join => exact wf_assemble h
  | view id tags byteLen depth offset child =>
    apply WF.get
    have hchild : c.live child := c.closed h (List.mem_cons_self ..)
    cases hraw : c.store.raw? child with
    | none => exact wf_assemble h
    | some bytes =>
      obtain ⟨hcontent, hmax⟩ := c.raw hchild hraw
      cases c.wf h with
      | view hwf hrange =>
        rw [← hwf.size_of_heldBy ⟨hcontent, hmax⟩] at hrange
        simp only [Chunk.of_eq hrange hmax]
        refine WF.reads rfl (WF.pure ⟨?_, ?_⟩)
        · rw [Chunk.toList_bytes, hcontent]
          rfl
        · dsimp only [Chunk.bytes]
          rw [Array.size_extract]
          omega

/-- The content in one buffer, or the fault that there can be none. -/
theorem wf_flatten (h : c.live rope) :
    RopeM.WF c rope.flatten (fun bytes _ => rope.HeldBy bytes) (Overlong rope.byteLen) := by
  apply WF.get
  cases hraw : c.store.raw? rope with
  | some bytes => exact WF.pure (c.raw h hraw)
  | none =>
    refine WF.bind (wf_copyOut h) fun bytes c' hle hbytes => ?_
    exact WF.publish (hle.live h) hbytes fun _ _ => WF.pure hbytes

/-! ## Single octets -/

theorem octetAt_eq {bytes : Bytes} {byte : UInt8} (h : bytes.toList[index]? = some byte) :
    bytes.octetAt index = .ok byte := by
  rw [Array.getElem?_toList] at h
  rw [Bytes.octetAt, h]

theorem octetAt_of_cell (h : c.live rope) {bytes : Bytes} {byte : UInt8}
    (hcell : (c.store.cell rope.id).bytes? = some bytes)
    (hb : rope.content[index]? = some byte) : bytes.octetAt index = .ok byte :=
  octetAt_eq ((c.bytes h hcell).1 ▸ hb)

/-- The way down to an octet ends at the octet, also where it stops at a buffer. -/
theorem octet_eq (h : c.live rope) {byte : UInt8} (hb : rope.content[index]? = some byte) :
    octet c.store rope index = .ok byte := by
  induction rope generalizing index with
  | leaf id kind encoding charLen bytes => exact octetAt_eq hb
  | join id tags byteLen depth balanced left right ihl ihr =>
    rw [octet]
    cases hcell : (c.store.cell id).bytes? with
    | some bytes => exact octetAt_of_cell h hcell hb
    | none =>
      have hl : c.live left := c.closed h (List.mem_cons_self ..)
      have hr : c.live right := c.closed h (List.mem_cons_of_mem _ (List.mem_cons_self ..))
      have hlen := (c.wf hl).length_content
      rw [content, List.getElem?_append, hlen] at hb
      dsimp only
      split at hb
      next hlt => rw [if_pos hlt, ihl hl hb]
      next hge => rw [if_neg hge, ihr hr hb]
  | view id tags byteLen depth start child ih =>
    rw [octet]
    cases hcell : (c.store.cell id).bytes? with
    | some bytes => exact octetAt_of_cell h hcell hb
    | none =>
      have hchild : c.live child := c.closed h (List.mem_cons_self ..)
      rw [content, List.getElem?_take, List.getElem?_drop] at hb
      split at hb
      next hlt =>
        have hend : index + start < child.byteLen := by
          rw [← (c.wf hchild).length_content, Nat.add_comm]
          exact (List.getElem?_eq_some_iff.mp hb).1
        rw [Size.add_of_le (Nat.le_trans (Nat.le_of_lt hend) (c.wf hchild).byteLen_le)]
        exact ih hchild (Nat.add_comm start index ▸ hb)
      next => cases hb

theorem byte?_eq (h : c.live rope) (index : Nat) :
    rope.byte? index c.store = .ok rope.content[index]? c.store := by
  have hlen := (c.wf h).length_content
  unfold byte?
  split
  next hlt =>
    have hbyte := List.getElem?_eq_getElem (hlen.symm ▸ hlt : index < rope.content.length)
    have hoctet := octet_eq h hbyte
    change ((liftM (octet c.store rope index) : RopeM UInt8) >>= fun byte => pure (some byte))
      c.store = _
    rw [run_lift_bind, hoctet, hbyte]
    rfl
  next hge =>
    rw [List.getElem?_eq_none (hlen.symm ▸ Nat.le_of_not_lt hge)]
    rfl

theorem byteAt_eq (h : c.live rope) {byte : UInt8} (hb : rope.content[index]? = some byte) :
    rope.byteAt index c.store = .ok byte c.store := by
  rw [byteAt, run_bind (byte?_eq h _), hb]
  rfl

theorem byteAt_of_le (h : c.live rope) (hi : rope.byteLen ≤ index) :
    rope.byteAt index c.store =
      .error (.refused (.indexOutOfBounds index rope.byteLen)) c.store := by
  rw [byteAt, run_bind (byte?_eq h _), List.getElem?_eq_none ((c.wf h).length_content.symm ▸ hi)]
  rfl

theorem bytesAfter_eq (h : c.live rope) (done : Bytes) (count : Nat)
    (hi : index + count = rope.byteLen) :
    rope.bytesAfter done index count c.store =
      .ok (done ++ (rope.content.drop index).toArray) c.store := by
  have hlen := (c.wf h).length_content
  induction count generalizing done index with
  | zero =>
    rw [List.drop_eq_nil_of_le (by omega), Array.append_empty]
    rfl
  | succ count ih =>
    have hlt : index < rope.content.length := by omega
    rw [bytesAfter, run_bind (byteAt_eq h (List.getElem?_eq_getElem hlt)), ih _ (by omega),
      List.drop_eq_getElem_cons hlt]
    simp

/-- All octets one by one, or the fault that there is no room for them. -/
theorem allBytes_eq (h : c.live rope) :
    rope.allBytes c.store =
      if rope.byteLen ≤ Size.maxBuffer then .ok rope.content.toArray c.store
      else .error .capacityOverflow c.store := by
  unfold allBytes
  rw [run_lift_bind, Size.checkBuffer]
  by_cases hmax : rope.byteLen ≤ Size.maxBuffer
  · rw [if_pos hmax, if_pos hmax]
    exact (bytesAfter_eq h #[] rope.byteLen (Nat.zero_add _)).trans (by simp)
  · rw [if_neg hmax, if_neg hmax]

/-! ## Stretches -/

theorem chunks_eq (h : c.live rope) :
    ∃ found, rope.chunks c.store = .ok found c.store ∧ (∀ chunk ∈ found, chunk.WF) ∧
      found.toList.flatMap (fun chunk => chunk.bytes.toList) = rope.content := by
  have hrange : 0 + rope.byteLen ≤ rope.byteLen := Nat.le_of_eq (Nat.zero_add _)
  obtain ⟨found, hall, hflat, hfold⟩ := Cursor.exists_chunks (Cursor.fits_singleton h hrange)
  rw [Cursor.octets_singleton, (c.wf h).stretch_all] at hflat
  refine ⟨found.toArray, ?_, by simpa using hall, hflat⟩
  have hrun : (Cursor.chunks c.store [⟨rope, 0, rope.byteLen⟩]) = .ok found.toArray := by
    rw [Cursor.chunks, hfold, List.foldl_push_eq_append', Array.empty_append]
  simp only [chunks, run_lift_bind, run_get_bind, Cursor.ofRange_eq (c.wf h) hrange]
  change (liftM (Cursor.chunks c.store [⟨rope, 0, rope.byteLen⟩]) : RopeM _) c.store = _
  rw [hrun]
  rfl

/-- A range is scanned as if it were one buffer. -/
theorem scanRange_eq (h : c.live rope) (hr : offset + len ≤ rope.byteLen) :
    rope.scanRange offset len c.store =
      .ok (rope.encoding.scan (rope.stretch offset len).toArray) c.store := by
  obtain ⟨found, -, hflat, hfold⟩ := Cursor.exists_chunks (Cursor.fits_singleton h hr)
  rw [Cursor.octets_singleton] at hflat
  have hscan : found.foldl (fun scanner chunk => scanner.feed chunk.bytes)
      (Scanner.new rope.encoding) =
        (Scanner.new rope.encoding).feed (rope.stretch offset len).toArray := by
    rw [← List.foldl_map, Scanner.foldl_feed, List.flatMap_map, hflat]
  simp only [scanRange, run_lift_bind, run_get_bind, Cursor.ofRange_eq (c.wf h) hr, hfold, hscan]
  rfl

/-- Checking the sum as well as the range refuses no range more: a sum past the largest size ends
past every rope. -/
theorem checkRange_eq_add (h : rope.byteLen ≤ Size.max) (offset len : Nat) :
    rope.checkRange offset len =
      match Size.add offset len with
      | .ok stop =>
        if stop ≤ rope.byteLen then .ok () else .error (.rangeOutOfBounds offset len rope.byteLen)
      | .error _ => .error (.rangeOutOfBounds offset len rope.byteLen) := by
  unfold checkRange Size.add
  by_cases hmax : offset + len ≤ Size.max
  · rw [if_pos hmax]
  · rw [if_neg hmax, if_neg fun hr => hmax (Nat.le_trans hr h)]

/-- The first octets are `done`, and the others those of the old buffer. -/
structure Filling.Holds (old : Bytes) (done : List UInt8) (filling : Filling) : Prop where
  written : filling.written = done.length
  toList : filling.buffer.toList = done ++ old.toList.drop done.length

theorem Filling.Holds.put {old : Bytes} {done : List UInt8} {filling : Filling} {chunk : Chunk}
    (h : filling.Holds old done) (hc : chunk.WF) (hroom : done.length + chunk.len ≤ old.size)
    (hmax : old.size ≤ Size.max) :
    ∃ next, filling.put chunk = .ok next ∧ next.Holds old (done ++ chunk.bytes.toList) := by
  obtain ⟨buffer, written⟩ := filling
  have hbuffer : buffer.toList = done ++ old.toList.drop done.length := h.toList
  cases h.written
  have hlen := Chunk.length_bytes hc.le_size
  have hsize := congrArg List.length hbuffer
  simp only [Array.length_toList, List.length_append, List.length_drop] at hsize
  have hstop : done.length + chunk.len ≤ buffer.size := by omega
  refine ⟨⟨buffer.extract 0 done.length ++ chunk.bytes ++
    buffer.extract (done.length + chunk.len) buffer.size, done.length + chunk.len⟩, ?_, ?_, ?_⟩
  · rw [Filling.put, Size.add_of_le (Nat.le_trans hroom hmax)]
    exact if_pos hstop
  · rw [List.length_append, hlen]
  · have hfront : (buffer.extract 0 done.length).toList = done := by
      rw [Array.toList_extract, List.extract_eq_drop_take', List.drop_zero, hbuffer,
        List.take_left]
    have hback : (buffer.extract (done.length + chunk.len) buffer.size).toList =
        old.toList.drop (done.length + chunk.len) := by
      rw [Array.toList_extract, List.extract_eq_drop_take', ← Array.length_toList,
        List.take_length, hbuffer, List.drop_append, List.drop_eq_nil_of_le (by omega)]
      simp [List.drop_drop]
    rw [Array.toList_append, Array.toList_append, hfront, hback, List.length_append, hlen]

/-- Chunks that there is room for are put into the buffer one after another. -/
theorem Filling.Holds.foldl {old : Bytes} {done : List UInt8} {filling : Filling}
    {chunks : List Chunk} (h : filling.Holds old done) (hall : ∀ chunk ∈ chunks, chunk.WF)
    (hroom : (done ++ chunks.flatMap fun chunk => chunk.bytes.toList).length ≤ old.size)
    (hmax : old.size ≤ Size.max) :
    ∃ last, chunks.foldl Filling.next (.ok filling) = .ok last ∧
      last.Holds old (done ++ chunks.flatMap fun chunk => chunk.bytes.toList) := by
  induction chunks generalizing done filling with
  | nil =>
    rw [List.flatMap_nil, List.append_nil]
    exact ⟨filling, rfl, h⟩
  | cons chunk rest ih =>
    have hc := hall chunk (List.mem_cons_self ..)
    rw [List.flatMap_cons, ← List.append_assoc] at hroom ⊢
    have hfits : done.length + chunk.len ≤ old.size := by
      rw [← Chunk.length_bytes hc.le_size, ← List.length_append]
      rw [List.length_append] at hroom
      exact Nat.le_trans (Nat.le_add_right ..) hroom
    obtain ⟨next, hput, hnext⟩ := h.put hc hfits hmax
    obtain ⟨last, hfold, hlast⟩ :=
      ih hnext (fun other hm => hall other (List.mem_cons_of_mem _ hm)) hroom
    refine ⟨last, ?_, hlast⟩
    rw [List.foldl_cons, Filling.next, Except.bind, hput, hfold]

theorem copyInto_eq (h : c.live rope) {buffer : Bytes}
    (hr : offset + buffer.size ≤ rope.byteLen) :
    rope.copyInto offset buffer c.store =
      .ok (.ok (), (rope.stretch offset buffer.size).toArray) c.store := by
  have hmax : buffer.size ≤ Size.max :=
    Nat.le_trans (Nat.le_add_left ..) (Nat.le_trans hr (c.wf h).byteLen_le)
  have hlen := (c.wf h).length_stretch hr
  obtain ⟨chunks, hall, hflat, hfold⟩ := Cursor.exists_chunks (Cursor.fits_singleton h hr)
  rw [Cursor.octets_singleton] at hflat
  have hblank : Filling.Holds buffer [] ⟨buffer, 0⟩ := ⟨rfl, rfl⟩
  have hroom :
      ([] ++ chunks.flatMap fun chunk : Chunk => chunk.bytes.toList).length ≤ buffer.size :=
    Nat.le_of_eq (by rw [hflat, List.nil_append, hlen])
  obtain ⟨last, hlast, hholds⟩ := hblank.foldl hall hroom hmax
  rw [hflat, List.nil_append] at hholds
  have hwritten : last.written = buffer.size := hholds.written.trans hlen
  have hbuffer : last.buffer = (rope.stretch offset buffer.size).toArray := by
    apply Array.toList_inj.mp
    rw [hholds.toList, hlen, ← Array.length_toList, List.drop_length, List.append_nil]
  simp only [copyInto, checkRange, if_pos hr, run_lift_bind, run_get_bind,
    Cursor.ofRange_eq (c.wf h) hr, hfold, hlast, if_pos hwritten, hbuffer]
  rfl

theorem copyInto_of_lt {buffer : Bytes} (hr : rope.byteLen < offset + buffer.size)
    (store : Store) :
    rope.copyInto offset buffer store =
      .ok (.error (.rangeOutOfBounds offset buffer.size rope.byteLen), buffer) store := by
  simp only [copyInto, checkRange, if_neg (Nat.not_le_of_lt hr)]
  rfl

theorem copyRange_eq (h : c.live rope) (hr : offset + len ≤ rope.byteLen) :
    rope.copyRange offset len c.store =
      .ok (.ok (rope.stretch offset len).toArray) c.store := by
  have hsize : (Array.replicate len 0 : Bytes).size = len := Array.size_replicate
  have hfits : offset + (Array.replicate len 0 : Bytes).size ≤ rope.byteLen := hsize.symm ▸ hr
  have hcopied := copyInto_eq h hfits
  rw [hsize] at hcopied
  simp only [copyRange, checkRange, if_pos hr, run_bind hcopied]
  rfl

theorem copyRange_of_lt (hr : rope.byteLen < offset + len) (store : Store) :
    rope.copyRange offset len store =
      .ok (.error (.rangeOutOfBounds offset len rope.byteLen)) store := by
  simp only [copyRange, checkRange, if_neg (Nat.not_le_of_lt hr)]
  rfl

end ByteRope.Rope
