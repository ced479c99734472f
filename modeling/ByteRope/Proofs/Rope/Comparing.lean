import ByteRope.Proofs.Rope.Reading
import ByteRope.Rope.Equality

/-!
# Comparing ropes

Reading two ropes side by side finds out whether their octets are the same (`Stream.agree_eq`), so
two ropes are equal if they have one encoding and one content (`Rope.equal_eq`). That the short cut
over digests agrees rests on digests being remembered of the content alone.
-/

namespace ByteRope

variable {c : Census}

namespace Stream

/-- The stretch lies within its buffer, and the walk within nodes in use. -/
structure Fits (c : Census) (stream : Stream) : Prop where
  chunk : stream.chunk.start + stream.chunk.len ≤ stream.chunk.buffer.size
  cursor : stream.cursor.Fits c

/-- The octets still to be read. -/
def octets (stream : Stream) : List UInt8 := stream.chunk.bytes.toList ++ stream.cursor.octets

variable {stream left right : Stream}

theorem refill_eq (h : stream.Fits c) :
    ∃ full, stream.refill c.store = .ok full ∧ full.Fits c ∧ full.octets = stream.octets ∧
      (full.chunk.len = 0 → full.octets = []) := by
  unfold refill
  split
  next hzero =>
    have hnone : stream.octets = stream.cursor.octets := by
      rw [octets, Chunk.toList_bytes, hzero, List.take_zero, List.nil_append]
    rcases Cursor.next?_cases h.cursor with
      ⟨hend, hoctets⟩ | ⟨chunk, rest, hnext, hwf, hrest, hoctets⟩
    · rw [hend]
      refine ⟨_, rfl, ⟨Nat.le_refl 0, Cursor.fits_nil⟩, ?_, fun _ => rfl⟩
      rw [hnone, hoctets]
      rfl
    · rw [hnext]
      refine ⟨_, rfl, ⟨hwf.le_size, hrest⟩, ?_, fun hlen => ?_⟩
      · rw [hnone, hoctets]
        rfl
      · exact absurd hlen (Nat.ne_of_gt hwf.pos)
  next hpos => exact ⟨_, rfl, h, rfl, fun hlen => absurd hlen hpos⟩

theorem length_chunk (h : stream.Fits c) :
    stream.chunk.bytes.toList.length = stream.chunk.len := Chunk.length_bytes h.chunk

theorem length_take {count : Nat} (h : stream.Fits c) (hcount : count ≤ stream.chunk.len) :
    (stream.chunk.take count).bytes.toList.length = count := by
  have := h.chunk
  rw [Chunk.toList_bytes, List.length_take, List.length_drop, Array.length_toList, Chunk.take]
  dsimp only
  omega

theorem fits_drop {count : Nat} (h : stream.Fits c) (hcount : count ≤ stream.chunk.len) :
    (stream.drop count).Fits c := by
  have := h.chunk
  refine ⟨?_, h.cursor⟩
  dsimp only [drop, Chunk.drop]
  omega

theorem octets_drop (stream : Stream) (count : Nat) :
    (stream.chunk.take count).bytes.toList ++ (stream.drop count).octets = stream.octets := by
  have hsplit := List.take_append_drop count
    ((stream.chunk.buffer.toList.drop stream.chunk.start).take stream.chunk.len)
  rw [List.take_take, List.drop_take, List.drop_drop] at hsplit
  rw [octets, octets, ← List.append_assoc]
  congr 1
  rw [Chunk.toList_bytes, Chunk.toList_bytes, Chunk.toList_bytes, ← hsplit]
  rfl

theorem octets_eq_nil_iff (h : stream.Fits c) (hnil : stream.chunk.len = 0 → stream.octets = []) :
    stream.octets = [] ↔ stream.chunk.len = 0 := by
  refine ⟨fun hoctets => ?_, hnil⟩
  rw [← length_chunk h, (List.append_eq_nil_iff.mp hoctets).1]
  rfl

theorem of_refill {full : Stream} (h : stream.Fits c) (hrefill : stream.refill c.store = .ok full) :
    full.Fits c ∧ full.octets = stream.octets ∧ (full.octets = [] ↔ full.chunk.len = 0) := by
  obtain ⟨_, hok, hfits, hoctets, hnil⟩ := refill_eq h
  rw [hrefill] at hok
  cases hok
  exact ⟨hfits, hoctets, octets_eq_nil_iff hfits hnil⟩

/-- Reading side by side tells whether the octets are the same. -/
theorem agree_eq (hl : left.Fits c) (hr : right.Fits c) :
    agree c.store left right = .ok (decide (left.octets = right.octets)) := by
  fun_induction agree c.store left right with
  | case1 left right fault hfault =>
    obtain ⟨_, hok, -⟩ := refill_eq hl
    rw [hfault] at hok
    cases hok
  | case2 left right fault hfault =>
    obtain ⟨_, hok, -⟩ := refill_eq hr
    rw [hfault] at hok
    cases hok
  | case3 left right a b ha hb count hcount =>
    obtain ⟨-, haoctets, hanil⟩ := of_refill hl ha
    obtain ⟨-, hboctets, hbnil⟩ := of_refill hr hb
    have hone : a.chunk.len = 0 ∨ b.chunk.len = 0 := by omega
    rw [← haoctets, ← hboctets, ← Bool.decide_and]
    congr 1
    apply decide_eq_decide.mpr
    rw [← hanil, ← hbnil] at hone ⊢
    constructor
    · intro hresult
      obtain ⟨ha, hb⟩ := hresult
      rw [ha, hb]
    · rintro hsame
      rw [hsame, or_self] at hone
      exact ⟨hsame ▸ hone, hone⟩
  | case4 left right a b ha hb count hcount hsame ih =>
    obtain ⟨hafits, haoctets, -⟩ := of_refill hl ha
    obtain ⟨hbfits, hboctets, -⟩ := of_refill hr hb
    rw [ih (fits_drop hafits (Nat.min_le_left ..)) (fits_drop hbfits (Nat.min_le_right ..)),
      ← haoctets, ← hboctets, ← octets_drop a count, ← octets_drop b count, hsame]
    congr 1
    exact decide_eq_decide.mpr (List.append_right_inj _).symm
  | case5 left right a b ha hb count hcount hdiffer =>
    obtain ⟨hafits, haoctets, -⟩ := of_refill hl ha
    obtain ⟨hbfits, hboctets, -⟩ := of_refill hr hb
    rw [← haoctets, ← hboctets, ← octets_drop a count, ← octets_drop b count]
    congr 1
    refine (decide_eq_false fun hsame => hdiffer ?_).symm
    have hla := length_take hafits (Nat.min_le_left a.chunk.len b.chunk.len)
    have hlb := length_take hbfits (Nat.min_le_right a.chunk.len b.chunk.len)
    exact Array.toList_inj.mp (List.append_inj_left hsame (hla.trans hlb.symm))

/-- A stream about to read a whole rope. -/
def whole (rope : Rope) : Stream := ⟨.empty, [⟨rope, 0, rope.byteLen⟩]⟩

theorem fits_whole {rope : Rope} (h : c.live rope) : (whole rope).Fits c :=
  ⟨Nat.le_refl 0, Cursor.fits_singleton h (Nat.le_of_eq (Nat.zero_add _))⟩

theorem octets_whole {rope : Rope} (h : rope.WF) : (whole rope).octets = rope.content :=
  (Cursor.octets_singleton rope 0 rope.byteLen).trans h.stretch_all

end Stream

namespace Rope

variable {left right rope : Rope}

theorem digestsDiffer_false (hl : c.live left) (hr : c.live right)
    (hencoding : left.encoding = right.encoding) (hcontent : left.content = right.content) :
    digestsDiffer c.store left right = false := by
  unfold digestsDiffer
  split
  next a b ha hb =>
    rw [(c.digest hl ha).1, (c.digest hr hb).1, hencoding, hcontent]
    exact bne_self_eq_false _
  next => rfl

/-- What ropes share that are equal. -/
def key (rope : Rope) : Encoding × List UInt8 := (rope.encoding, rope.content)

theorem key_eq_iff {left right : Rope} :
    left.key = right.key ↔ left.encoding = right.encoding ∧ left.content = right.content :=
  Prod.ext_iff

/-- Two ropes are equal if they have one encoding and one content. -/
theorem equal_eq (hl : c.live left) (hr : c.live right) :
    left.equal right c.store =
      .ok (decide (left.encoding = right.encoding ∧ left.content = right.content)) c.store := by
  have hlwf := c.wf hl
  have hrwf := c.wf hr
  unfold equal
  simp only [RopeM.run_get_bind]
  split
  next hsame =>
    rw [c.unique hl hr (of_decide_eq_true hsame), decide_eq_true ⟨rfl, rfl⟩]
    rfl
  next =>
    split
    next hdiffer =>
      have hnot : ¬(left.encoding = right.encoding ∧ left.content = right.content) := by
        intro hresult
        obtain ⟨hencoding, hcontent⟩ := hresult
        rcases hdiffer with hne | hne
        · exact hne hencoding
        · exact hne (by rw [← hlwf.length_content, hcontent, hrwf.length_content])
      rw [decide_eq_false hnot]
      rfl
    next hsame =>
      obtain ⟨hencoding, hlen⟩ := not_or.mp hsame
      have hencoding := Decidable.not_not.mp hencoding
      split
      next hdigests =>
        have hnot : ¬(left.encoding = right.encoding ∧ left.content = right.content) := by
          intro hresult
          obtain ⟨-, hcontent⟩ := hresult
          rw [digestsDiffer_false hl hr hencoding hcontent] at hdigests
          cases hdigests
        rw [decide_eq_false hnot]
        rfl
      next =>
        simp only [RopeM.run_lift_bind, Cursor.ofRange_eq hlwf (Nat.le_of_eq (Nat.zero_add _)),
          Cursor.ofRange_eq hrwf (Nat.le_of_eq (Nat.zero_add _))]
        change (liftM (Stream.agree c.store (Stream.whole left) (Stream.whole right)) : RopeM Bool)
          c.store = _
        rw [Stream.agree_eq (Stream.fits_whole hl) (Stream.fits_whole hr),
          Stream.octets_whole hlwf, Stream.octets_whole hrwf]
        simp only [hencoding, true_and]
        rfl

/-! ## Digests -/

theorem wf_digest (h : c.live rope) :
    RopeM.WF c rope.digest
      (fun digest _ => digest = c.store.digestOf rope.encoding rope.content.toArray ∧
        rope.byteLen ≤ Size.maxBuffer)
      (RopeM.Overlong rope.byteLen) := by
  apply RopeM.WF.get
  split
  next digest hdigest => exact RopeM.WF.pure (c.digest h hdigest)
  next =>
    refine (wf_flatten h).bind fun bytes c' hle hbytes => RopeM.WF.get ?_
    have hdigest : c'.store.digestOf rope.encoding bytes =
        c'.store.digestOf rope.encoding rope.content.toArray := by
      rw [← hbytes.1, Array.toArray_toList]
    have hmax : rope.byteLen ≤ Size.maxBuffer := (c.wf h).size_of_heldBy hbytes ▸ hbytes.2
    refine RopeM.WF.memoize (hle.live h) hdigest hmax fun _ _ => RopeM.WF.pure ⟨?_, hmax⟩
    rw [hdigest, hle.digestOf]

/-- The digest of a rope that is not too long is that of its octets. -/
theorem outcome_digest (h : c.live rope) :
    rope.digest.outcome c.store =
      if rope.byteLen ≤ Size.maxBuffer then
        .ok (c.store.digestOf rope.encoding rope.content.toArray)
      else .error .capacityOverflow :=
  ((wf_digest h).faults fun _ hlong => ⟨hlong.1, Nat.not_le_of_lt hlong.2⟩).outcome_eq

end Rope

end ByteRope
