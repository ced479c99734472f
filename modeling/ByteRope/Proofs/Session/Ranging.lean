import ByteRope.Proofs.Session.Reads

/-!
# Ranges in sessions

Every operation on an octet or a stretch of a rope checks its range once, before it does anything,
and no walk under the rope checks again. In every reachable session the check is exact
(`Session.Reachable.checksRanges`): what lies within the rope is answered without a fault, also at
the largest size, and what does not is refused with the values given and leaves the store and the
buffer to be filled as they were.
-/

namespace ByteRope

variable {may : Deed → Prop} {c : Census} {session : Session} {name : String} {rope : Rope}
  {store : Store} {offset len : Nat}

namespace Rope

/-- An octet within the rope is found, and no other. -/
structure ChecksIndex (rope : Rope) (store : Store) (index : Nat) : Prop where
  byte? : ∃ octet?, rope.byte? index store = .ok octet? store ∧
    (octet?.isSome = true ↔ index < rope.byteLen)
  byteAt : index < rope.byteLen → ∃ octet, rope.byteAt index store = .ok octet store
  byteAt_fault : rope.byteLen ≤ index →
    rope.byteAt index store = .error (.refused (.indexOutOfBounds index rope.byteLen)) store

/-- The operations on a stretch end with it. A view has tags of the caller's choice, and may be
refused for those. -/
structure ServesRange (rope : Rope) (store : Store) (offset len : Nat) : Prop where
  walk : ∃ (cursor : Cursor) (chunks : List Chunk), Cursor.ofRange rope offset len = .ok cursor ∧
    (∀ chunk ∈ chunks, chunk.WF) ∧
    chunks.flatMap (fun chunk => chunk.bytes.toList) = rope.stretch offset len ∧
    ∀ {α : Type} (f : α → Chunk → α) (acc : α),
      cursor.fold store f acc = .ok (chunks.foldl f acc)
  copyInto : ∀ buffer : Bytes, buffer.size = len →
    rope.copyInto offset buffer store = .ok (.ok (), (rope.stretch offset len).toArray) store
  copyRange : rope.copyRange offset len store = .ok (.ok (rope.stretch offset len).toArray) store
  slice? : ∃ slice store', rope.slice? offset len store = .ok (.ok slice) store' ∧
    slice.content = rope.stretch offset len
  taggedView : ∀ tags : Tags,
    (∃ view store', rope.taggedView tags offset len store = .ok view store') ∨
      rope.taggedView tags offset len store = .error (.asciiLengths len tags.charLen) store

/-- The operations on a stretch refuse it, and change nothing. -/
structure RejectsRange (rope : Rope) (store : Store) (offset len : Nat) : Prop where
  copyInto : ∀ buffer : Bytes, buffer.size = len → rope.copyInto offset buffer store =
    .ok (.error (.rangeOutOfBounds offset len rope.byteLen), buffer) store
  copyRange : rope.copyRange offset len store =
    .ok (.error (.rangeOutOfBounds offset len rope.byteLen)) store
  slice? : rope.slice? offset len store =
    .ok (.error (.rangeOutOfBounds offset len rope.byteLen)) store
  taggedView : ∀ tags : Tags, rope.taggedView tags offset len store =
    .error (.refused (.rangeOutOfBounds offset len rope.byteLen)) store

theorem checksIndex_of_live (h : c.live rope) (index : Nat) :
    rope.ChecksIndex c.store index := by
  have hlen := (c.wf h).length_content
  refine ⟨⟨_, byte?_eq h index, ?_⟩, fun hi => ?_, byteAt_of_le h⟩
  · rw [isSome_getElem?, hlen]
  · exact ⟨_, byteAt_eq h (List.getElem?_eq_getElem (hlen.symm ▸ hi))⟩

theorem taggedView_of_mismatch {tags : Tags} (hr : offset + len ≤ rope.byteLen)
    (h : tags.range = .asciiOnly ∧ len ≠ tags.charLen) (store : Store) :
    rope.taggedView tags offset len store = .error (.asciiLengths len tags.charLen) store := by
  simp only [taggedView, checkRange, if_pos hr, newView, checkNode, if_pos h]
  rfl

theorem servesRange_of_live (h : c.live rope) (hr : offset + len ≤ rope.byteLen) :
    rope.ServesRange c.store offset len where
  walk := by
    obtain ⟨chunks, hall, hflat, hfold⟩ := Cursor.exists_chunks (Cursor.fits_singleton h hr)
    rw [Cursor.octets_singleton] at hflat
    exact ⟨_, chunks, Cursor.ofRange_eq (c.wf h) hr, hall, hflat, hfold⟩
  copyInto buffer hsize := by
    cases hsize
    exact copyInto_eq h hr
  copyRange := copyRange_eq h hr
  slice? := by
    rcases (wf_slice? h).outcome with ⟨result, c', hok, -, hslice, hrefused⟩ | ⟨_, _, -, hfalse⟩
    · cases result with
      | error refusal =>
        exact absurd hr (Nat.not_le_of_lt (hrefused refusal rfl).2)
      | ok slice =>
        obtain ⟨-, -, hsliced⟩ := hslice slice rfl
        exact ⟨slice, c'.store, hok, hsliced.content_eq (c.wf h)⟩
    · exact hfalse.elim
  taggedView tags := by
    by_cases hmismatch : tags.range = .asciiOnly ∧ len ≠ tags.charLen
    · exact .inr (taggedView_of_mismatch hr hmismatch _)
    · have hview : RopeM.WF c (rope.taggedView tags offset len) _ _ := wf_taggedView h
      rcases hview.outcome with
        ⟨view, c', hok, -⟩ | ⟨_, _, -, ⟨_, -, -, hlt⟩ | ⟨-, hascii, hne⟩⟩
      · exact .inl ⟨view, c'.store, hok⟩
      · exact absurd hr (Nat.not_le_of_lt hlt)
      · exact absurd ⟨hascii, hne.symm⟩ hmismatch

theorem rejectsRange_of_lt (hr : rope.byteLen < offset + len) (store : Store) :
    rope.RejectsRange store offset len where
  copyInto buffer hsize := by
    cases hsize
    exact copyInto_of_lt hr store
  copyRange := copyRange_of_lt hr store
  slice? := by
    simp only [Rope.slice?, checkRange, if_neg (Nat.not_le_of_lt hr)]
    rfl
  taggedView tags := by
    simp only [Rope.taggedView, checkRange, if_neg (Nat.not_le_of_lt hr)]
    rfl

end Rope

/-- In every reachable session the octets of a rope are those below its length, and its stretches
those that end at its length or before; all others are refused without a trace. The check of the sum
refuses no more than that, and the walks under the rope, which check no more, cut no difference
off. -/
theorem Session.Reachable.checksRanges (h : session.Reachable may)
    (hget : session.ropes.get? name = some rope) :
    (∀ index, rope.ChecksIndex session.store index) ∧
      (∀ offset len, offset + len ≤ rope.byteLen → rope.ServesRange session.store offset len) ∧
      (∀ offset len, rope.byteLen < offset + len → rope.RejectsRange session.store offset len) ∧
      (∀ offset len, rope.checkRange offset len =
        match Size.add offset len with
        | .ok stop =>
          if stop ≤ rope.byteLen then .ok ()
          else .error (.rangeOutOfBounds offset len rope.byteLen)
        | .error _ => .error (.rangeOutOfBounds offset len rope.byteLen)) ∧
      ∀ (left right : Rope) (offset len : Nat),
        ∀ part ∈ Frame.split left right offset (offset + len),
          part.Exact left right offset (offset + len) := by
  obtain ⟨c, hholds⟩ := h.holds
  have hlive := (hholds.ropes hget).1
  rw [hholds.store]
  refine ⟨Rope.checksIndex_of_live hlive, fun _ _ hr => ?_, fun _ _ hr => ?_, ?_, ?_⟩
  · exact Rope.servesRange_of_live hlive hr
  · exact Rope.rejectsRange_of_lt hr _
  · exact Rope.checkRange_eq_add (c.wf hlive).byteLen_le
  · exact fun _ _ _ _ _ => Frame.split_exact (Nat.le_add_right ..)

/-! ## The largest rope -/

/-- Doubling and an octet more, again and again. -/
theorem Session.exists_reachable_pred_pow (may : Deed → Prop) (hscan : may (.scan .binary))
    (hconcat : may .concat) (count : Nat) (hmax : 2 ^ (count + 1) - 1 ≤ Size.max) :
    ∃ (session : Session) (rope octet : Rope), session.Reachable may ∧
      session.ropes.get? "r" = some rope ∧ rope.byteLen = 2 ^ (count + 1) - 1 ∧
      rope.charLen = rope.byteLen ∧ session.ropes.get? "o" = some octet ∧ octet.byteLen = 1 ∧
      octet.charLen = octet.byteLen := by
  induction count with
  | zero =>
    have hsize : (#[0] : Bytes).size ≤ Size.maxBuffer := by decide
    have hempty : Session.empty.Reachable may := .empty
    obtain ⟨session, octet, hreach, hropes, hone⟩ := hempty.scan .binary hscan hsize "o"
    obtain ⟨session', rope, hreach', hropes', hrope⟩ := hreach.scan .binary hscan hsize "r"
    have hget : session'.ropes.get? "r" = some rope := hropes' ▸ Registers.get?_set_self ..
    have hoctet : session'.ropes.get? "o" = some octet := by
      rw [hropes', Registers.get?_set_of_ne _ (by decide), hropes, Registers.get?_set_self]
    cases hone
    cases hrope
    exact ⟨session', _, _, hreach', hget, rfl, rfl, hoctet, rfl, rfl⟩
  | succ count ih =>
    have hpos := Nat.two_pow_pos count
    rw [Nat.pow_succ] at hmax ⊢
    obtain ⟨session, rope, octet, hreach, hget, hlen, hchars, hoctet, hone, hones⟩ :=
      ih (by omega)
    obtain ⟨session₁, twice, hreach₁, hropes₁, hlen₁, hchars₁⟩ :=
      hreach.join hconcat hget hget (by omega) (by omega) hchars hchars (by omega) "r"
    have hget₁ : session₁.ropes.get? "r" = some twice := hropes₁ ▸ Registers.get?_set_self ..
    have hoctet₁ : session₁.ropes.get? "o" = some octet := by
      rw [hropes₁, Registers.get?_set_of_ne _ (by decide), hoctet]
    obtain ⟨session₂, next, hreach₂, hropes₂, hlen₂, hchars₂⟩ :=
      hreach₁.join hconcat hget₁ hoctet₁ (by omega) (by omega) hchars₁ hones (by omega) "r"
    refine ⟨session₂, next, octet, hreach₂, hropes₂ ▸ Registers.get?_set_self .., by omega, hchars₂,
      ?_, hone, hones⟩
    rw [hropes₂, Registers.get?_set_of_ne _ (by decide), hoctet₁]

/-- A rope of the largest size has a last octet, and none after it. -/
theorem checksRanges_largest :
    ∃ (session : Session) (rope : Rope), (session.Reachable fun _ => True) ∧
      session.ropes.get? "r" = some rope ∧ rope.byteLen = Size.max ∧
      (∃ octet, rope.byteAt (Size.max - 1) session.store = .ok octet session.store) ∧
      rope.ServesRange session.store (Size.max - 1) 1 ∧
      rope.RejectsRange session.store Size.max 1 := by
  obtain ⟨session, rope, -, hreach, hget, hlen, -⟩ :=
    Session.exists_reachable_pred_pow (fun _ => True) trivial trivial 63 (by decide)
  have hmax : rope.byteLen = Size.max := hlen
  obtain ⟨hindex, hserves, hrejects, -⟩ := hreach.checksRanges hget
  refine ⟨session, rope, hreach, hget, hmax, ?_, ?_, ?_⟩
  · exact (hindex (Size.max - 1)).byteAt (by rw [hmax]; decide)
  · exact hserves _ _ (by rw [hmax]; decide)
  · exact hrejects _ _ (by rw [hmax]; decide)

end ByteRope
