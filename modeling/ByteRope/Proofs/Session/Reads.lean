import ByteRope.Proofs.Session.Reachable

/-!
# Reads in sessions

All ways to the octets of a rope of a session agree with its content, whatever was made and asked
before, and so whichever nodes remember their content. Only for the whole content in one buffer can
a rope be too long.
-/

namespace ByteRope

variable {may : Deed → Prop} {session : Session} {name : String} {rope : Rope}

/-- How the reads of a rope agree with its content. -/
structure Rope.ReadsAs (rope : Rope) (store : Store) (content : List UInt8) : Prop where
  length : content.length = rope.byteLen
  flatten : rope.byteLen ≤ Size.maxBuffer →
    ∃ bytes store', rope.flatten store = .ok bytes store' ∧ bytes.toList = content
  overlong : Size.maxBuffer < rope.byteLen →
    ∃ store', rope.flatten store = .error .capacityOverflow store'
  raw : ∀ bytes, store.raw? rope = some bytes → bytes.toList = content
  chunks : ∃ chunks, rope.chunks store = .ok chunks store ∧
    chunks.toList.flatMap (fun chunk => chunk.bytes.toList) = content
  byteAt : ∀ index (h : index < content.length), rope.byteAt index store = .ok content[index] store
  byte? : ∀ index (h : index < content.length),
    rope.byte? index store = .ok (some content[index]) store
  copyInto : ∀ offset (buffer : Bytes), offset + buffer.size ≤ content.length →
    rope.copyInto offset buffer store =
      .ok (.ok (), ((content.drop offset).take buffer.size).toArray) store

theorem Rope.readsAs_of_live {c : Census} (h : c.live rope) :
    rope.ReadsAs c.store rope.content := by
  have hlen := (c.wf h).length_content
  have hflatten := (Rope.wf_flatten h).outcome
  refine ⟨hlen, fun hmax => ?_, fun hlong => ?_, fun bytes hraw => (c.raw h hraw).1, ?_,
    fun index hi => ?_, fun index hi => ?_, fun offset buffer hr => ?_⟩
  · rcases hflatten with ⟨bytes, c', hok, -, hheld⟩ | ⟨_, _, -, -, hlt⟩
    · exact ⟨bytes, c'.store, hok, hheld.1⟩
    · exact absurd hmax (Nat.not_le_of_lt hlt)
  · rcases hflatten with ⟨bytes, c', -, -, hheld⟩ | ⟨_, store, herror, rfl, -⟩
    · exact absurd hheld.2 (Nat.not_le_of_lt ((c.wf h).size_of_heldBy hheld ▸ hlong))
    · exact ⟨store, herror⟩
  · obtain ⟨chunks, hok, -, hcontent⟩ := Rope.chunks_eq h
    exact ⟨chunks, hok, hcontent⟩
  · exact Rope.byteAt_eq h (List.getElem?_eq_getElem hi)
  · rw [Rope.byte?_eq h, List.getElem?_eq_getElem hi]
  · exact Rope.copyInto_eq h (hlen ▸ hr)

/-- In every reachable session all reads of a rope agree with its content. -/
theorem Session.Reachable.readsAs (h : session.Reachable may)
    (hget : session.ropes.get? name = some rope) : rope.ReadsAs session.store rope.content := by
  obtain ⟨c, hholds⟩ := h.holds
  rw [hholds.store]
  exact Rope.readsAs_of_live (hholds.ropes hget).1

/-- A join of two letters that are one node, and a view from the middle of one letter to that of the
other, are put together after one another. The join under both has its content in one buffer, the
view and the whole have not: the whole is walked in two chunks, each out of that buffer. -/
theorem readsAs_shared :
    ∃ (session : Session) (letter inner view rope : Rope), (session.Reachable fun _ => True) ∧
      session.ropes.get? "r" = some rope ∧ session.ropes.get? "v" = some view ∧
      session.ropes.get? "d" = some inner ∧ rope.children = [inner, view] ∧
      view.children = [inner] ∧ inner.children = [letter, letter] ∧
      session.store.raw? inner = some #[0xc3, 0xa9, 0xc3, 0xa9] ∧
      session.store.raw? view = none ∧ session.store.raw? rope = none ∧
      (rope.chunks.outcome session.store).map Array.size = .ok 2 ∧
      rope.ReadsAs session.store [0xc3, 0xa9, 0xc3, 0xa9, 0xa9, 0xc3] ∧
      view.ReadsAs session.store [0xa9, 0xc3] ∧
      inner.ReadsAs session.store [0xc3, 0xa9, 0xc3, 0xa9] := by
  let letter : Rope := .leaf 0 .valid .utf8 1 #[0xc3, 0xa9]
  let inner : Rope := .join 1 ⟨.utf8, .valid, 2⟩ 4 1 true letter letter
  let view : Rope := .view 2 ⟨.utf8, .broken, 2⟩ 2 2 1 inner
  let rope : Rope := .join 3 ⟨.utf8, .broken, 4⟩ 6 3 true inner view
  let session : Session := Session.empty.performAll [
    .make (.text "é") (some "a"), .make (.concat "a" "a" .standard) (some "d"),
    .make (.slice "d" 1 2) (some "v"), .make (.concat "d" "v" .standard) (some "r"),
    .ask (.flatten "d")]
  have h : session.Reachable fun _ => True :=
    Session.Reachable.empty.performAll fun _ _ _ _ => trivial
  have hrope : session.ropes.get? "r" = some rope := by decide +kernel
  have hview : session.ropes.get? "v" = some view := by decide +kernel
  have hinner : session.ropes.get? "d" = some inner := by decide +kernel
  exact ⟨session, letter, inner, view, rope, h, hrope, hview, hinner, rfl, rfl, rfl,
    by decide +kernel, by decide +kernel, by decide +kernel, by decide +kernel, h.readsAs hrope,
    h.readsAs hview, h.readsAs hinner⟩

/-! ## Ropes too long for one buffer -/

/-- Ropes with a character for each octet can be put one after the other as long as the sum of their
lengths is a size. -/
theorem Session.Reachable.join (h : session.Reachable may) (hmay : may .concat)
    {other : String} {rope' : Rope} (hget : session.ropes.get? name = some rope)
    (hget' : session.ropes.get? other = some rope') (hpos : rope.byteLen ≠ 0)
    (hpos' : rope'.byteLen ≠ 0) (hchars : rope.charLen = rope.byteLen)
    (hchars' : rope'.charLen = rope'.byteLen) (hmax : rope.byteLen + rope'.byteLen ≤ Size.max)
    (target : String) :
    ∃ (session' : Session) (joined : Rope), session'.Reachable may ∧
      session'.ropes = session.ropes.set target joined ∧
      joined.byteLen = rope.byteLen + rope'.byteLen ∧ joined.charLen = joined.byteLen := by
  obtain ⟨session', joined, hreach, hropes, hjoined⟩ :=
    h.concat hmay hget hget' hmax (by rwa [hchars, hchars']) .standard target
  have hjoined := hjoined.joined hpos hpos'
  have hlen := Rope.adds_byteLen _ _ _ _ _ _ hjoined
  refine ⟨session', joined, hreach, hropes, hlen, ?_⟩
  rw [Rope.adds_charLen _ _ _ _ _ _ hjoined, hlen, hchars, hchars']

/-- A rope with a character for each octet can be put after itself as long as the length is a
size. -/
theorem Session.Reachable.double (h : session.Reachable may) (hmay : may .concat)
    (hget : session.ropes.get? name = some rope) (hpos : rope.byteLen ≠ 0)
    (hchars : rope.charLen = rope.byteLen) (hmax : rope.byteLen + rope.byteLen ≤ Size.max) :
    ∃ (session' : Session) (rope' : Rope), session'.Reachable may ∧
      session'.ropes.get? name = some rope' ∧ rope'.byteLen = rope.byteLen + rope.byteLen ∧
      rope'.charLen = rope'.byteLen := by
  obtain ⟨session', joined, hreach, hropes, hlens⟩ :=
    h.join hmay hget hget hpos hpos hchars hchars hmax name
  exact ⟨session', joined, hreach, hropes ▸ Registers.get?_set_self .., hlens⟩

/-- Ropes of every power of two that is a size are reached by doubling. -/
theorem Session.exists_reachable_pow (count : Nat) (hmax : 2 ^ count ≤ Size.max) :
    ∃ (session : Session) (rope : Rope), (session.Reachable fun _ => True) ∧
      session.ropes.get? "r" = some rope ∧ rope.byteLen = 2 ^ count ∧
      rope.charLen = rope.byteLen := by
  induction count with
  | zero =>
    have hsize : (#[0] : Bytes).size ≤ Size.maxBuffer := by decide
    have hempty : Session.empty.Reachable fun _ => True := .empty
    obtain ⟨session, rope, hreach, hropes, ⟨⟩⟩ :=
      hempty.scan .binary trivial hsize "r"
    exact ⟨session, _, hreach, hropes ▸ Registers.get?_set_self .., rfl, rfl⟩
  | succ count ih =>
    rw [Nat.pow_succ, Nat.mul_two] at hmax ⊢
    obtain ⟨session, rope, hreach, hget, hlen, hchars⟩ :=
      ih (Nat.le_trans (Nat.le_add_right ..) hmax)
    rw [← hlen] at hmax ⊢
    have hpos : rope.byteLen ≠ 0 := hlen ▸ Nat.ne_of_gt (Nat.two_pow_pos count)
    exact hreach.double trivial hget hpos hchars hmax

/-- Not every rope of a session can be had in one buffer: one of 2 ^ 63 octets is too long. -/
theorem not_forall_flatten :
    ¬∀ {session : Session}, (session.Reachable fun _ => True) → ∀ {name rope},
      session.ropes.get? name = some rope →
      ∃ bytes store, rope.flatten session.store = .ok bytes store ∧
        bytes.toList = rope.content := by
  intro hall
  obtain ⟨session, rope, hreach, hget, hlen, -⟩ := Session.exists_reachable_pow 63 (by decide)
  obtain ⟨bytes, store, hok, -⟩ := hall hreach hget
  obtain ⟨c, hholds⟩ := hreach.holds
  obtain ⟨c', -, hle, hheld⟩ :=
    (Rope.wf_flatten (hholds.ropes hget).1).of_run (hholds.store ▸ hok)
  have hwf := c'.wf (hle.live (hholds.ropes hget).1)
  have hsize := hwf.size_of_heldBy hheld
  rw [hlen] at hsize
  exact absurd (hsize ▸ hheld.2) (by decide)

end ByteRope
