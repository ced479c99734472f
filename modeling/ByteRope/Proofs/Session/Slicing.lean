import ByteRope.Proofs.Rope.Nesting
import ByteRope.Proofs.Session.Reachable

/-!
# Slices in sessions

When the tags of a slice are those that a scan of the octets it shows would find, for ropes that
were made without tags or numbers from a caller (`Session.Reachable.slicesAs`); what a slice is made
of, for all ropes (`Session.Reachable.anchors`); and what becomes of slices of slices, where no
caller says tags of joins or views (`Session.Reachable.composes`).
-/

namespace ByteRope

variable {session : Session} {name : String} {rope slice : Rope} {offset len : Nat}

/-- The slice shows the stretch of the rope, and its tags are those of a scan of the stretch unless
it is a node under the rope with tags that are not exact. Such a node is marked broken, or it holds
ASCII octets as valid ones under ASCII-8BIT. -/
structure Rope.SlicesAs (rope : Rope) (offset len : Nat) (slice : Rope) : Prop where
  content_eq : slice.content = rope.stretch offset len
  encoding_eq : slice.encoding = rope.encoding
  scanned_iff :
    (slice.range = (rope.encoding.scan (rope.stretch offset len).toArray).range ∧
      slice.charLen = (rope.encoding.scan (rope.stretch offset len).toArray).charLen) ↔
      ∀ node, rope.Reuses offset len node → node.Exact
  reuses : ∀ node, rope.Reuses offset len node → slice = node ∧ node.Within rope ∧
    (node.Exact ∨ node.range = .broken ∨
      node.range = .valid ∧ node.encoding = .binary ∧ node.scanned.range = .asciiOnly ∧
        node.charLen = node.scanned.charLen)

/-- A slice of a part of a rope is made whatever the part is, and its tags are those of a scan
exactly if it is not a node that is there already and whose tags are not exact. -/
theorem Session.Reachable.slicesAs (h : session.Reachable Deed.Derived)
    (hget : session.ropes.get? name = some rope) (hr : offset + len ≤ rope.byteLen)
    (hproper : ¬(offset = 0 ∧ len = rope.byteLen)) :
    ∃ slice store, rope.slice offset len session.store = .ok slice store ∧
      rope.SlicesAs offset len slice := by
  obtain ⟨c, hholds⟩ := h.holds
  obtain ⟨hlive, hmade⟩ := hholds.ropes hget
  rw [hholds.store]
  have htag : ¬Deed.Derived .tag := id
  rcases (Rope.wf_slice_cut hlive hr hproper).outcome with
    ⟨slice, c', hrun, -, hcut⟩ | ⟨_, _, -, hfalse⟩
  · obtain ⟨-, -, -, -, -, hsliced⟩ := (Rope.wf_slice hlive).of_run hrun
    have hsound := hmade.induct (Rope.passes_soundTags htag)
    refine ⟨slice, c'.store, hrun, hsliced.content_eq hmade.wf, hsliced.encoding_eq, ?_,
      fun node hnode => ?_⟩
    · rw [← hcut.exact_iff hsliced hsound hmade.wf hr]
      have hscanned : slice.scanned = rope.encoding.scan (rope.stretch offset len).toArray := by
        rw [Rope.scanned, hsliced.encoding_eq, hsliced.content_eq hmade.wf]
      rw [← hscanned]
      exact ⟨fun h => ⟨h.1, h.2⟩, fun h => ⟨h.range_eq, h.charLen_eq⟩⟩
    · have hn := hnode.within hmade.wf hr
      refine ⟨?_, hn, ?_⟩
      · cases hcut with
        | empty hzero => exact absurd hzero hnode.len_ne
        | node hreuse => exact hnode.eq hreuse
        | view _ hnone => exact absurd hnode (hnone node)
      · exact (hmade.forall_within (Rope.passes_soundTags htag) hn).exact_cases
          (hmade.wf.of_within hn) (hmade.forall_within Rope.passes_properlyValid hn)
          hnode.isResolved
  · exact hfalse.elim

/-- The two octets of a character from two leaves are a broken join of two characters. As a slice of
a longer rope that was resolved they stay that join, though they scan as one character. -/
theorem slicesAs_halves :
    ∃ (session : Session) (rope slice : Rope) (store : Store), session.Reachable Deed.Derived ∧
      session.ropes.get? "r" = some rope ∧ 0 + 2 ≤ rope.byteLen ∧
      ¬(0 = 0 ∧ 2 = rope.byteLen) ∧ rope.slice 0 2 session.store = .ok slice store ∧
      rope.SlicesAs 0 2 slice ∧ rope.range = .valid ∧ slice.range = .broken ∧ slice.charLen = 2 ∧
      rope.encoding.scan (rope.stretch 0 2).toArray = ⟨.valid, 1⟩ := by
  let session : Session := Session.empty.performAll [
    .make (.bytes #[0xC3] .utf8) (some "a"), .make (.bytes #[0xA9] .utf8) (some "b"),
    .make (.concat "a" "b" .standard) (some "ab"), .make (.text "!") (some "c"),
    .make (.concat "ab" "c" .standard) (some "r"), .make (.resolve "r") (some "r")]
  have h : session.Reachable Deed.Derived :=
    Session.Reachable.empty.performAll (by simp [Command.deeds, Recipe.deeds, Deed.Derived])
  have hends : (session.ropes.get? "r").map (fun rope =>
      (rope.byteLen, rope.range, rope.encoding.scan (rope.stretch 0 2).toArray,
        ((rope.slice 0 2).outcome session.store).map fun slice => (slice.range, slice.charLen))) =
      some (3, .valid, ⟨.valid, 1⟩, .ok (.broken, 2)) := by
    decide +kernel
  obtain ⟨rope, hget, hends⟩ := Option.map_eq_some_iff.mp hends
  obtain ⟨hlen, hrange, hscan, hslice⟩ := by simpa only [Prod.mk.injEq] using hends
  have hr : 0 + 2 ≤ rope.byteLen := by rw [hlen]; decide
  have hproper : ¬(0 = 0 ∧ 2 = rope.byteLen) := by rw [hlen]; decide
  obtain ⟨slice, store, hrun, hslices⟩ := h.slicesAs hget hr hproper
  rw [RopeM.outcome, hrun] at hslice
  obtain ⟨hbroken, hchars⟩ := Prod.mk.inj (Except.ok.inj hslice)
  exact ⟨session, rope, slice, store, h, hget, hr, hproper, hrun, hslices, hrange, hbroken, hchars,
    hscan⟩

/-! ## Where slices are anchored -/

/-- The slice shows the stretch of the rope under the encoding of the rope. It is the rope itself,
an empty leaf, a node under the rope, or a view of the smallest node that covers the range; a view
is new, since no node under the rope has its name. The slice is deeper than the rope by one at most,
and no deeper than a rope that is a view. -/
structure Rope.Anchors (rope : Rope) (offset len : Nat) (store : Store) (slice : Rope) : Prop where
  content_eq : slice.content = rope.stretch offset len
  encoding_eq : slice.encoding = rope.encoding
  anchored : rope.Anchored offset len store slice
  named : ∀ node : Rope, node.Within rope → node.id < store.cells.size
  depth_le : slice.depth ≤ rope.depth + 1
  depth_le_of_view : rope.isView = true → slice.depth ≤ rope.depth

/-- A slice is made of every range that a rope has, and copies nothing. -/
theorem Session.Reachable.anchors {may : Deed → Prop} (h : session.Reachable may)
    (hget : session.ropes.get? name = some rope) (hr : offset + len ≤ rope.byteLen) :
    ∃ slice store, rope.slice offset len session.store = .ok slice store ∧
      rope.Anchors offset len session.store slice := by
  obtain ⟨c, hholds⟩ := h.holds
  obtain ⟨hlive, hmade⟩ := hholds.ropes hget
  rw [hholds.store]
  obtain ⟨slice, store, hrun, hanchored⟩ := Rope.slice_anchored hlive hr
  obtain ⟨-, -, -, -, -, hsliced⟩ := (Rope.wf_slice hlive).of_run hrun
  exact ⟨slice, store, hrun, hsliced.content_eq hmade.wf, hsliced.encoding_eq, hanchored,
    fun node hn => c.named (c.live_of_within hlive hn), hanchored.depth_le hmade.wf,
    hanchored.depth_le_of_view hmade.wf⟩

/-- The left side of a join that was retagged is a new view of its leaf, since the leaf kept its
encoding, and a slice of that view is a view of the leaf again. -/
theorem anchors_octets :
    ∃ (session : Session) (rope slice : Rope) (store : Store), session.Reachable (fun _ => True) ∧
      session.ropes.get? "v" = some rope ∧ 1 + 2 ≤ rope.byteLen ∧
      rope.slice 1 2 session.store = .ok slice store ∧
      rope.Anchors 1 2 session.store slice ∧ rope.isView = true ∧ slice.isView = true ∧
      slice.depth = rope.depth ∧ slice.encoding = .binary := by
  let session : Session := Session.empty.performAll [
    .make (.text "hé") (some "a"), .make (.text "llo") (some "b"),
    .make (.concat "a" "b" .standard) (some "ab"), .make (.toBinary "ab") (some "r"),
    .ask (.flatten "r"), .make (.slice "r" 0 3) (some "v")]
  have h : session.Reachable (fun _ => True) :=
    Session.Reachable.empty.performAll fun _ _ _ _ => trivial
  have hends : (session.ropes.get? "v").map (fun rope => (rope.byteLen, rope.encoding,
      ((rope.slice 1 2).outcome session.store).map fun slice =>
        (rope.isView && slice.isView, decide (slice.depth = rope.depth)))) =
      some (3, .binary, .ok (true, true)) := by
    decide +kernel
  obtain ⟨rope, hget, hends⟩ := Option.map_eq_some_iff.mp hends
  obtain ⟨hlen, hencoding, hslice⟩ := by simpa only [Prod.mk.injEq] using hends
  have hr : 1 + 2 ≤ rope.byteLen := Nat.le_of_eq hlen.symm
  obtain ⟨slice, store, hrun, hanchors⟩ := h.anchors hget hr
  rw [RopeM.outcome, hrun] at hslice
  obtain ⟨hviews, hdepth⟩ := Prod.mk.inj (Except.ok.inj hslice)
  obtain ⟨hview, hviewed⟩ := Bool.and_eq_true_iff.mp hviews
  exact ⟨session, rope, slice, store, h, hget, hr, hrun, hanchors, hview, hviewed,
    of_decide_eq_true hdepth, hanchors.encoding_eq.trans hencoding⟩

/-! ## Slices of slices -/

/-- A slice of a slice and the slice of the rope that shows the same octets differ in the names of
their roots at most, and so do any number of nested slices and one. None of them is deeper than the
rope by more than one. -/
structure Rope.Composes (rope : Rope) (store : Store) : Prop where
  twice : ∀ {offset len inner len' : Nat}, offset + len ≤ rope.byteLen → inner + len' ≤ len →
    ∃ outer store₁ slice store₂ direct store₃, rope.slice offset len store = .ok outer store₁ ∧
      outer.slice inner len' store₁ = .ok slice store₂ ∧
      rope.slice (offset + inner) len' store₂ = .ok direct store₃ ∧ slice.Resembles direct
  chain : ∀ {ranges : List (Nat × Nat)}, Nested rope.byteLen ranges →
    ∃ slice store₁ direct store₂, rope.slices ranges store = .ok slice store₁ ∧
      rope.slice (innermost (0, rope.byteLen) ranges).1 (innermost (0, rope.byteLen) ranges).2
        store₁ = .ok direct store₂ ∧
      slice.Resembles direct ∧ slice.depth ≤ rope.depth + 1

theorem Rope.composes_of_live {may : Deed → Prop} {c : Census} (hlive : c.live rope)
    (hmade : rope.Made may) (hslice : may .slice) (htag : ¬may .tag) : rope.Composes c.store := by
  have hwf := hmade.wf
  constructor
  case twice =>
    intro offset len inner len' hr hr'
    obtain ⟨outer, c₁, hrun₁, hle₁, houter, h₁⟩ := exists_slice hlive hr
    obtain ⟨slice, c₂, hrun₂, hle₂, -, h₂⟩ := exists_slice houter (h₁.byteLen_eq ▸ hr')
    have hr₃ : offset + inner + len' ≤ rope.byteLen := by omega
    obtain ⟨direct, c₃, hrun₃, -, -, h₃⟩ := exists_slice (hle₂.live (hle₁.live hlive)) hr₃
    have houter : outer.Made may := .sliced hslice hmade hr (h₁.sliced hwf hr)
    have hsound := passes_soundTags htag
    obtain ⟨_, hnested⟩ := h₁.trans h₂ hwf (hmade.induct hsound) (houter.induct hsound) hr hr'
    exact ⟨outer, _, slice, _, direct, _, hrun₁, hrun₂, hrun₃, hnested.resembles h₃⟩
  case chain =>
    intro ranges hranges
    have hall : Anchored rope 0 rope.byteLen c.store rope := .whole ⟨rfl, rfl⟩
    have hle : 0 + rope.byteLen ≤ rope.byteLen := Nat.le_of_eq (Nat.zero_add _)
    obtain ⟨slice, c₁, hrun₁, hle₁, _, hinner⟩ :=
      exists_slices hmade hslice htag hlive hall hle hranges
    have hr := Nat.le_trans (@innermost_le _ (0, rope.byteLen) hranges) hle
    obtain ⟨direct, c₂, hrun₂, -, -, h₂⟩ := exists_slice (hle₁.live hlive) hr
    exact ⟨slice, _, direct, _, hrun₁, hrun₂, hinner.resembles h₂, hinner.depth_le hwf⟩

/-- Slicing composes as long as no caller gives tags to joins or views. -/
theorem Session.Reachable.composes (h : session.Reachable (· ≠ .tag))
    (hget : session.ropes.get? name = some rope) : rope.Composes session.store := by
  obtain ⟨c, hholds⟩ := h.holds
  obtain ⟨hlive, hmade⟩ := hholds.ropes hget
  rw [hholds.store]
  exact Rope.composes_of_live hlive hmade nofun fun hne => hne rfl

/-- The second to the sixth octet of a retagged join, of these the second and the third, and of
these the first: the slices are views of the join, of the join again, and of its left leaf. -/
theorem composes_octets :
    ∃ (session : Session) (rope slice direct : Rope) (store₁ store₂ : Store),
      session.Reachable (· ≠ .tag) ∧ session.ropes.get? "r" = some rope ∧
      rope.Composes session.store ∧
      rope.slices [(1, 5), (1, 2), (0, 1)] session.store = .ok slice store₁ ∧
      rope.slice 2 1 store₁ = .ok direct store₂ ∧ slice.Resembles direct ∧
      slice.shape = "substring" ∧ slice.offset? = some 2 ∧ slice.depth = 1 ∧ rope.depth = 1 := by
  let session : Session := Session.empty.performAll [
    .make (.text "hé") (some "a"), .make (.text "llo") (some "b"),
    .make (.concat "a" "b" .standard) (some "ab"), .make (.toBinary "ab") (some "r")]
  have h : session.Reachable (· ≠ .tag) :=
    Session.Reachable.empty.performAll (by simp [Command.deeds, Recipe.deeds])
  have hends : (session.ropes.get? "r").map (fun rope => (rope.byteLen, rope.depth,
      ((rope.slices [(1, 5), (1, 2), (0, 1)]).outcome session.store).map fun slice =>
        (decide (slice.shape = "substring" ∧ slice.offset? = some 2), slice.depth))) =
      some (6, 1, .ok (true, 1)) := by
    decide +kernel
  obtain ⟨rope, hget, hends⟩ := Option.map_eq_some_iff.mp hends
  obtain ⟨hlen, hdepth, hslices⟩ := by simpa only [Prod.mk.injEq] using hends
  have hcomposes := h.composes hget
  have hranges : Rope.Nested rope.byteLen [(1, 5), (1, 2), (0, 1)] := by
    rw [hlen]
    exact ⟨Nat.le_refl _, by decide, by decide, trivial⟩
  obtain ⟨slice, store₁, direct, store₂, hrun₁, hrun₂, hresembles, -⟩ := hcomposes.chain hranges
  rw [RopeM.outcome, hrun₁] at hslices
  obtain ⟨hslice, hdepth'⟩ := Prod.mk.inj (Except.ok.inj hslices)
  obtain ⟨hshape, hoffset⟩ := of_decide_eq_true hslice
  exact ⟨session, rope, slice, direct, store₁, store₂, h, hget, hcomposes, hrun₁, hrun₂,
    hresembles, hshape, hoffset, hdepth', hdepth⟩

end ByteRope
