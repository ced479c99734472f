import ByteRope.Proofs.Builder.Whole
import ByteRope.Proofs.Session.Balancing
import ByteRope.Proofs.Rope.Soundness

/-!
# Building in sessions

What two builders make of the same ropes of a session if they differ in nothing but their settings
(`Builder.Builds`). The settings never change the content. They change the encoding, and with it
what the new ropes are equal to, if a piece that is not ASCII only is under an encoding that is not
ASCII compatible and the pieces before it are under different encodings.
-/

namespace ByteRope

open Builder (builtEncoding foldedEncoding Suitable Uniform)

variable {c : Census} {session : Session} {encoding : Encoding} {config config' : Config}
  {pieces : List Rope} {rope rope' : Rope} {store store' : Store}

/-- What two builders make of the pieces, beside the pieces one after another. -/
structure Builder.Builds (encoding : Encoding) (config config' : Config) (pieces : List Rope)
    (rope rope' : Rope) (store : Store) : Prop where
  content_eq : rope.content = pieces.flatMap Rope.content
  content_eq' : rope'.content = pieces.flatMap Rope.content
  encoding_eq : rope.encoding = builtEncoding encoding config pieces
  encoding_eq' : rope'.encoding = builtEncoding encoding config' pieces
  equal : rope.equal rope' store = .ok (decide (rope.encoding = rope'.encoding)) store
  fold : ∀ policy folded store', Rope.fold encoding policy pieces store = .ok folded store' →
    folded.content = pieces.flatMap Rope.content ∧
      folded.encoding = foldedEncoding encoding pieces
  uniform : (rope.encoding = foldedEncoding encoding pieces ∧
      rope'.encoding = foldedEncoding encoding pieces) ↔
    Uniform encoding config pieces ∧ Uniform encoding config' pieces

/-! ## Builders -/

theorem Builder.builds_of_live {P : Rope → Prop} (hP : Rope.Family P)
    (hwf : ∀ rope, P rope → rope.WF) (hempty : ∀ rope, Rope.Scanned encoding #[] rope → P rope)
    (hpieces : ∀ piece ∈ pieces, c.live piece ∧ P piece)
    (hsuitable : ∀ piece ∈ pieces, Suitable piece)
    (hbuilt : Builder.ofPieces encoding config pieces c.store = .ok rope store)
    (hbuilt' : Builder.ofPieces encoding config' pieces store = .ok rope' store') :
    Builder.Builds encoding config config' pieces rope rope' store' := by
  obtain ⟨c₁, rfl, hle₁, hlive, _, hgrown, hrope⟩ := (wf_ofPieces hP hempty hpieces).of_run hbuilt
  have hpieces := live_mono hle₁ hpieces
  obtain ⟨c₂, rfl, hle₂, hlive', _, hgrown', hrope'⟩ :=
    (wf_ofPieces hP hempty hpieces).of_run hbuilt'
  have hpieces := live_mono hle₂ hpieces
  obtain ⟨hcontent, hencoding⟩ := hgrown.built hwf hsuitable hrope
  obtain ⟨hcontent', hencoding'⟩ := hgrown'.built hwf hsuitable hrope'
  refine ⟨hcontent, hcontent', hencoding, hencoding', ?_, ?_, ?_⟩
  · rw [Rope.equal_eq (hle₂.live hlive) hlive']
    simp only [hcontent, hcontent', and_true]
  · intro policy folded store'' hfolded
    obtain ⟨-, -, -, -, hfolds⟩ := (wf_fold fun piece hmem => (hpieces piece hmem).1).of_run hfolded
    exact hfolds.eq hsuitable
  · rw [hencoding, hencoding', builtEncoding_eq_folded_iff hsuitable,
      builtEncoding_eq_folded_iff hsuitable]

/-! ## Sessions -/

theorem Session.Holds.named {may : Deed → Prop} (h : session.Holds may c)
    (hpieces : ∀ piece ∈ pieces, ∃ name, session.ropes.get? name = some piece) :
    ∀ piece ∈ pieces, c.live piece ∧ piece.Made (Deed.Building may) := by
  intro piece hmem
  obtain ⟨_, hget⟩ := hpieces piece hmem
  exact ⟨(h.ropes hget).1, (h.ropes hget).2.building⟩

/-- Two builders one after the other that leave the trees as they are both end with a rope. -/
theorem Session.Reachable.ofPieces_twice (h : session.Reachable Deed.Plain)
    (hencoding : Deed.Plain (.scan encoding))
    (hpieces : ∀ piece ∈ pieces, ∃ name, session.ropes.get? name = some piece)
    (hmax : (pieces.map Rope.byteLen).sum ≤ Size.max) (hsteady : Builder.Steady config pieces)
    (hsteady' : Builder.Steady config' pieces) :
    ∃ (rope rope' : Rope) (store store' : Store),
      Builder.ofPieces encoding config pieces session.store = .ok rope store ∧
      Builder.ofPieces encoding config' pieces store = .ok rope' store' := by
  obtain ⟨c, hholds⟩ := h.holds
  have hmade := hholds.named hpieces
  have hrun {c : Census} {config : Config} (hsteady : Builder.Steady config pieces)
      (hmade : ∀ piece ∈ pieces, c.live piece ∧ piece.Made (Deed.Building Deed.Plain)) :
      ∃ (rope : Rope) (c' : Census), c ≤ c' ∧
        Builder.ofPieces encoding config pieces c.store = .ok rope c'.store :=
    Builder.run_ofPieces Rope.Made.family_building Deed.sparing_building
      (fun _ hscanned => .scanned (.inl hencoding) hscanned) hmade hmax hsteady
  obtain ⟨rope, c₁, hle, hbuilt⟩ := hrun hsteady hmade
  obtain ⟨rope', c₂, -, hbuilt'⟩ := hrun hsteady' (Builder.live_mono hle hmade)
  exact ⟨rope, rope', c₁.store, c₂.store, hholds.store ▸ hbuilt, hbuilt'⟩

/-- Two letters under UTF-8, one under ISO-8859-1 and one under UTF-16LE. -/
theorem Session.exists_mixed :
    ∃ (session : Session) (a l u : Rope), session.Reachable Deed.Plain ∧
      (∀ piece ∈ [a, a, l, u], ∃ name, session.ropes.get? name = some piece) ∧
      Rope.Scanned .utf8 #[97] a ∧ Rope.Scanned .latin1 #[98] l ∧
      Rope.Scanned .utf16le #[99, 0] u := by
  have hone (byte : UInt8) : (#[byte] : Bytes).size ≤ Size.maxBuffer :=
    show 1 ≤ Size.maxBuffer by decide
  have htwo : (#[99, 0] : Bytes).size ≤ Size.maxBuffer := by decide
  have hempty : Session.empty.Reachable Deed.Plain := .empty
  obtain ⟨s₁, a, h₁, hs₁, ha⟩ := hempty.scan .utf8 trivial (hone 97) "a"
  obtain ⟨s₂, l, h₂, hs₂, hl⟩ := h₁.scan .latin1 trivial (hone 98) "l"
  obtain ⟨s, u, h, hs, hu⟩ := h₂.scan .utf16le trivial htwo "u"
  have hgeta : s.ropes.get? "a" = some a := by
    rw [hs, Registers.get?_set_of_ne _ (by decide), hs₂, Registers.get?_set_of_ne _ (by decide),
      hs₁, Registers.get?_set_self]
  have hgetl : s.ropes.get? "l" = some l := by
    rw [hs, Registers.get?_set_of_ne _ (by decide), hs₂, Registers.get?_set_self]
  have hgetu : s.ropes.get? "u" = some u := by rw [hs, Registers.get?_set_self]
  refine ⟨s, a, l, u, h, ?_, ha, hl, hu⟩
  rintro _ (_ | ⟨_, _ | ⟨_, _ | ⟨_, _ | ⟨_, ⟨⟩⟩⟩⟩⟩)
  exacts [⟨_, hgeta⟩, ⟨_, hgeta⟩, ⟨_, hgetl⟩, ⟨_, hgetu⟩]

theorem Builder.ofRope_mixed {a l u : Rope} (ha : Rope.Scanned .utf8 #[97] a)
    (hl : Rope.Scanned .latin1 #[98] l) (hu : Rope.Scanned .utf16le #[99, 0] u) :
    [a, a, l, u].map Group.ofRope =
      [⟨.utf8, true, [97]⟩, ⟨.utf8, true, [97]⟩, ⟨.latin1, true, [98]⟩,
        ⟨.utf16le, false, [99, 0]⟩] := by
  have hasciia : Bytes.isAscii #[97] = true := Bytes.isAscii_iff.mpr (by simp)
  have hasciil : Bytes.isAscii #[98] = true := Bytes.isAscii_iff.mpr (by simp)
  simp only [List.map_cons, List.map_nil, Group.ofRope_scanned ha, Group.ofRope_scanned hl,
    Group.ofRope_scanned hu, hasciia, hasciil]
  rfl

/-- Builders that differ in nothing but their settings make ropes of the same content out of ropes
of resolved ranges. The ropes are equal if their encodings are, and these are the encoding of the
pieces one after another if the groups of the pieces are uniform. -/
theorem Session.Reachable.builds (h : session.Reachable (· ≠ .tag))
    (hpieces : ∀ piece ∈ pieces, (∃ name, session.ropes.get? name = some piece) ∧
      piece.range.isResolved = true)
    (hbuilt : Builder.ofPieces encoding config pieces session.store = .ok rope store)
    (hbuilt' : Builder.ofPieces encoding config' pieces store = .ok rope' store') :
    Builder.Builds encoding config config' pieces rope rope' store' := by
  obtain ⟨c, hholds⟩ := h.holds
  have hmade := hholds.named fun piece hmem => (hpieces piece hmem).1
  have hempty (rope : Rope) (h : Rope.Scanned encoding #[] rope) :
      rope.Made (Deed.Building (· ≠ .tag)) := .scanned (.inl nofun) h
  refine Builder.builds_of_live Rope.Made.family_building (fun _ h => h.wf) hempty hmade ?_
    (hholds.store ▸ hbuilt) hbuilt'
  intro piece hmem
  have htag : ¬Deed.Building (· ≠ .tag) .tag := by simp [Deed.Building]
  have hsound := (hmade piece hmem).2.induct (Rope.passes_soundTags htag)
  refine ⟨(hmade piece hmem).2.wf, fun hunknown => ?_, fun hascii => (hsound.ascii hascii).1⟩
  have hresolved := (hpieces piece hmem).2
  rw [hunknown] at hresolved
  cases hresolved

theorem builds_mixed :
    ∃ (session : Session) (pieces : List Rope) (rope rope' : Rope) (store store' : Store),
      session.Reachable (· ≠ .tag) ∧
      (∀ piece ∈ pieces, (∃ name, session.ropes.get? name = some piece) ∧
        piece.range.isResolved = true) ∧
      Builder.ofPieces .utf8 {} pieces session.store = .ok rope store ∧
      Builder.ofPieces .utf8 { smallConcatBytes := 2 } pieces store = .ok rope' store' ∧
      Builder.Builds .utf8 {} { smallConcatBytes := 2 } pieces rope rope' store' ∧
      rope.encoding = .latin1 ∧ rope'.encoding = .utf8 ∧ foldedEncoding .utf8 pieces = .utf8 ∧
      rope.equal rope' store' = .ok false store' := by
  obtain ⟨s, a, l, u, h, hget, ha, hl, hu⟩ := Session.exists_mixed
  have hscanned : ∀ piece ∈ [a, a, l, u], ∃ encoding bytes, Rope.Scanned encoding bytes piece := by
    rintro _ (_ | ⟨_, _ | ⟨_, _ | ⟨_, _ | ⟨_, ⟨⟩⟩⟩⟩⟩)
    exacts [⟨_, _, ha⟩, ⟨_, _, ha⟩, ⟨_, _, hl⟩, ⟨_, _, hu⟩]
  have hmax : ([a, a, l, u].map Rope.byteLen).sum ≤ Size.max := by
    cases ha; cases hl; cases hu
    exact (by decide : 1 + (1 + (1 + (2 + 0))) ≤ Size.max)
  have hgroups := Builder.ofRope_mixed ha hl hu
  have hsteady : Builder.Steady {} [a, a, l, u] := .of_scanned nofun (Nat.zero_le _) hscanned
  have hsteady' : Builder.Steady { smallConcatBytes := 2 } [a, a, l, u] :=
    .of_scanned nofun (by decide) hscanned
  have hencoding : Deed.Plain (.scan .utf8) := trivial
  obtain ⟨rope, rope', store, store', hbuilt, hbuilt'⟩ :=
    h.ofPieces_twice hencoding hget hmax hsteady hsteady'
  have hreach : s.Reachable (· ≠ .tag) := h.mono (by rintro deed hdeed rfl; exact hdeed)
  have hall : ∀ piece ∈ [a, a, l, u], (∃ name, s.ropes.get? name = some piece) ∧
      piece.range.isResolved = true := by
    intro piece hmem
    obtain ⟨_, _, hscanned⟩ := hscanned piece hmem
    exact ⟨hget piece hmem, hscanned.isResolved⟩
  have hbuilds := hreach.builds hall hbuilt hbuilt'
  have hencoding : rope.encoding = .latin1 := by
    rw [hbuilds.encoding_eq, builtEncoding, Builder.groups, hgroups]
    rfl
  have hencoding' : rope'.encoding = .utf8 := by
    rw [hbuilds.encoding_eq', builtEncoding, Builder.groups, hgroups]
    rfl
  have hfolded : foldedEncoding .utf8 [a, a, l, u] = .utf8 := by
    rw [foldedEncoding, hgroups]
    rfl
  refine ⟨s, _, rope, rope', store, store', hreach, hall, hbuilt, hbuilt', hbuilds, hencoding,
    hencoding', hfolded, ?_⟩
  rw [hbuilds.equal, hencoding, hencoding']
  rfl

end ByteRope
