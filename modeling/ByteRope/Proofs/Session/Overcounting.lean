import ByteRope.Proofs.Rope.Exactness
import ByteRope.Proofs.Rope.Resolving
import ByteRope.Proofs.Scanner.Seams
import ByteRope.Proofs.Session.Structure

/-!
# Characters of ropes under UTF-8

A join adds up the characters of its sides, so a character that is cut between them counts more than
once, up to four times. It never counts less: in sessions where ropes are made under UTF-8 alone and
no caller says tags or numbers of characters, every node has at least as many characters as a scan
of its content counts, and exactly as many where its range is good. Resolving takes away what is too
much (`Session.Reachable.overcounts`).
-/

namespace ByteRope

variable {c : Census} {session : Session}

/-- The deeds that make ropes under UTF-8, with no tags and no numbers from a caller. -/
def Deed.InUtf8 : Deed → Prop
  | scan encoding | claim encoding => encoding = .utf8
  | concat | slice | resolve | rebuild => True
  | count _ | transition | tag => False

namespace Rope

variable {rope : Rope}

/-! ## Nodes -/

/-- The rope is under UTF-8 and has no fewer characters than a scan of its content counts. -/
structure Ample (rope : Rope) : Prop where
  encoding_eq : rope.encoding = .utf8
  scan_le : (Encoding.utf8.scan rope.content.toArray).charLen ≤ rope.charLen

theorem Ample.of_scanned (hencoding : rope.encoding = .utf8)
    (hchars : rope.charLen = rope.scanned.charLen) : rope.Ample := by
  refine ⟨hencoding, ?_⟩
  rw [hchars, scanned, hencoding]

theorem Scanned.ample {bytes : Bytes} (h : Scanned .utf8 bytes rope) : rope.Ample :=
  .of_scanned (congrArg Tags.encoding h.tags_eq) h.charLen_eq_scanned

theorem Made.soundTags_inUtf8 (h : rope.Made Deed.InUtf8) : rope.SoundTags :=
  h.induct (passes_soundTags fun htag => htag)

theorem passes_ample : Made.Passes Deed.InUtf8 Ample where
  scanned hmay h := by
    cases hmay
    exact h.ample
  claimed hmay h := by
    have hmade := Made.claimed hmay h
    cases hmay
    apply Ample.of_scanned
    · cases h <;> rfl
    · apply hmade.soundTags_inUtf8.charLen_eq hmade.wf
      cases h <;> rfl
  counted hmay := hmay.elim
  concatenated {left right _ _} _ _ _ hl hr _ _ hjoined := by
    constructor
    · rw [hjoined.encoding_eq, joinedTags, hl.encoding_eq, hr.encoding_eq,
        Encoding.compatible_self]
    · rw [adds_content _ _ _ _ _ _ hjoined, adds_charLen _ _ _ _ _ _ hjoined,
        ← List.append_toArray]
      have hseam := Encoding.charLen_scan_append_le left.content.toArray right.content.toArray
      exact hseam.trans (Nat.add_le_add hl.scan_le hr.scan_le)
  sliced hmay hrope hample _ hrange _ _ hshows hshown := by
    have htags := hrope.soundTags_inUtf8.stretchTags_eq hrope.wf hrange
    cases hshown with
    | view =>
      rw [htags, ← hshows]
      exact Ample.of_scanned hample.encoding_eq rfl
  emptied _ _ hample h := by
    rw [hample.encoding_eq] at h
    exact h.ample
  transitioned hmay := hmay.elim
  resolved _ _ hample _ h := by
    apply Ample.of_scanned
    · exact h.encoding_eq.trans hample.encoding_eq
    · rw [h.charLen_eq, scanned, scanned, h.encoding_eq, h.content_eq]
  leafed _ _ hample h := by
    refine ⟨h.encoding_eq.trans hample.encoding_eq, ?_⟩
    rw [h.content_eq, h.charLen_eq]
    split
    · rw [scanned, hample.encoding_eq]
    · exact hample.scan_le
  rebuilt _ _ _ _ hample _ _ h := by
    constructor
    · exact (congrArg Tags.encoding h.tags_eq).trans hample.encoding_eq
    · rw [h.content_eq, charLen, h.tags_eq]
      exact hample.scan_le
  joined hmay := hmay.elim
  shown hmay := hmay.elim

/-- The rope has no fewer characters than its content, and exactly as many if its range is good.
Resolving it leaves those of the content and never adds to them. -/
structure Overcounts (rope : Rope) (store : Store) : Prop extends Ample rope where
  exact : rope.range = .asciiOnly ∨ rope.range = .valid →
    rope.charLen = (Encoding.utf8.scan rope.content.toArray).charLen
  resolve : ∃ new store', rope.resolve store = .ok new store' ∧
    new.charLen = (Encoding.utf8.scan rope.content.toArray).charLen ∧ new.charLen ≤ rope.charLen

theorem overcounts_of_live (hlive : c.live rope) (hmade : rope.Made Deed.InUtf8) :
    rope.Overcounts c.store := by
  have hample := hmade.induct passes_ample
  have hsound := hmade.soundTags_inUtf8
  have hscanned : rope.scanned.charLen = (Encoding.utf8.scan rope.content.toArray).charLen := by
    rw [scanned, hample.encoding_eq]
  refine ⟨hample, fun hrange => ?_, ?_⟩
  · rw [← hscanned]
    apply hsound.charLen_eq hmade.wf
    rcases hrange with hascii | hvalid
    · rw [hascii]
      rfl
    · rw [hvalid]
      rfl
  · obtain ⟨new, c', -, -, hrun, hresolution⟩ := exists_resolution hlive
    have hchars := (hresolution.charLen_eq hsound hmade.wf).trans hscanned
    exact ⟨new, c'.store, hrun, hchars, hchars ▸ hample.scan_le⟩

end Rope

/-! ## Sessions -/

/-- Two contents have together no more characters than apart, and at most three fewer. So in
sessions of UTF-8 no rope has fewer characters than its content, whichever way it was made. -/
theorem Session.Reachable.overcounts (h : session.Reachable Deed.InUtf8) :
    (∀ left right : Bytes,
        (Encoding.utf8.scan (left ++ right)).charLen ≤
            (Encoding.utf8.scan left).charLen + (Encoding.utf8.scan right).charLen ∧
          (Encoding.utf8.scan left).charLen + (Encoding.utf8.scan right).charLen ≤
            (Encoding.utf8.scan (left ++ right)).charLen + 3) ∧
      ∀ rope : Rope, session.Contains rope → rope.Overcounts session.store := by
  obtain ⟨c, hholds⟩ := h.holds
  constructor
  · intro left right
    exact ⟨Encoding.charLen_scan_append_le left right, Encoding.charLen_scan_le_append left right⟩
  · intro rope hrope
    obtain ⟨hlive, hmade⟩ := hholds.of_contains hrope
    rw [hholds.store]
    exact Rope.overcounts_of_live hlive (hmade.of_building trivial trivial)

/-- The four octets of 🎉 count as four characters in four leaves, and so does what a builder makes
of them. Resolving counts one. -/
theorem overcounts_quarters :
    ∃ (session : Session) (joined built new : Rope) (store : Store),
      session.Reachable Deed.InUtf8 ∧ session.ropes.get? "r" = some joined ∧
      session.ropes.get? "s" = some built ∧ joined.Overcounts session.store ∧
      built.Overcounts session.store ∧ joined.tags = ⟨.utf8, .broken, 4⟩ ∧
      built.tags = ⟨.utf8, .broken, 4⟩ ∧ built.resolve session.store = .ok new store ∧
      new.charLen = 1 := by
  let session : Session := Session.empty.performAll [
    .make (.bytes #[0xF0] .utf8) (some "a"), .make (.bytes #[0x9F] .utf8) (some "b"),
    .make (.bytes #[0x8E] .utf8) (some "c"), .make (.bytes #[0x89] .utf8) (some "d"),
    .make (.concat "a" "b" .standard) (some "l"), .make (.concat "c" "d" .standard) (some "r"),
    .make (.concat "l" "r" .standard) (some "r"), .newBuilder "m" .utf8 {}, .pushRope "m" "l" 1,
    .pushRope "m" "c" 1, .pushRope "m" "d" 1, .make (.build "m") (some "s")]
  have h : session.Reachable Deed.InUtf8 :=
    Session.Reachable.empty.performAll (by simp [Command.deeds, Recipe.deeds, Deed.InUtf8])
  have hjoined : (session.ropes.get? "r").map Rope.tags = some ⟨.utf8, .broken, 4⟩ := by
    decide +kernel
  have hbuilt : (session.ropes.get? "s").map (fun rope =>
      (rope.tags, (Encoding.utf8.scan rope.content.toArray).charLen)) =
      some (⟨.utf8, .broken, 4⟩, 1) := by
    decide +kernel
  obtain ⟨joined, hget, hjoined⟩ := Option.map_eq_some_iff.mp hjoined
  obtain ⟨built, hget', hbuilt⟩ := Option.map_eq_some_iff.mp hbuilt
  obtain ⟨htags, hone⟩ := Prod.mk.inj hbuilt
  obtain ⟨-, hropes⟩ := h.overcounts
  have hcounts := hropes built ⟨built, .named hget', .refl⟩
  obtain ⟨new, store, hrun, hnew, -⟩ := hcounts.resolve
  exact ⟨session, joined, built, new, store, h, hget, hget',
    hropes joined ⟨joined, .named hget, .refl⟩, hcounts, hjoined, htags, hrun, hnew.trans hone⟩

end ByteRope
