import ByteRope.Proofs.Builder.Composing
import ByteRope.Proofs.Session.Building

/-!
# Totals

What a builder makes of pieces of resolved ranges has the range and the number of characters of the
pieces one after another (`Builder.Totals`). Settings, groups and encodings make no difference, and
neither does what a caller has said of the pieces.
-/

namespace ByteRope

open Rope (Scanned nonempty)

variable {c : Census} {session : Session} {may : Deed → Prop} {encoding : Encoding}
  {config : Config} {pieces : List Rope} {rope folded : Rope} {store : Store}

/-- The rope has the tags that putting one piece after another gives, the encoding apart: the range
of the blend of the pieces, and the sum of their characters. Empty pieces count for nothing. -/
structure Builder.Totals (encoding : Encoding) (pieces : List Rope) (rope : Rope) (store : Store) :
    Prop where
  charLen_eq : rope.charLen = ((nonempty pieces).map Rope.charLen).sum
  range_eq : nonempty pieces ≠ [] →
    rope.range = (Blend.sum ((nonempty pieces).map Rope.blend)).range
  fold : ∀ policy, ∃ folded store',
    Rope.fold encoding policy (nonempty pieces) store = .ok folded store' ∧
      rope.range = folded.range ∧ rope.charLen = folded.charLen
  foldAll : nonempty pieces ≠ [] → ∀ policy, ∃ folded store',
    Rope.fold encoding policy pieces store = .ok folded store' ∧
      rope.range = folded.range ∧ rope.charLen = folded.charLen

/-! ## Ropes -/

/-- Ropes that are composed of the same pieces, or are empty leaves if there are none, agree in
their tags but for the encoding. -/
theorem Rope.Composed.agree (hknown : ∀ piece ∈ pieces, piece.range ≠ .unknown)
    (h : (pieces = [] ∧ Scanned encoding #[] rope) ∨ Rope.Composed pieces rope)
    (h' : (pieces = [] ∧ Scanned encoding #[] folded) ∨ Rope.Composed pieces folded) :
    rope.range = folded.range ∧ rope.charLen = folded.charLen := by
  rcases h with ⟨rfl, hscanned⟩ | hcomposed
  · rcases h' with ⟨-, hscanned'⟩ | hcomposed'
    · have htags := hscanned.tags_eq.trans hscanned'.tags_eq.symm
      exact ⟨congrArg Tags.range htags, congrArg Tags.charLen htags⟩
    · exact absurd hcomposed'.byteLen_eq hcomposed'.byteLen_ne
  · rcases h' with ⟨rfl, -⟩ | hcomposed'
    · exact absurd hcomposed.byteLen_eq hcomposed.byteLen_ne
    · exact ⟨(hcomposed.range_eq hknown).trans (hcomposed'.range_eq hknown).symm,
        (hcomposed.charLen_eq hknown).trans (hcomposed'.charLen_eq hknown).symm⟩

/-- A rope was made of the pieces, so their lengths have sums, and nothing is in the way of putting
one after another. -/
theorem Rope.Composed.exists_fold (hlive : ∀ piece ∈ pieces, c.live piece)
    (hne : ∀ piece ∈ pieces, piece.byteLen ≠ 0)
    (hknown : ∀ piece ∈ pieces, piece.range ≠ .unknown)
    (h : (pieces = [] ∧ Scanned encoding #[] rope) ∨ Rope.Composed pieces rope)
    (policy : BalancePolicy) :
    ∃ folded store', Rope.fold encoding policy pieces c.store = .ok folded store' ∧
      rope.range = folded.range ∧ rope.charLen = folded.charLen := by
  obtain ⟨folded, c', hfold, -, -, hfolds⟩ | ⟨_, _, -, htwo, hfault⟩ :=
    (Builder.wf_fold hlive).outcome
  · refine ⟨folded, c'.store, hfold, Rope.Composed.agree hknown h ?_⟩
    exact hfolds.composed fun piece hmem => ⟨c.wf (hlive piece hmem), hne piece hmem⟩
  · rcases h with ⟨rfl, -⟩ | hcomposed
    · cases htwo
    · have hbytes := hcomposed.byteLen_eq ▸ hcomposed.wf.byteLen_le
      have hchars := hcomposed.charLen_eq hknown ▸ hcomposed.charLen_le hknown htwo
      exact absurd hchars (hfault hbytes)

theorem Builder.totals_of_live (hlive : ∀ piece ∈ pieces, c.live piece)
    (hknown : ∀ piece ∈ pieces, piece.range ≠ .unknown)
    (h : (nonempty pieces = [] ∧ Scanned encoding #[] rope) ∨
      Rope.Composed (nonempty pieces) rope) :
    Builder.Totals encoding pieces rope c.store := by
  have hknown : ∀ piece ∈ nonempty pieces, piece.range ≠ .unknown :=
    fun piece hmem => hknown piece (Rope.mem_nonempty.mp hmem).1
  have hfold := Rope.Composed.exists_fold
    (fun piece hmem => hlive piece (Rope.mem_nonempty.mp hmem).1)
    (fun piece hmem => (Rope.mem_nonempty.mp hmem).2) hknown h
  refine ⟨?_, fun hnil => ?_, hfold, fun hnil policy => ?_⟩
  · rcases h with ⟨hnil, ⟨⟩⟩ | hcomposed
    · rw [hnil]
      exact Nat.le_zero.mp (encoding.charLen_scan_le #[])
    · exact hcomposed.charLen_eq hknown
  · rcases h with ⟨hnil', -⟩ | hcomposed
    · exact absurd hnil' hnil
    · exact hcomposed.range_eq hknown
  · rw [← Rope.fold_nonempty hnil]
    exact hfold policy

/-! ## Sessions -/

/-- What a builder makes of ropes of resolved ranges has the range and the number of characters that
putting one rope after another gives, whatever the settings are. -/
theorem Session.Reachable.totals (h : session.Reachable may)
    (hpieces : ∀ piece ∈ pieces, session.Names piece ∧ piece.range.isResolved = true)
    (hbuilt : Builder.ofPieces encoding config pieces session.store = .ok rope store) :
    Builder.Totals encoding pieces rope store := by
  have hreach : session.Reachable fun _ => True := h.mono fun _ _ => trivial
  obtain ⟨c, hholds⟩ := hreach.holds
  have hmade := hholds.named fun piece hmem => (hpieces piece hmem).1
  rw [hholds.store] at hbuilt
  obtain ⟨c', rfl, hle, -, builder, hgrown, hrope⟩ :=
    (Builder.wf_ofPieces Rope.Made.family_building
      (fun _ hscanned => .scanned (.inl trivial) hscanned) hmade).of_run hbuilt
  have hcomposed := hrope.composed (fun _ h => h.wf)
    (hgrown.composed (fun _ h => h.wf) fun piece hpiece => (hmade piece hpiece).2.wf)
  rw [hgrown.encoding_eq] at hcomposed
  refine Builder.totals_of_live (fun piece hmem => hle.live (hmade piece hmem).1) ?_ hcomposed
  intro piece hmem hunknown
  have hresolved := (hpieces piece hmem).2
  rw [hunknown] at hresolved
  cases hresolved

/-- Two letters under UTF-8, one under ISO-8859-1 and one under UTF-16LE cannot share an encoding,
so they are broken in any grouping; they stay four characters. -/
theorem totals_mixed :
    ∃ (session : Session) (pieces : List Rope) (rope : Rope) (store : Store),
      (session.Reachable fun _ => True) ∧
      (∀ piece ∈ pieces, session.Names piece ∧ piece.range.isResolved = true) ∧
      Builder.ofPieces .utf8 {} pieces session.store = .ok rope store ∧
      Builder.Totals .utf8 pieces rope store ∧ pieces.map Rope.encoding =
        [.utf8, .utf8, .latin1, .utf16le] ∧ rope.range = .broken ∧ rope.charLen = 4 := by
  let session : Session := Session.empty.performAll [
    .make (.text "a") (some "a"), .make (.bytes #[98] .latin1) (some "l"),
    .make (.bytes #[99, 0] .utf16le) (some "u")]
  have h : session.Reachable fun _ => True :=
    Session.Reachable.empty.performAll fun _ _ _ _ => trivial
  have hends : (["a", "a", "l", "u"].mapM session.ropes.get?).map (fun pieces =>
      (pieces.map Rope.encoding, pieces.all fun piece => piece.range.isResolved,
        ((Builder.ofPieces .utf8 {} pieces).outcome session.store).map fun rope =>
          (rope.range, rope.charLen))) =
      some ([.utf8, .utf8, .latin1, .utf16le], true, .ok (.broken, 4)) := by
    decide +kernel
  obtain ⟨pieces, hpieces, hends⟩ := Option.map_eq_some_iff.mp hends
  obtain ⟨hencodings, hresolved, hends⟩ := by simpa only [Prod.mk.injEq] using hends
  have hall : ∀ piece ∈ pieces, session.Names piece ∧ piece.range.isResolved = true :=
    fun piece hmem => ⟨Session.names_of_mapM hpieces piece hmem,
      List.all_eq_true.mp hresolved piece hmem⟩
  cases houtcome : (Builder.ofPieces .utf8 {} pieces).outcome session.store with
  | error fault =>
    rw [houtcome] at hends
    cases hends
  | ok rope =>
    rw [houtcome] at hends
    obtain ⟨hrange, hchars⟩ := Prod.mk.inj (Except.ok.inj hends)
    obtain ⟨store, hbuilt⟩ := RopeM.outcome_eq_ok_iff.mp houtcome
    exact ⟨session, pieces, rope, store, h, hall, hbuilt, h.totals hall hbuilt, hencodings, hrange,
      hchars⟩

end ByteRope
