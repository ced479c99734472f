import ByteRope.Proofs.Rope.Resolving
import ByteRope.Proofs.Session.Reachable

/-!
# Resolving in sessions

What comes of a rope of a reachable session when it is resolved, whatever its tags say and whatever
the nodes under it remember. Nothing is in its way. The tags become those of a scan of the content
unless they are good already, the rest stays as it is, and resolving again changes nothing
(`Session.Reachable.resolves`). If no caller said the tags of a join or a view, then a UTF-8 rope
has as many characters as its lossy text in the end (`Rope.CountsLossy`).
-/

namespace ByteRope

variable {may : Deed → Prop} {c : Census} {session : Session} {name : String} {rope new : Rope}
  {store' : Store}

/-- A good range is kept, and a broken or an unknown one gives way to what a scan finds. All else
stays: the content, the encoding, the shape with its children, the buffer, and the cells of all
nodes that there were. Resolving again leaves the new rope as it is, at once and in every reachable
session that has a name for it. -/
structure Rope.Resolves (rope new : Rope) (store store' : Store) : Prop where
  kept : rope.range ≠ .broken → rope.range ≠ .unknown → new = rope
  scanned : rope.range = .broken ∨ rope.range = .unknown →
    new.range = rope.scanned.range ∧ new.charLen = rope.scanned.charLen
  content_eq : new.content = rope.content
  encoding_eq : new.encoding = rope.encoding
  depth_eq : new.depth = rope.depth
  isBalanced_eq : new.isBalanced = rope.isBalanced
  children_eq : new.children = rope.children
  alike : Rope.Alike rope new
  buffer_eq : store'.raw? new = store.raw? rope
  cell_eq : ∀ id < store.cells.size, store'.cell id = store.cell id
  again : new.resolve.outcome store' = .ok new
  later : ∀ {may : Deed → Prop} {session : Session}, session.Reachable may → session.Names new →
    new.resolve.outcome session.store = .ok new

/-- The rope has as many characters as its lossy text, which can be had if it fits a buffer. -/
structure Rope.CountsLossy (rope : Rope) (store : Store) : Prop where
  charLen_eq : rope.charLen = (Text.decodeLossy rope.content).length
  length_eq : ∀ text store', rope.toLossyText store = .ok text store' →
    text.length = rope.charLen
  succeeds : rope.byteLen ≤ Size.maxBuffer → rope.toLossyText.Succeeds store

theorem Rope.countsLossy_of_live (h : c.live rope)
    (hchars : rope.charLen = (Text.decodeLossy rope.content).length) :
    rope.CountsLossy c.store := by
  have hwf := Rope.wf_toLossyText h
  refine ⟨hchars, fun text store' hrun => ?_, fun hle => ?_⟩
  · obtain ⟨_, -, -, rfl⟩ := hwf.of_run hrun
    rw [String.length_ofList, hchars]
  · rcases hwf.outcome with ⟨text, c', hrun, -⟩ | ⟨fault, store', -, hlong⟩
    · exact ⟨text, c'.store, hrun⟩
    · exact absurd hle (Nat.not_le_of_lt hlong.2)

/-- Resolving ends with a rope that has the tags that a scan finds, or good ones. -/
theorem Session.Reachable.resolves (h : session.Reachable may)
    (hget : session.ropes.get? name = some rope) :
    ∃ new store', rope.resolve session.store = .ok new store' ∧
      rope.Resolves new session.store store' ∧
      (¬may .tag → rope.encoding = .utf8 → new.CountsLossy store') := by
  obtain ⟨c, hholds⟩ := h.holds
  obtain ⟨hlive, hmade⟩ := hholds.ropes hget
  obtain ⟨new, c', -, hnew, hrun, hresolution⟩ := Rope.exists_resolution hlive
  have halike := hresolution.alike
  have haccurate := hresolution.accurate
  rw [hholds.store]
  refine ⟨new, c'.store, hrun, ?_, fun htag hutf8 => ?_⟩
  · refine ⟨?_, ?_, halike.content_eq, hresolution.encoding_eq, halike.depth_eq,
      halike.isBalanced_eq, halike.children_eq, halike, hresolution.raw?_eq,
      fun _ => hresolution.cell_eq, Rope.resolve_of_accurate hnew haccurate, ?_⟩
    · intro hbroken hunknown
      apply hresolution.eq_of_good
      cases hrange : rope.range with
      | asciiOnly | valid => rfl
      | broken => exact absurd hrange hbroken
      | unknown => exact absurd hrange hunknown
    · rintro (hbroken | hunknown)
      · exact hresolution.tags_of_bad (hbroken ▸ rfl)
      · exact hresolution.tags_of_bad (hunknown ▸ rfl)
    · intro may' session' h' hnames
      obtain ⟨other, hget'⟩ := hnames
      obtain ⟨c'', hholds'⟩ := h'.holds
      rw [hholds'.store]
      exact Rope.resolve_of_accurate (hholds'.ropes hget').1 haccurate
  · apply Rope.countsLossy_of_live hnew
    have hsound := hmade.induct (Rope.passes_soundTags htag)
    rw [hresolution.charLen_eq hsound (c.wf hlive), Rope.charLen_scanned_utf8 hutf8,
      halike.content_eq]

/-- The two octets of a letter in two leaves are broken and count as two characters, until the join
is resolved. It keeps the buffer that it remembers. -/
theorem resolves_halves :
    ∃ (session : Session) (rope new : Rope) (store' : Store), session.Reachable (· ≠ .tag) ∧
      session.ropes.get? "r" = some rope ∧ rope.resolve session.store = .ok new store' ∧
      rope.Resolves new session.store store' ∧ new.CountsLossy store' ∧
      rope.tags = ⟨.utf8, .broken, 2⟩ ∧ new.range = .valid ∧ new.charLen = 1 ∧
      store'.raw? new = some #[0xC3, 0xA9] := by
  let session : Session := Session.empty.performAll [
    .make (.bytes #[0xC3] .utf8) (some "l"), .make (.bytes #[0xA9] .utf8) (some "r"),
    .make (.concat "l" "r" .standard) (some "r"), .ask (.flatten "r")]
  have h : session.Reachable (· ≠ .tag) :=
    Session.Reachable.empty.performAll (by decide)
  have hends : (session.ropes.get? "r").map (fun rope =>
      (rope.tags, rope.scanned.range, rope.scanned.charLen, session.store.raw? rope)) =
      some (⟨.utf8, .broken, 2⟩, .valid, 1, some #[0xC3, 0xA9]) := by
    decide +kernel
  obtain ⟨rope, hget, hends⟩ := Option.map_eq_some_iff.mp hends
  obtain ⟨htags, hvalid, hone, hraw⟩ := by simpa only [Prod.mk.injEq] using hends
  have hutf8 : rope.encoding = .utf8 := congrArg Tags.encoding htags
  have hbroken : rope.range = .broken := congrArg Tags.range htags
  obtain ⟨new, store', hrun, hresolves, hlossy⟩ := h.resolves hget
  obtain ⟨hrange, hnew⟩ := hresolves.scanned (.inl hbroken)
  exact ⟨session, rope, new, store', h, hget, hrun, hresolves, hlossy (fun hne => hne rfl) hutf8,
    htags, hrange.trans hvalid, hnew.trans hone, hresolves.buffer_eq.trans hraw⟩

end ByteRope
