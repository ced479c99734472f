import ByteRope.Proofs.Builder.Depths
import ByteRope.Proofs.Session.Building

/-!
# Depths in sessions

How deep a rope is that a builder makes of ropes of a session, and when it is balanced and within
the bound of the settings (`Session.Reachable.bounds`). Leaves always keep to the bound. A piece
that is at its own bound leaves nothing for the joins above it.
-/

namespace ByteRope

variable {session : Session} {may : Deed → Prop} {encoding : Encoding} {config : Config}
  {pieces : List Rope} {rope : Rope} {store : Store}

/-- Unless trees are left alone, what a builder makes is as deep as the tree of a binary counter
over the batches of the pieces, and it keeps to the bound exactly if that tree does. -/
theorem Session.Reachable.bounds (h : session.Reachable may) (hstrategy : config.rebalance ≠ .never)
    (hpieces : ∀ piece ∈ pieces, session.Names piece)
    (hbuilt : Builder.ofPieces encoding config pieces session.store = .ok rope store) :
    Builder.Bounds config pieces rope := by
  have hreach : session.Reachable fun _ => True := h.mono fun _ _ => trivial
  obtain ⟨c, hholds⟩ := hreach.holds
  have hmade := hholds.named hpieces
  rw [hholds.store] at hbuilt
  obtain ⟨c', rfl, -, -, builder, hgrown, hrope⟩ :=
    (Builder.wf_ofPieces Rope.Made.family_building
      (fun _ hscanned => .scanned (.inl trivial) hscanned) hmade).of_run hbuilt
  exact hgrown.bounds_of_built (fun _ h => h.wf) hstrategy
    (fun piece hmem => (hmade piece hmem).2.wf) hrope

/-- Nine letters appended one by one are balanced at a depth of eight. One letter more on top of
them is a level too much, though a tree of depth four would do. -/
theorem bounds_chain :
    ∃ (session : Session) (pieces : List Rope) (rope : Rope) (store : Store),
      (session.Reachable fun _ => True) ∧ ({} : Config).rebalance ≠ .never ∧
      (∀ piece ∈ pieces, session.Names piece) ∧
      Builder.ofPieces .utf8 {} pieces session.store = .ok rope store ∧
      Builder.Bounds {} pieces rope ∧
      pieces.map (fun piece => (piece.isBalanced, piece.depth)) = [(true, 8), (true, 0)] ∧
      rope.depth = 9 ∧ ({} : Config).policy.depthLimit rope.byteLen = 8 ∧
      ¬Builder.KeepsBound {} rope := by
  let session : Session := Session.empty.performAll [
    .make (.text "x") (some "x"), .make (.chain "x" "x" false .standard 8) (some "r")]
  have h : session.Reachable fun _ => True :=
    Session.Reachable.empty.performAll fun _ _ _ _ => trivial
  have hstrategy : ({} : Config).rebalance ≠ .never := by decide
  have hends : (["r", "x"].mapM session.ropes.get?).map (fun pieces =>
      (pieces.map fun piece => (piece.isBalanced, piece.depth),
        ((Builder.ofPieces .utf8 {} pieces).outcome session.store).map fun rope =>
          (rope.depth, ({} : Config).policy.depthLimit rope.byteLen))) =
      some ([(true, 8), (true, 0)], .ok (9, 8)) := by
    decide +kernel
  obtain ⟨pieces, hpieces, hends⟩ := Option.map_eq_some_iff.mp hends
  obtain ⟨hdepths, hends⟩ := by simpa only [Prod.mk.injEq] using hends
  have hall : ∀ piece ∈ pieces, session.Names piece := Session.names_of_mapM hpieces
  cases houtcome : (Builder.ofPieces .utf8 {} pieces).outcome session.store with
  | error fault =>
    rw [houtcome] at hends
    cases hends
  | ok rope =>
    rw [houtcome] at hends
    obtain ⟨hdepth, hlimit⟩ := Prod.mk.inj (Except.ok.inj hends)
    obtain ⟨store, hbuilt⟩ := RopeM.outcome_eq_ok_iff.mp houtcome
    refine ⟨session, pieces, rope, store, h, hstrategy, hall, hbuilt,
      h.bounds hstrategy hall hbuilt, hdepths, hdepth, hlimit, fun hkeeps => ?_⟩
    have hle := hkeeps.2
    rw [hdepth, hlimit] at hle
    exact absurd hle (by decide)

end ByteRope
