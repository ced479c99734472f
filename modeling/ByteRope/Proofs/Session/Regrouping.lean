import ByteRope.Proofs.Rope.Heights
import ByteRope.Proofs.Rope.Regrouping
import ByteRope.Proofs.Session.Reachable

/-!
# What rebalancing makes in sessions

What comes of a rope of a reachable session when it is rebalanced, whatever its tags say. It shows
the same and is no deeper, and what stands at its tips are the pieces of the rope
(`Session.Reachable.regroups`). It has as many levels as a tree over so many leaves needs, and over
other pieces no more than that above the deepest of them (`Session.Reachable.levels`). Rebalancing
it again leaves it as it is (`Session.Reachable.stays`).
-/

namespace ByteRope

open Rope (OfLeaves StandsFor)

variable {may : Deed → Prop} {session : Session} {name : String} {rope new : Rope}
  {policy : BalancePolicy} {store : Store}

theorem Session.Reachable.exists_regrouped (h : session.Reachable may)
    (hget : session.ropes.get? name = some rope)
    (hrun : rope.rebalance policy session.store = .ok new store) :
    ∃ c : Census, c.store = store ∧ c.live rope ∧ c.live new ∧
      Rope.Regrouped (fun _ => True) policy rope new := by
  obtain ⟨c, hholds⟩ := h.holds
  obtain ⟨hlive, -⟩ := hholds.ropes hget
  rw [hholds.store] at hrun
  obtain ⟨c', hstore, hle, hnew, hregrouped⟩ := (Rope.wf_regroup_any hlive policy).of_run hrun
  exact ⟨c', hstore, hle.live hlive, hnew, hregrouped⟩

/-! ## The same pieces -/

/-- The new rope has the content and the tags of the rope, equals it and is no deeper. If it is not
the rope itself, then it is a shallower join, and at its tips stand the nonempty nodes under the
rope that are no joins, in order. The views of nodes not marked balanced are to be copied. -/
structure Rope.Regroups (rope : Rope) (store : Store) (new : Rope) : Prop where
  content_eq : new.content = rope.content
  tags_eq : new.tags = rope.tags
  equal_eq : new.equal rope store = .ok true store
  depth_le : new.depth ≤ rope.depth
  tips : new = rope ∨ new.isJoin = true ∧ new.depth < rope.depth ∧
    List.Forall₂ StandsFor (rope.tips.filter fun tip => !tip.isEmpty) new.tips
  loose_iff : ∀ tip ∈ rope.tips,
    tip.isLoose = true ↔ tip.isView = true ∧ tip.underlying.isBalanced = false

/-- Rebalancing keeps what a rope shows and regroups its pieces. -/
theorem Session.Reachable.regroups (h : session.Reachable may)
    (hget : session.ropes.get? name = some rope)
    (hrun : rope.rebalance policy session.store = .ok new store) : rope.Regroups store new := by
  obtain ⟨c, rfl, hlive, hnew, hregrouped⟩ := h.exists_regrouped hget hrun
  have hrebalanced := hregrouped.rebalanced
  have htags := hrebalanced.tags_eq
  have hcontent := hrebalanced.content_eq
  refine ⟨hcontent, htags, ?_, hrebalanced.depth_le, ?_, fun _ _ => Rope.isLoose_iff⟩
  · rw [Rope.equal_eq hnew hlive, decide_eq_true ⟨congrArg Tags.encoding htags, hcontent⟩]
  · rw [← Rope.parts_eq]
    cases hrebalanced with
    | same => exact .inl rfl
    | rebuilt _ _ _ hdepth hgain hrebuilt =>
      refine hregrouped.settled.imp_right fun hsettled => ⟨?_, ?_, ?_⟩
      · cases hrebuilt
        rfl
      · cases hrebuilt
        exact hdepth.trans_lt hgain
      · exact hsettled.imp fun _ _ h => h.standsFor

/-- Two letters after a view of a chain that is not balanced. -/
theorem Session.exists_loose :
    ∃ (session : Session) (rope new : Rope) (store : Store), session.Reachable (fun _ => True) ∧
      session.ropes.get? "r" = some rope ∧
      rope.rebalance .standard session.store = .ok new store ∧
      rope.pieces.map Rope.isLoose = [true, false, false] ∧ rope.depth = 7 ∧ new.depth = 2 := by
  let session : Session := Session.empty.performAll [
    .make (.text "a") (some "a"), .make (.chain "a" "a" false ⟨1⟩ 4) (some "chain"),
    .make (.slice "chain" 1 4) (some "v"), .make (.text "é") (some "e"),
    .make (.concat "v" "e" .standard) (some "r"), .make (.concat "r" "a" .standard) (some "r")]
  have h : session.Reachable (fun _ => True) :=
    Session.Reachable.empty.performAll fun _ _ _ _ => trivial
  have hends : (session.ropes.get? "r").map (fun rope =>
      (rope.pieces.map Rope.isLoose, rope.depth,
        ((rope.rebalance .standard).outcome session.store).map Rope.depth)) =
      some ([true, false, false], 7, .ok 2) := by
    decide +kernel
  obtain ⟨rope, hget, hends⟩ := Option.map_eq_some_iff.mp hends
  obtain ⟨hloose, hdepth, hnew⟩ := by simpa only [Prod.mk.injEq] using hends
  cases hrun : rope.rebalance .standard session.store with
  | error fault store =>
    rw [RopeM.outcome, hrun] at hnew
    cases hnew
  | ok new store =>
    rw [RopeM.outcome, hrun] at hnew
    exact ⟨session, rope, new, store, h, hget, hrun, hloose, hdepth, Except.ok.inj hnew⟩

/-- The view becomes a leaf, the letters stay the nodes that they were, and the new root has the
tags of the old one. -/
theorem regroups_view :
    ∃ (session : Session) (rope new : Rope) (store : Store), session.Reachable (fun _ => True) ∧
      session.ropes.get? "r" = some rope ∧
      rope.rebalance .standard session.store = .ok new store ∧ rope.Regroups store new ∧
      rope.pieces.map Rope.isLoose = [true, false, false] ∧ rope.depth = 7 ∧ new.depth = 2 := by
  obtain ⟨session, rope, new, store, h, hget, hrun, hends⟩ := Session.exists_loose
  exact ⟨session, rope, new, store, h, hget, hrun, h.regroups hget hrun, hends⟩

/-! ## Levels -/

/-- How many levels the new rope has. If the rope was put together of leaves, they are as many as so
many leaves need, so that no other rope with so many nodes at its tips has fewer, and the new rope
is marked balanced. In general they are no more than that above the deepest piece. -/
structure Rope.Levels (rope new : Rope) : Prop where
  of_leaves : ∀ {leaves : List Rope}, OfLeaves leaves rope → 2 ≤ leaves.length →
    new.depth = Nat.clog 2 leaves.length ∧ new.isBalanced = true ∧
      ∀ other : Rope, leaves.length ≤ other.tips.length → new.depth ≤ other.height
  of_pieces : 2 ≤ rope.pieces.length → ∀ bound,
    (∀ piece ∈ rope.pieces, piece.settledDepth ≤ bound) →
      new.depth ≤ bound + Nat.clog 2 rope.pieces.length

/-- Rebalancing makes as few levels as can be. -/
theorem Session.Reachable.levels (h : session.Reachable may)
    (hget : session.ropes.get? name = some rope)
    (hrun : rope.rebalance policy session.store = .ok new store) : rope.Levels new := by
  obtain ⟨c, rfl, hlive, hnew, hregrouped⟩ := h.exists_regrouped hget hrun
  constructor
  case of_leaves =>
    intro leaves hleaves hlength
    have hdepth := hregrouped.depth_eq_clog hleaves hlength (c.wf hnew)
    refine ⟨hdepth, hregrouped.isBalanced hleaves hlength (c.wf hlive) (c.wf hnew), ?_⟩
    intro other hother
    rw [hdepth]
    exact Nat.le_trans (Nat.clog_mono_right 2 hother) other.clog_length_tips_le
  case of_pieces =>
    rw [Rope.pieces_eq]
    exact fun hparts bound hbound => hregrouped.depth_le_clog hparts hbound

/-- A chain of five letters by a policy of one level a bit is not marked balanced; rebalancing it
makes the three levels that five leaves need. -/
theorem levels_chain :
    ∃ (session : Session) (a rope new : Rope) (store : Store), session.Reachable (fun _ => True) ∧
      session.ropes.get? "r" = some rope ∧
      rope.rebalance .standard session.store = .ok new store ∧ rope.Levels new ∧
      OfLeaves [a, a, a, a, a] rope ∧ rope.depth = 4 ∧ rope.isBalanced = false ∧
      new.depth = 3 ∧ new.isBalanced = true := by
  let a : Rope := .leaf 0 .asciiOnly .utf8 1 #[97]
  let two : Rope := .join 1 ⟨.utf8, .asciiOnly, 2⟩ 2 1 true a a
  let three : Rope := .join 2 ⟨.utf8, .asciiOnly, 3⟩ 3 2 true two a
  let four : Rope := .join 3 ⟨.utf8, .asciiOnly, 4⟩ 4 3 true three a
  let rope : Rope := .join 4 ⟨.utf8, .asciiOnly, 5⟩ 5 4 false four a
  let first : Rope := .join 5 ⟨.utf8, .asciiOnly, 2⟩ 2 1 true a a
  let second : Rope := .join 6 ⟨.utf8, .asciiOnly, 2⟩ 2 1 true a a
  let pairs : Rope := .join 7 ⟨.utf8, .asciiOnly, 4⟩ 4 2 true first second
  let new : Rope := .join 8 ⟨.utf8, .asciiOnly, 5⟩ 5 3 true pairs a
  let session : Session := Session.empty.performAll [
    .make (.text "a") (some "a"), .make (.chain "a" "a" false ⟨1⟩ 4) (some "r")]
  have h : session.Reachable (fun _ => True) :=
    Session.Reachable.empty.performAll fun _ _ _ _ => trivial
  have hget : session.ropes.get? "r" = some rope := by decide +kernel
  have hrun : ∃ store, rope.rebalance .standard session.store = .ok new store := by
    rw [← RopeM.outcome_eq_ok_iff]
    decide +kernel
  obtain ⟨store, hrun⟩ := hrun
  let nodes (count : Nat) : Store := ⟨Digest.ofContent, Array.replicate count {}, #[]⟩
  have h₂ : (a.concat a ⟨1⟩).outcome (nodes 1) = .ok two := by decide +kernel
  have h₃ : (two.concat a ⟨1⟩).outcome (nodes 2) = .ok three := by decide +kernel
  have h₄ : (three.concat a ⟨1⟩).outcome (nodes 3) = .ok four := by decide +kernel
  have h₅ : (four.concat a ⟨1⟩).outcome (nodes 4) = .ok rope := by decide +kernel
  have ha : OfLeaves [a] a := .leaf (by decide)
  have hleaves : OfLeaves [a, a, a, a, a] rope :=
    .concat (.concat (.concat (.concat ha ha h₂) ha h₃) ha h₄) ha h₅
  have hlevels := h.levels hget hrun
  obtain ⟨hdepth, hbalanced, -⟩ := hlevels.of_leaves hleaves (by decide)
  exact ⟨session, a, rope, new, store, h, hget, hrun, hlevels, hleaves, rfl, rfl, rfl, hbalanced⟩

/-! ## Once and for all -/

/-- Rebalancing leaves the rope as it is under every policy, at once and in every reachable session
that has a name for it. -/
structure Rope.Stays (rope : Rope) (store : Store) : Prop where
  now : ∀ policy, (rope.rebalance policy).outcome store = .ok rope
  later : ∀ {may : Deed → Prop} {session : Session}, session.Reachable may → session.Names rope →
    ∀ policy, (rope.rebalance policy).outcome session.store = .ok rope

/-- What rebalancing has made it leaves as it is. -/
theorem Session.Reachable.stays (h : session.Reachable may)
    (hget : session.ropes.get? name = some rope)
    (hrun : rope.rebalance policy session.store = .ok new store) : new.Stays store := by
  obtain ⟨c, rfl, hlive, hnew, hregrouped⟩ := h.exists_regrouped hget hrun
  have hlevelled := hregrouped.levelled (c.wf hlive)
  refine ⟨fun policy' => (Rope.outcome_rebalance_iff hnew policy').mpr hlevelled, ?_⟩
  intro may' session' h' hnames policy'
  obtain ⟨other, hget'⟩ := hnames
  obtain ⟨c', hholds'⟩ := h'.holds
  rw [hholds'.store, Rope.outcome_rebalance_iff (hholds'.ropes hget').1]
  exact hlevelled

theorem stays_view :
    ∃ (session session' : Session) (rope new : Rope) (store : Store),
      session.Reachable (fun _ => True) ∧ session.ropes.get? "r" = some rope ∧
      rope.rebalance .standard session.store = .ok new store ∧ new.Stays store ∧
      new.depth < rope.depth ∧ (new.rebalance ⟨1⟩).outcome store = .ok new ∧
      session'.Reachable (fun _ => True) ∧ session'.Names new ∧
      (new.rebalance ⟨1⟩).outcome session'.store = .ok new := by
  obtain ⟨session, rope, new, store, h, hget, hrun, -, hdepth, hdepth'⟩ := Session.exists_loose
  have hstays := h.stays hget hrun
  have hrecipe := Session.Reachable.run_rope_bind hget fun rope =>
    SessionM.onStore (rope.rebalance .standard)
  obtain ⟨session', h', hropes⟩ :=
    h.keep (.rebalance "r" .standard) (fun _ _ => trivial) hrecipe hrun "s"
  have hnames : session'.Names new := ⟨"s", by rw [hropes, Registers.get?_set_self]⟩
  exact ⟨session, session', rope, new, store, h, hget, hrun, hstays, by omega, hstays.now ⟨1⟩, h',
    hnames, hstays.later h' hnames ⟨1⟩⟩

end ByteRope
