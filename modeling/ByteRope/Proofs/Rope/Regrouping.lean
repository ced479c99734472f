import ByteRope.Proofs.Rope.Covering
import ByteRope.Proofs.Rope.Rebalancing

/-!
# Regrouping

What stands at the tips of a rebalanced rope (`Rope.StandsFor`), and when rebalancing leaves a rope
as it is (`Rope.Levelled`). That depends on the depths and the characters of the pieces, not on the
policy. The pieces of a rope that was made anew are its tips, and none of them is copied again:
what stands for a piece has the depth and the characters that were counted for the piece. So pairing
them would make a tree of the same depth again (`Rope.Regrouped.levelled`).
-/

namespace ByteRope.Rope

open RopeM

variable {c : Census} {rope new piece settled : Rope} {policy : BalancePolicy} {P : Rope → Prop}

/-! ## Tips -/

/-- What is left of a rope without the views around it. -/
def underlying : Rope → Rope
  | view _ _ _ _ _ child => child.underlying
  | rope => rope

/-- Views pass on the mark of what they show, however many there are. -/
theorem isBalanced_underlying (rope : Rope) : rope.underlying.isBalanced = rope.isBalanced := by
  induction rope with
  | leaf | join => rfl
  | view id tags byteLen depth offset child ih => exact ih

theorem isLoose_iff : piece.isLoose = true ↔
    piece.isView = true ∧ piece.underlying.isBalanced = false := by
  rw [isBalanced_underlying]
  cases piece with
  | leaf | join => exact ⟨nofun, nofun⟩
  | view id tags byteLen depth offset child =>
    rw [isLoose, Bool.not_eq_true']
    exact (and_iff_right rfl).symm

/-- What stands for a piece: the piece itself, or a leaf of the same content if the piece is a view
of something unbalanced. The leaf has the tags of the piece if its range is known, and else those
that a scan finds. -/
structure StandsFor (piece tip : Rope) : Prop where
  kept : piece.isLoose = false → tip = piece
  copied : piece.isLoose = true →
    ∃ id kind encoding charLen bytes, tip = .leaf id kind encoding charLen bytes
  content_eq : tip.content = piece.content
  tags_eq : piece.range.isResolved = true → tip.tags = piece.tags
  scanned : piece.isLoose = true → piece.range = .unknown →
    tip.tags = ⟨piece.encoding, piece.scanned.range, piece.scanned.charLen⟩

theorem Settled.standsFor (h : Settled piece settled) : StandsFor piece settled := by
  cases h with
  | kept hkept =>
    have hloose (hloose : piece.isLoose = true) : False := by
      rw [hkept] at hloose
      cases hloose
    exact ⟨fun _ => rfl, fun h => (hloose h).elim, rfl, fun _ => rfl, fun h => (hloose h).elim⟩
  | copied hloose hleafed =>
    refine ⟨fun hkept => ?_, fun _ => hleafed.exists_leaf, hleafed.content_eq, fun hresolved => ?_,
      fun _ => hleafed.tags_eq_scanned⟩
    · rw [hloose] at hkept
      cases hkept
    · refine hleafed.tags_eq fun hunknown => ?_
      rw [hunknown] at hresolved
      cases hresolved

/-! ## Ropes that stay as they are -/

/-- Pairing up the pieces is possible, and would not make the rope shallower. -/
def Levelled (rope : Rope) : Prop :=
  rope.isJoin = true → rope.depth ≤ rope.pairedDepth ∧ rope.Pairable

/-- Rebalancing leaves exactly the levelled ropes as they are, whatever the policy. -/
theorem outcome_rebalance_iff (h : c.live rope) (policy : BalancePolicy) :
    (rope.rebalance policy).outcome c.store = .ok rope ↔ rope.Levelled := by
  rw [outcome_eq_ok_iff]
  constructor
  · rintro ⟨store, hrun⟩ hjoin
    obtain ⟨_, -, -, -, hregrouped⟩ := (wf_regroup_any h policy).of_run hrun
    refine ⟨?_, hregrouped.pairable hjoin⟩
    exact hregrouped.rebalanced.depth_le_pairedDepth hjoin
  · intro hlevelled
    rcases (wf_regroup_any h policy).outcome with ⟨new, c', hrun, -, -, hregrouped⟩ | hfault
    · cases hregrouped.rebalanced with
      | same => exact ⟨_, hrun⟩
      | rebuilt hjoin _ _ _ hgain => exact absurd (hlevelled hjoin).1 (Nat.not_le_of_lt hgain)
    · obtain ⟨_, _, -, hjoin, -, hpairable⟩ := hfault
      exact absurd (hlevelled hjoin).2 (hpairable (hlevelled hjoin).1)

/-! ## Rebalanced ropes -/

namespace Settled

theorem isLoose (h : Settled piece settled) : settled.isLoose = false := by
  cases h with
  | kept hkept => exact hkept
  | copied _ hleafed =>
    obtain ⟨_, _, _, _, _, rfl⟩ := hleafed.exists_leaf
    rfl

theorem settledDepth_eq (h : Settled piece settled) : settled.settledDepth = piece.settledDepth :=
  (settledDepth_eq_depth h.isLoose).trans h.depth_eq

theorem settledCharLen_eq (h : Settled piece settled) :
    settled.settledCharLen = piece.settledCharLen :=
  (settledCharLen_eq_charLen h.isLoose).trans h.charLen_eq

/-- Pieces that stand for other pieces make a tree of the same depth, if there are enough of them to
make one. -/
theorem pairedDepth_eq (h : List.Forall₂ Settled rope.parts new.parts)
    (hgain : rope.pairedDepth < rope.depth) : new.pairedDepth = rope.pairedDepth := by
  have hdepths : new.parts.map settledDepth = rope.parts.map settledDepth :=
    h.map_eq fun _ _ h => h.settledDepth_eq
  unfold pairedDepth at hgain ⊢
  rw [hdepths, ← h.length_eq]
  split at hgain
  next => rfl
  next => exact absurd hgain (Nat.lt_irrefl _)

/-- What stands for a piece is not copied again. -/
theorem pairable (h : List.Forall₂ Settled rope.parts new.parts) (hpairable : rope.Pairable) :
    new.Pairable := by
  constructor
  case fits =>
    intro piece hmem hloose
    obtain ⟨_, -, hsettled⟩ := h.exists_left hmem
    exact absurd (hsettled.isLoose.symm.trans hloose) nofun
  case sums =>
    have hchars : new.parts.map settledCharLen = rope.parts.map settledCharLen :=
      h.map_eq fun _ _ h => h.settledCharLen_eq
    rw [hchars, ← h.length_eq]
    exact hpairable.sums

/-- No settled piece is empty, so the tips of a rope made of them are its pieces. -/
theorem parts_of_tips (h : List.Forall₂ Settled rope.parts new.tips) (hwf : rope.WF) :
    new.parts = new.tips := by
  rw [parts_eq, List.filter_eq_self]
  intro tip hmem
  obtain ⟨piece, hpiece, hsettled⟩ := h.exists_left hmem
  obtain ⟨hwithin, hne⟩ := mem_parts hpiece
  rw [isEmpty, hsettled.byteLen_eq (hwf.of_within hwithin), decide_eq_false hne]
  rfl

end Settled

/-- What rebalancing makes is levelled. -/
theorem Regrouped.levelled (h : Regrouped P policy rope new) (hwf : rope.WF) : new.Levelled := by
  intro hjoin
  cases h.rebalanced with
  | same hle => exact ⟨hle hjoin, h.pairable hjoin⟩
  | rebuilt hrope _ _ hdepth hgain hrebuilt =>
    have hnew : new.depth = rope.pairedDepth := by
      cases hrebuilt
      exact hdepth
    rcases h.settled with rfl | hsettled
    · exact absurd hgain (Nat.not_lt_of_le (Nat.le_of_eq hnew))
    · rw [← Settled.parts_of_tips hsettled hwf] at hsettled
      refine ⟨?_, Settled.pairable hsettled (h.pairable hrope)⟩
      rw [Settled.pairedDepth_eq hsettled hgain]
      exact Nat.le_of_eq hnew

end ByteRope.Rope
