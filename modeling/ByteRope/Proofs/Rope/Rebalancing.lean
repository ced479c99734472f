import Mathlib.Algebra.Order.BigOperators.Group.List
import Mathlib.Algebra.Order.Group.Nat
import ByteRope.Proofs.Rope.Pairing
import ByteRope.Proofs.Rope.Retagging

/-!
# Rebalancing

What rebalancing makes (`Rope.Rebalanced`), and when it faults. The rope itself or a new root with
its tags over the same octets comes out, unless a view has to be copied that is too long, the
characters of the pieces are too many, or the root is first made with an ASCII-only range and the
characters of the pieces, which need not be as many as the octets (`Rope.Rebuildable`). What becomes
of each piece (`Rope.Settled`) stands at the tips of the new root, in order (`Rope.Regrouped`).
-/

namespace ByteRope.Rope

open RopeM

variable {c c' : Census} {rope piece left right : Rope} {policy : BalancePolicy}

/-! ## Settling -/

/-- A view of something unbalanced. -/
def isLoose : Rope → Bool
  | piece@(view ..) => !piece.isBalanced
  | leaf .. | join .. => false

/-- The depth of a piece once it is settled. -/
def settledDepth (piece : Rope) : Nat := if piece.isLoose then 0 else piece.depth

/-- The number of characters of a piece once it is settled. -/
def settledCharLen (piece : Rope) : Nat :=
  if piece.isLoose ∧ piece.range = .unknown then piece.scanned.charLen else piece.charLen

theorem settledDepth_eq_depth (h : piece.isLoose = false) : piece.settledDepth = piece.depth :=
  if_neg (by rw [h]; nofun)

theorem settledCharLen_eq_charLen (h : piece.isLoose = false) :
    piece.settledCharLen = piece.charLen :=
  if_neg fun hcopied => by rw [h] at hcopied; exact nomatch hcopied.1

/-- What becomes of a piece. -/
inductive Settled (piece : Rope) : Rope → Prop
  | kept : piece.isLoose = false → Settled piece piece
  | copied {leaf : Rope} : piece.isLoose = true → Leafed piece leaf → Settled piece leaf

namespace Settled

variable {settled : Rope}

theorem content_eq (h : Settled piece settled) : settled.content = piece.content := by
  cases h with
  | kept => rfl
  | copied _ hleafed => exact hleafed.content_eq

theorem depth_eq (h : Settled piece settled) : settled.depth = piece.settledDepth := by
  cases h with
  | kept hkept => exact (settledDepth_eq_depth hkept).symm
  | copied hloose hleafed => rw [settledDepth, if_pos hloose, hleafed.depth_eq]

theorem charLen_eq (h : Settled piece settled) : settled.charLen = piece.settledCharLen := by
  cases h with
  | kept hkept => exact (settledCharLen_eq_charLen hkept).symm
  | copied hloose hleafed =>
    rw [hleafed.charLen_eq, settledCharLen]
    simp only [hloose, true_and]

theorem wf (h : Settled piece settled) (hwf : piece.WF) : settled.WF := by
  cases h with
  | kept => exact hwf
  | copied _ hleafed => exact hleafed.wf hwf

theorem byteLen_eq (h : Settled piece settled) (hwf : piece.WF) :
    settled.byteLen = piece.byteLen :=
  hwf.byteLen_eq (h.wf hwf) h.content_eq

end Settled

namespace Settled

variable {pieces settled : List Rope}

theorem map_depth (h : List.Forall₂ Settled pieces settled) :
    settled.map depth = pieces.map settledDepth :=
  h.map_eq fun _ _ h => h.depth_eq

theorem map_charLen (h : List.Forall₂ Settled pieces settled) :
    settled.map charLen = pieces.map settledCharLen :=
  h.map_eq fun _ _ h => h.charLen_eq

theorem flatMap_content (h : List.Forall₂ Settled pieces settled) :
    settled.flatMap content = pieces.flatMap content :=
  congrArg List.flatten (h.map_eq fun _ _ h => h.content_eq)

theorem byteLen_le (h : List.Forall₂ Settled pieces settled) (hwf : ∀ piece ∈ pieces, piece.WF) :
    ∀ piece ∈ pieces, piece.isLoose = true → piece.byteLen ≤ Size.maxBuffer := by
  intro piece hmem hloose
  obtain ⟨leaf, hsettled⟩ := h.exists_right hmem
  cases hsettled with
  | kept hkept =>
    rw [hloose] at hkept
    cases hkept
  | copied _ hleafed => exact hleafed.byteLen_le (hwf piece hmem)

end Settled

theorem wf_settle (h : c.live piece) :
    RopeM.WF c piece.settle (fun settled c' => c'.live settled ∧ Settled piece settled)
      (fun fault => piece.isLoose = true ∧ Overlong piece.byteLen fault) := by
  unfold settle
  split
  next id tags byteLen depth offset child =>
    split
    next hbalanced => exact WF.pure ⟨h, .kept (by rw [isLoose, hbalanced]; rfl)⟩
    next hbalanced =>
      have hloose : (view id tags byteLen depth offset child).isLoose = true := by
        simp only [isLoose, hbalanced, Bool.not_false]
      refine (wf_toLeaf h).mono ?_ fun _ hlong => ⟨hloose, hlong⟩
      exact fun leaf c' _ hleafed => ⟨hleafed.1, .copied hloose hleafed.2⟩
  next => exact WF.pure ⟨h, .kept rfl⟩
  next => exact WF.pure ⟨h, .kept rfl⟩

/-! ## Rebuilding -/

/-- A join with the tags of a rope of which the two sides are the content. -/
inductive Rebuilt (rope left right : Rope) (balanced : Bool) : Rope → Prop
  | join {id : NodeId} : left.content ++ right.content = rope.content →
    (rope.range = .asciiOnly → left.charLen + right.charLen = rope.byteLen) →
    Rebuilt rope left right balanced
      (.join id rope.tags (left.byteLen + right.byteLen) (max left.depth right.depth + 1) balanced
        left right)

namespace Rebuilt

variable {root : Rope} {balanced : Bool}

theorem tags_eq (h : Rebuilt rope left right balanced root) : root.tags = rope.tags := by
  cases h
  rfl

theorem content_eq (h : Rebuilt rope left right balanced root) : root.content = rope.content := by
  cases h with
  | join hcontent => exact hcontent

theorem wf (h : Rebuilt rope left right balanced root) (hwf : rope.WF) (hl : left.WF)
    (hr : right.WF) : root.WF := by
  cases h with
  | join hcontent =>
    have hlen : left.byteLen + right.byteLen = rope.byteLen := by
      rw [← hl.length_content, ← hr.length_content, ← hwf.length_content, ← hcontent,
        List.length_append]
    refine .join hl hr rfl (hlen ▸ hwf.byteLen_le) rfl fun ha => ?_
    exact (hwf.charLen_eq ha).trans hlen.symm

theorem children_eq (h : Rebuilt rope left right balanced root) :
    root.children = [left, right] := by
  cases h
  rfl

end Rebuilt

theorem wf_rebuild (h : c.live rope) (hl : c.live left) (hr : c.live right)
    (hcontent : left.content ++ right.content = rope.content) {depth : Nat}
    (hdepth : depth = max left.depth right.depth + 1) :
    RopeM.WF c (rope.rebuild left right depth policy)
      (fun root c' => c'.live root ∧
        Rebuilt rope left right (policy.isBalanced depth rope.byteLen) root)
      (fun fault => Oversize (left.charLen + right.charLen) fault ∨
        Mismatch rope.range rope.byteLen (left.charLen + right.charLen) fault) := by
  have hwf := c.wf h
  have hlen : left.byteLen + right.byteLen = rope.byteLen := by
    rw [← (c.wf hl).length_content, ← (c.wf hr).length_content, ← hwf.length_content, ← hcontent,
      List.length_append]
  refine ((wf_taggedJoin hl hr hdepth).faults ?_).bind ?_
  · intro fault hcases
    rcases hcases with (⟨-, hbytes⟩ | hchars) | hmismatch
    · exact absurd hwf.byteLen_le (Nat.not_le_of_lt (hlen ▸ hbytes))
    · exact .inl hchars
    · exact .inr (hlen ▸ hmismatch)
  · intro root c' hle hresult
    obtain ⟨hlive, ⟨-, -, hascii⟩⟩ := hresult
    rw [hlen] at hascii
    split
    next hchars =>
      have htags : (⟨rope.encoding, rope.range, left.charLen + right.charLen⟩ : Tags) = rope.tags :=
        congrArg (Tags.mk rope.encoding rope.range) hchars
      rw [htags] at hlive ⊢
      exact WF.pure ⟨hlive, .join hcontent hascii⟩
    next =>
      refine (wf_retag hlive).mono ?_ fun _ hbears => (hbears fun ha => ?_).elim
      · intro _ c'' _ hresult
        obtain ⟨hlive', ⟨⟩⟩ := hresult
        exact ⟨hlive', .join hcontent hascii⟩
      · exact (hwf.charLen_eq ha).trans hlen.symm

/-! ## Rebalancing -/

/-- The rope is a join. -/
def isJoin : Rope → Bool
  | join .. => true
  | leaf .. | view .. => false

theorem WF.depth_ne_zero (h : rope.WF) (hjoin : rope.isJoin = true) : rope.depth ≠ 0 := by
  cases h with
  | leaf | view => cases hjoin
  | join _ _ _ _ hdepth => exact hdepth ▸ Nat.succ_ne_zero _

theorem isJoin_of_mem_parts (h : piece ∈ rope.parts) : piece.isJoin = false := by
  induction rope with
  | join id tags byteLen depth balanced left right ihl ihr =>
    rcases List.mem_append.mp h with h | h
    · exact ihl h
    · exact ihr h
  | leaf | view =>
    simp only [parts] at h
    split at h
    · cases h
    · rw [List.mem_singleton.mp h]
      rfl

theorem tips_of_isJoin (h : rope.isJoin = false) : rope.tips = [rope] := by
  cases rope with
  | leaf | view => rfl
  | join => cases h

namespace Settled

theorem isJoin {settled : Rope} (h : Settled piece settled) (hpiece : piece.isJoin = false) :
    settled.isJoin = false := by
  cases h with
  | kept => exact hpiece
  | copied _ hleafed =>
    obtain ⟨_, _, _, _, _, rfl⟩ := hleafed.exists_leaf
    rfl

theorem flatMap_tips {pieces settled : List Rope} (h : List.Forall₂ Settled pieces settled)
    (hpieces : ∀ piece ∈ pieces, piece.isJoin = false) : settled.flatMap tips = settled := by
  induction h with
  | nil => rfl
  | cons hsettled _ ih =>
    obtain ⟨hpiece, hpieces⟩ := List.forall_mem_cons.mp hpieces
    rw [List.flatMap_cons, tips_of_isJoin (hsettled.isJoin hpiece), ih hpieces]
    rfl

end Settled

/-- The depth of the tree that pairing makes of the pieces. -/
def pairedDepth (rope : Rope) : Nat :=
  match rounds (max · · + 1) rope.parts.length (rope.parts.map settledDepth) with
  | [left, right] => max left right + 1
  | _ => rope.depth

/-- The number of characters of the tree that pairing makes of the pieces. -/
def pairedCharLen (rope : Rope) : Nat := (rope.parts.map settledCharLen).sum

/-- What rebalancing makes: the rope itself, or a new root over two ropes of which `P` holds. -/
inductive Rebalanced (P : Rope → Prop) (policy : BalancePolicy) (rope : Rope) : Rope → Prop
  | same : (rope.isJoin = true → rope.depth ≤ rope.pairedDepth) → Rebalanced P policy rope rope
  | rebuilt {left right root : Rope} : rope.isJoin = true → P left → P right →
    max left.depth right.depth + 1 = rope.pairedDepth → rope.pairedDepth < rope.depth →
    Rebuilt rope left right (policy.isBalanced rope.pairedDepth rope.byteLen) root →
    Rebalanced P policy rope root

/-- The views to be copied are short enough, and if the root is to be made anew with an ASCII-only
range, then the pieces have as many characters as octets. -/
structure Rebuildable (rope : Rope) : Prop where
  fits : ∀ piece ∈ rope.parts, piece.isLoose = true → piece.byteLen ≤ Size.maxBuffer
  ascii : rope.pairedDepth < rope.depth → rope.range = .asciiOnly →
    rope.pairedCharLen = rope.byteLen

/-- How rebalancing faults. -/
inductive Unbuildable (rope : Rope) (fault : Fault) : Prop
  | long {piece : Rope} : piece ∈ rope.parts → piece.isLoose = true →
    Overlong piece.byteLen fault → Unbuildable rope fault
  | chars : Oversize rope.pairedCharLen fault → Unbuildable rope fault
  | ascii : rope.pairedDepth < rope.depth →
    Mismatch rope.range rope.byteLen rope.pairedCharLen fault → Unbuildable rope fault

theorem Unbuildable.not_rebuildable {fault : Fault} (h : Unbuildable rope fault)
    (hchars : rope.pairedCharLen ≤ Size.max) : ¬rope.Rebuildable := by
  intro hr
  cases h with
  | long hmem hloose hlong => exact absurd (hr.fits _ hmem hloose) (Nat.not_le_of_lt hlong.2)
  | chars hover => exact absurd hchars (Nat.not_le_of_lt hover.2)
  | ascii hdepth hmismatch => exact hmismatch.2.2 (hr.ascii hdepth hmismatch.2.1)

/-- The views to be copied are short enough, and the sums of characters that are formed on pairing
are sizes. -/
structure Pairable (rope : Rope) : Prop where
  fits : ∀ piece ∈ rope.parts, piece.isLoose = true → piece.byteLen ≤ Size.maxBuffer
  sums : RoundSums rope.parts.length (rope.parts.map settledCharLen)

/-- The rope itself, or a root over what becomes of its pieces; and why nothing was in the way. -/
structure Regrouped (P : Rope → Prop) (policy : BalancePolicy) (rope new : Rope) : Prop where
  rebalanced : Rebalanced P policy rope new
  settled : new = rope ∨ List.Forall₂ Settled rope.parts new.tips
  rebuildable : rope.isJoin = true → rope.Rebuildable
  pairable : rope.isJoin = true → rope.Pairable

theorem wf_settleParts {P : Rope → Prop}
    (hsettle : ∀ piece ∈ rope.parts, ∀ settled, Settled piece settled → P settled)
    (h : c.live rope) :
    RopeM.WF c (rope.parts.mapM settle)
      (fun settled c' => (∀ piece ∈ settled, piece.Ready P c') ∧
        List.Forall₂ Settled rope.parts settled)
      (fun fault => ∃ piece ∈ rope.parts, piece.isLoose = true ∧ Overlong piece.byteLen fault) := by
  have hlive {piece : Rope} (hmem : piece ∈ rope.parts) : c.live piece :=
    c.live_of_within h (mem_parts hmem).1
  refine (WF.mapM (P := fun piece settled c' => c'.live settled ∧ Settled piece settled)
    (fun hle hq => ⟨hle.live hq.1, hq.2⟩) fun piece hmem c' hle => ?_).results ?_
  · exact (wf_settle (hle.live (hlive hmem))).faults fun fault hlong => ⟨piece, hmem, hlong⟩
  · intro settled c' hle hall
    refine ⟨fun piece hmem => ?_, hall.imp fun _ _ h => h.2⟩
    obtain ⟨part, hpart, hpiece, hsettled⟩ := hall.exists_left hmem
    refine ⟨hpiece, hsettle _ hpart _ hsettled, ?_⟩
    rw [hsettled.byteLen_eq (c.wf (hlive hpart))]
    exact (mem_parts hpart).2

/-- What pairing makes of the settled pieces of a rope. -/
structure Paired (rope : Rope) (settled paired : List Rope) : Prop where
  pieces : List.Forall₂ Settled rope.parts settled
  depth_eq : rope.pairedDepth = match paired with
    | [left, right] => max left.depth right.depth + 1
    | _ => rope.depth
  charLen_eq : (paired.map charLen).sum = rope.pairedCharLen
  content_eq : paired.flatMap content = rope.content
  tips_eq : paired.flatMap tips = settled

/-- Joins add up depths, characters, contents and tips, and so does pairing. -/
theorem paired_of_measures (hwf : rope.WF) {settled paired : List Rope}
    (hsettled : List.Forall₂ Settled rope.parts settled)
    (h : ∀ {α : Type} (measure : Rope → α) (op : α → α → α), Adds measure op →
      paired.map measure = rounds op rope.parts.length (settled.map measure)) :
    Paired rope settled paired where
  pieces := hsettled
  depth_eq := by
    rw [pairedDepth, ← Settled.map_depth hsettled, ← h depth _ adds_depth]
    match paired with
    | [] | [_] | [_, _] | _ :: _ :: _ :: _ => rfl
  charLen_eq := by
    rw [h charLen _ adds_charLen, sum_rounds, Settled.map_charLen hsettled, pairedCharLen]
  content_eq := by
    rw [List.flatMap_def, h content _ adds_content, flatten_rounds, ← List.flatMap_def,
      Settled.flatMap_content hsettled, hwf.content_parts]
  tips_eq := by
    rw [List.flatMap_def, h tips _ adds_tips, flatten_rounds, ← List.flatMap_def,
      Settled.flatMap_tips hsettled fun _ => isJoin_of_mem_parts]

theorem wf_rebuildPair {P : Rope → Prop} (hjoin : rope.isJoin = true) (h : c.live rope)
    (hpairable : rope.Pairable) {settled : List Rope} (hl : left.Ready P c) (hr : right.Ready P c)
    (hpaired : Paired rope settled [left, right]) (hgain : rope.pairedDepth < rope.depth) :
    RopeM.WF c
      (do
        let root ← rope.rebuild left right (max left.depth right.depth + 1) policy
        RopeM.emit (.rebalanceDepth root.depth)
        RopeM.emit (.ropeRebalanced root.byteLen)
        return root)
      (fun new c' => c'.live new ∧ Regrouped P policy rope new) (Unbuildable rope) := by
  have hdepth : rope.pairedDepth = max left.depth right.depth + 1 := hpaired.depth_eq
  have hsum : left.charLen + right.charLen = rope.pairedCharLen := by
    simpa using hpaired.charLen_eq
  have hcontent : left.content ++ right.content = rope.content := by
    simpa using hpaired.content_eq
  have htips : left.tips ++ right.tips = settled := by simpa using hpaired.tips_eq
  refine ((wf_rebuild h hl.live hr.live hcontent rfl).faults ?_).bind ?_
  · intro fault hcases
    rcases hcases with hover | hmismatch
    · exact .chars (hsum ▸ hover)
    · exact .ascii hgain (hsum ▸ hmismatch)
  · intro root c₁ hle₁ hresult
    obtain ⟨hlive, hrebuilt⟩ := hresult
    refine WF.emit fun c₂ hle₂ => WF.emit fun c₃ hle₃ => WF.pure ?_
    refine ⟨hle₃.live (hle₂.live hlive), ⟨?_, .inr ?_, fun _ => ⟨hpairable.fits, ?_⟩,
      fun _ => hpairable⟩⟩
    · exact .rebuilt hjoin hl.holds hr.holds hdepth.symm hgain (hdepth ▸ hrebuilt)
    · cases hrebuilt
      rw [tips, htips]
      exact hpaired.pieces
    · intro _ hascii
      cases hrebuilt with
      | join _ hlengths => exact hsum ▸ hlengths hascii

theorem wf_rebuildPaired {P : Rope → Prop} (hjoin : rope.isJoin = true) (h : c.live rope)
    (hpairable : rope.Pairable) {settled paired : List Rope}
    (hready : ∀ piece ∈ paired, piece.Ready P c) (hpaired : Paired rope settled paired) :
    RopeM.WF c
      (match paired with
      | [left, right] => do
        let depth := max left.depth right.depth + 1
        if rope.depth ≤ depth then
          RopeM.emit (.rebalanceDepth rope.depth)
          RopeM.emit (.treeKept depth)
          return rope
        else
          let root ← rope.rebuild left right depth policy
          RopeM.emit (.rebalanceDepth root.depth)
          RopeM.emit (.ropeRebalanced root.byteLen)
          return root
      | _ => return rope)
      (fun new c' => c'.live new ∧ Regrouped P policy rope new)
      (fun fault => Unbuildable rope fault ∧ rope.pairedDepth < rope.depth) := by
  have hkept (hge : rope.depth ≤ rope.pairedDepth) : Regrouped P policy rope rope :=
    ⟨.same fun _ => hge, .inl rfl,
      fun _ => ⟨hpairable.fits, fun hlt => absurd hlt (Nat.not_lt_of_le hge)⟩, fun _ => hpairable⟩
  have hdepth := hpaired.depth_eq
  split
  next left right =>
    dsimp only at hdepth ⊢
    split
    next hge =>
      refine WF.emit fun c₁ hle₁ => WF.emit fun c₂ hle₂ => WF.pure ?_
      exact ⟨hle₂.live (hle₁.live h), hkept (hdepth ▸ hge)⟩
    next hlt =>
      have hgain : rope.pairedDepth < rope.depth := hdepth ▸ Nat.lt_of_not_le hlt
      have hl := hready left (List.mem_cons_self ..)
      have hr := hready right (List.mem_cons_of_mem _ (List.mem_cons_self ..))
      exact (wf_rebuildPair hjoin h hpairable hl hr hpaired hgain).faults
        fun fault hfault => ⟨hfault, hgain⟩
  next hother =>
    split at hdepth
    next => exact (hother _ _ rfl).elim
    next => exact WF.pure ⟨h, hkept (Nat.le_of_eq hdepth.symm)⟩

theorem wf_regroup_join {P : Rope → Prop} (hP : Closed policy P) (h : c.live rope)
    (hsettle : ∀ piece ∈ rope.parts, ∀ settled, Settled piece settled → P settled)
    (hjoin : rope.isJoin = true) :
    RopeM.WF c (rope.rebalance policy)
      (fun new c' => c'.live new ∧ Regrouped P policy rope new)
      (fun fault => Unbuildable rope fault ∧ (rope.depth ≤ rope.pairedDepth → ¬rope.Pairable)) := by
  have hwf := c.wf h
  unfold rebalance
  cases rope with
  | leaf | view => cases hjoin
  | join id tags byteLen depth balanced left right =>
    simp only [pieces_eq]
    generalize hrope : join id tags byteLen depth balanced left right = rope at *
    refine WF.emit fun c₁ hle₁ => ?_
    refine ((wf_settleParts hsettle (hle₁.live h)).faults ?_).bind
      fun settled c₂ hle₂ hresult => ?_
    · rintro fault ⟨piece, hmem, hloose, hlong⟩
      exact ⟨.long hmem hloose hlong, fun _ hpairable =>
        Nat.not_le_of_lt hlong.2 (hpairable.fits piece hmem hloose)⟩
    obtain ⟨hready, hsettled⟩ := hresult
    refine WF.emit fun c₃ hle₃ => ?_
    have hmax : (settled.map Rope.byteLen).sum ≤ Size.max := by
      rw [sum_byteLen fun piece hmem => c₂.wf (hready piece hmem).live,
        Settled.flatMap_content hsettled, hwf.content_parts, hwf.length_content]
      exact hwf.byteLen_le
    have hready := fun piece hmem => (hready piece hmem).mono hle₃
    refine ((wf_pairUp hP _ hready hmax).faults ?_).bind ?_
    · rintro fault ⟨hfault, hsums⟩
      rw [← hsettled.length_eq, Settled.map_charLen hsettled] at hsums
      refine ⟨.chars ⟨hfault, Nat.lt_of_not_le fun hle => hsums (roundSums_of_sum_le _ hle)⟩, ?_⟩
      exact fun _ hpairable => hsums hpairable.sums
    · intro paired c₄ hle₄ hresult
      obtain ⟨hready', hsums, hmeasure⟩ := hresult
      have hlive := hle₄.live (hle₃.live (hle₂.live (hle₁.live h)))
      rw [← hsettled.length_eq] at hsums hmeasure
      rw [Settled.map_charLen hsettled] at hsums
      have hfits := Settled.byteLen_le hsettled fun piece hmem => hwf.of_within (mem_parts hmem).1
      refine (wf_rebuildPaired hjoin hlive ⟨hfits, hsums⟩ hready'
        (paired_of_measures hwf hsettled hmeasure)).faults fun fault hfault => ?_
      exact ⟨hfault.1, fun hge => absurd hfault.2 (Nat.not_lt_of_le hge)⟩

theorem wf_regroup {P : Rope → Prop} (hP : Closed policy P) (h : c.live rope)
    (hsettle : ∀ piece ∈ rope.parts, ∀ settled, Settled piece settled → P settled) :
    RopeM.WF c (rope.rebalance policy)
      (fun new c' => c'.live new ∧ Regrouped P policy rope new)
      (fun fault => rope.isJoin = true ∧ Unbuildable rope fault ∧
        (rope.depth ≤ rope.pairedDepth → ¬rope.Pairable)) := by
  cases hjoin : rope.isJoin with
  | true => exact (wf_regroup_join hP h hsettle hjoin).faults fun _ hfault => ⟨rfl, hfault⟩
  | false =>
    have hsame : Regrouped P policy rope rope := by
      refine ⟨.same fun htrue => ?_, .inl rfl, fun htrue => ?_, fun htrue => ?_⟩ <;>
        exact absurd (hjoin.symm.trans htrue) nofun
    cases rope with
    | leaf | view => exact WF.pure ⟨h, hsame⟩
    | join => cases hjoin

theorem wf_regroup_any (h : c.live rope) (policy : BalancePolicy) :
    RopeM.WF c (rope.rebalance policy)
      (fun new c' => c'.live new ∧ Regrouped (fun _ => True) policy rope new)
      (fun fault => rope.isJoin = true ∧ Unbuildable rope fault ∧
        (rope.depth ≤ rope.pairedDepth → ¬rope.Pairable)) :=
  wf_regroup (fun _ _ _ _ _ _ => trivial) h fun _ _ _ _ => trivial

theorem wf_rebalance {P : Rope → Prop} (hP : Closed policy P) (h : c.live rope)
    (hsettle : ∀ piece ∈ rope.parts, ∀ settled, Settled piece settled → P settled) :
    RopeM.WF c (rope.rebalance policy)
      (fun new c' => c'.live new ∧ Rebalanced P policy rope new ∧
        (rope.isJoin = true → rope.Rebuildable))
      (fun fault => rope.isJoin = true ∧ Unbuildable rope fault) :=
  (wf_regroup hP h hsettle).mono
    (fun _ _ _ hq => ⟨hq.1, hq.2.rebalanced, hq.2.rebuildable⟩)
    fun _ hfault => ⟨hfault.1, hfault.2.1⟩

/-- A property that ropes of the same content inherit, and the nodes under a rope. -/
structure Family (P : Rope → Prop) : Prop where
  within : ∀ {rope node}, P rope → node.Within rope → P node
  concat : ∀ policy, Closed policy P
  leaf : ∀ {rope leaf}, P rope → Leafed rope leaf → P leaf
  rebuild : ∀ {rope left right balanced root}, P rope → P left → P right →
    Rebuilt rope left right balanced root → P root

theorem Family.settle {P : Rope → Prop} (hP : Family P) (h : P rope) :
    ∀ piece ∈ rope.parts, ∀ settled, Settled piece settled → P settled := by
  intro piece hmem settled hsettled
  have hpiece := hP.within h (mem_parts hmem).1
  cases hsettled with
  | kept => exact hpiece
  | copied _ hleafed => exact hP.leaf hpiece hleafed

theorem Ready.leaf {P : Rope → Prop} (hP : Family P) (h : piece.Ready P c) {leaf : Rope}
    (hlive : c'.live leaf) (hleafed : Leafed piece leaf) : leaf.Ready P c' := by
  refine ⟨hlive, hP.leaf h.holds hleafed, ?_⟩
  rw [hleafed.byteLen_eq (c.wf h.live)]
  exact h.byteLen_ne

theorem settledCharLen_le (h : piece.WF) (hchars : piece.charLen ≤ piece.byteLen) :
    piece.settledCharLen ≤ piece.byteLen := by
  unfold settledCharLen
  split
  · exact h.length_content ▸ Encoding.charLen_scan_le piece.encoding piece.content.toArray
  · exact hchars

theorem pairedCharLen_le (h : rope.WF)
    (hchars : ∀ piece ∈ rope.parts, piece.charLen ≤ piece.byteLen) :
    rope.pairedCharLen ≤ rope.byteLen := by
  have hwf {piece : Rope} (hmem : piece ∈ rope.parts) : piece.WF := h.of_within (mem_parts hmem).1
  rw [← h.sum_byteLen_parts, pairedCharLen]
  exact List.sum_le_sum fun piece hmem => settledCharLen_le (hwf hmem) (hchars piece hmem)

namespace Rebalanced

variable {P : Rope → Prop} {new : Rope}

theorem tags_eq (h : Rebalanced P policy rope new) : new.tags = rope.tags := by
  cases h with
  | same => rfl
  | rebuilt _ _ _ _ _ hrebuilt => exact hrebuilt.tags_eq

theorem content_eq (h : Rebalanced P policy rope new) : new.content = rope.content := by
  cases h with
  | same => rfl
  | rebuilt _ _ _ _ _ hrebuilt => exact hrebuilt.content_eq

theorem depth_le (h : Rebalanced P policy rope new) : new.depth ≤ rope.depth := by
  cases h with
  | same => exact Nat.le_refl _
  | rebuilt _ _ _ hdepth hgain hrebuilt =>
    cases hrebuilt with
    | join => exact Nat.le_of_lt (Nat.lt_of_le_of_lt (Nat.le_of_eq hdepth) hgain)

theorem depth_le_pairedDepth (h : Rebalanced P policy rope new) (hjoin : rope.isJoin = true) :
    new.depth ≤ rope.pairedDepth := by
  cases h with
  | same hle => exact hle hjoin
  | rebuilt _ _ _ hdepth _ hrebuilt =>
    cases hrebuilt with
    | join => exact Nat.le_of_eq hdepth

theorem holds (h : Rebalanced P policy rope new) (hP : Family P) (hrope : P rope) : P new := by
  cases h with
  | same => exact hrope
  | rebuilt _ hl hr _ _ hrebuilt => exact hP.rebuild hrope hl hr hrebuilt

end Rebalanced

end ByteRope.Rope
