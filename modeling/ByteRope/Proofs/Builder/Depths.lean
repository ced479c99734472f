import Mathlib.Data.List.Induction
import ByteRope.Proofs.Builder.Composing
import ByteRope.Proofs.Rope.Heights

/-!
# How deep builders build

Pieces that are merged into one leaf make up a batch (`Builder.batches`), and the forest takes each
batch at a depth of its own (`Builder.takenDepth`). The depth of what is built is that of the tree
that a binary counter makes of the batches (`Builder.treeDepth`). A piece that was marked balanced
is taken as deep as it is, whatever it was marked by, and the joins above it come on top. So what is
built keeps to the bound if the pieces leave a level a bit to the joins, but not always.
-/

namespace ByteRope.Builder

open Rope (Concatenated Leafed Rebalanced Scanned)

variable {P : Rope → Prop} {encoding : Encoding} {config : Config} {strategy : Strategy}
  {policy : BalancePolicy} {builder builder' : Builder} {piece prepared rope rope' l r : Rope}
  {pieces batch : List Rope} {found : List (List Rope)} {depths left right : List Nat}
  {digits digits' bound : Nat}

/-! ## Trees -/

/-- The depth of the tree over parts of these depths that leaves no place free before the last part.
There are places for two to the power of `digits` parts. Flattening leaves nothing of a tree without
free places but a leaf. -/
def spread (strategy : Strategy) : Nat → List Nat → Nat
  | 0, depths => depths.headD 0
  | digits + 1, depths =>
    if depths.length ≤ 2 ^ digits then spread strategy digits depths
    else if strategy = .flatten ∧ depths.length = 2 ^ (digits + 1) then 0
    else max (spread strategy digits (depths.take (2 ^ digits)))
      (spread strategy digits (depths.drop (2 ^ digits))) + 1

/-- The depth of the tree that a binary counter makes of parts of these depths. -/
def treeDepth (strategy : Strategy) (depths : List Nat) : Nat :=
  spread strategy (Nat.clog 2 depths.length) depths

/-- Places that stay free make no difference. -/
theorem spread_of_le (h : depths.length ≤ 2 ^ digits) (hle : digits ≤ digits') :
    spread strategy digits' depths = spread strategy digits depths := by
  induction digits', hle using Nat.le_induction with
  | base => rfl
  | succ digits' hle ih =>
    have hle' := Nat.le_trans h (Nat.pow_le_pow_right (Nat.zero_lt_two) hle)
    rw [spread, if_pos hle', ih]

theorem spread_eq_treeDepth (h : depths.length ≤ 2 ^ digits) :
    spread strategy digits depths = treeDepth strategy depths :=
  spread_of_le (Nat.le_pow_clog Nat.one_lt_two _) (Nat.clog_le_of_le_pow h)

theorem treeDepth_singleton (depth : Nat) : treeDepth strategy [depth] = depth := by
  have hplaces : [depth].length ≤ 2 ^ 0 := Nat.le_refl 1
  rw [← spread_eq_treeDepth hplaces]
  rfl

/-- A tree without free places stands on the left of fewer or equally many parts. -/
theorem treeDepth_append (strategy : Strategy) (hleft : ∃ digit, left.length = 2 ^ digit)
    (hright : right ≠ []) (hle : right.length ≤ left.length) :
    treeDepth strategy (left ++ right) =
      if strategy = .flatten ∧ right.length = left.length then 0
      else max (treeDepth strategy left) (treeDepth strategy right) + 1 := by
  obtain ⟨digits, hdigits⟩ := hleft
  have hpos := List.length_pos_of_ne_nil hright
  have hpow : 2 ^ (digits + 1) = left.length + left.length := by
    rw [Nat.pow_succ, Nat.mul_two, hdigits]
  have hlength : (left ++ right).length = left.length + right.length := List.length_append
  have hplaces : (left ++ right).length ≤ 2 ^ (digits + 1) := by omega
  have hmore : ¬(left ++ right).length ≤ 2 ^ digits := by omega
  have hfull : (left ++ right).length = 2 ^ (digits + 1) ↔ right.length = left.length := by omega
  rw [← spread_eq_treeDepth hplaces, spread, if_neg hmore]
  simp only [hfull]
  rw [← hdigits, List.take_left, List.drop_left, hdigits,
    spread_eq_treeDepth (Nat.le_of_eq hdigits), spread_eq_treeDepth (hdigits ▸ hle)]

/-- Seven parts that are flattened make leaves of four, of two and of one. -/
example : treeDepth .flatten [0, 0, 0, 0, 0, 0, 0] = 2 := by decide

/-- The joins add a level for every doubling of the parts. -/
theorem treeDepth_le (strategy : Strategy) (h : ∀ depth ∈ depths, depth ≤ bound) :
    treeDepth strategy depths ≤ bound + Nat.clog 2 depths.length := by
  suffices hspread : ∀ digits depths, depths.length ≤ 2 ^ digits →
      (∀ depth ∈ depths, depth ≤ bound) → spread strategy digits depths ≤ bound + digits from
    hspread _ _ (Nat.le_pow_clog Nat.one_lt_two _) h
  intro digits depths hlength h
  fun_induction spread strategy digits depths with
  | case1 depths =>
    cases depths with
    | nil => exact Nat.zero_le _
    | cons depth => exact h depth (List.mem_cons_self ..)
  | case2 digits depths hle ih => exact Nat.le_succ_of_le (ih hle h)
  | case3 => exact Nat.zero_le _
  | case4 digits depths hlt hfull ihl ihr =>
    rw [Nat.pow_succ, Nat.mul_two] at hlength
    have hleft := ihl (List.length_take_le ..) fun depth hmem => h depth (List.mem_of_mem_take hmem)
    have hright := ihr (by rw [List.length_drop]; omega)
      fun depth hmem => h depth (List.mem_of_mem_drop hmem)
    omega

/-! ## Batches -/

instance (config : Config) (piece : Rope) : Decidable (Improves config piece) :=
  inferInstanceAs (Decidable (_ ∧ _ ∧ _))

/-- The depth at which the forest takes a piece. -/
def takenDepth (config : Config) (piece : Rope) : Nat :=
  if piece.isBalanced = true ∨ config.rebalance = .never then piece.depth
  else if config.rebalance = .rebalance ∧ Improves config piece then piece.pairedDepth
  else 0

/-- The piece is merged into the leaf that the batch makes. -/
def Meets (small : Nat) (batch : List Rope) (piece : Rope) : Prop :=
  (∀ other ∈ batch, other.encoding = piece.encoding) ∧
    (batch.map Rope.byteLen).sum + piece.byteLen ≤ small

instance (small : Nat) (batch : List Rope) (piece : Rope) : Decidable (Meets small batch piece) :=
  inferInstanceAs (Decidable (_ ∧ _))

/-- The batches with a piece more, the last batch first. -/
def addPiece (small : Nat) (found : List (List Rope)) (piece : Rope) : List (List Rope) :=
  if piece.byteLen = 0 then found
  else
    match found with
    | [] => [[piece]]
    | last :: earlier =>
      if Meets small last piece then (last ++ [piece]) :: earlier else [piece] :: last :: earlier

/-- The pieces that are merged into one leaf, and those that are not merged, each alone. -/
def batches (small : Nat) (pieces : List Rope) : List (List Rope) :=
  (pieces.foldl (addPiece small) []).reverse

/-- The depth at which the forest takes a batch: more than one piece are merged into a leaf. -/
def batchDepth (config : Config) : List Rope → Nat
  | [piece] => takenDepth config piece
  | _ => 0

/-- The depths at which the forest takes the batches of the pieces. -/
def batchDepths (config : Config) (pieces : List Rope) : List Nat :=
  (batches config.smallConcatBytes pieces).map (batchDepth config)

theorem takenDepth_le (config : Config) (piece : Rope) : takenDepth config piece ≤ piece.depth := by
  unfold takenDepth
  split
  next => exact Nat.le_refl _
  next =>
    split
    next himproves => exact Nat.le_of_lt himproves.2.2.1
    next => exact Nat.zero_le _

/-- No batch is taken at a greater depth than some piece. -/
theorem batchDepth_le (h : ∀ piece ∈ batch, takenDepth config piece ≤ bound) :
    batchDepth config batch ≤ bound := by
  unfold batchDepth
  split
  next piece => exact h piece (List.mem_singleton_self _)
  next => exact Nat.zero_le _

theorem forall_mem_addPiece {small : Nat} (h : ∀ batch ∈ found, batch ⊆ pieces)
    (hpiece : piece ∈ pieces) : ∀ batch ∈ addPiece small found piece, batch ⊆ pieces := by
  have hsingle : [piece] ⊆ pieces := List.cons_subset.mpr ⟨hpiece, List.nil_subset _⟩
  unfold addPiece
  split
  next => exact h
  next =>
    split
    next => exact List.forall_mem_singleton.mpr hsingle
    next last earlier =>
      obtain ⟨hlast, hearlier⟩ := List.forall_mem_cons.mp h
      split
      next => exact List.forall_mem_cons.mpr ⟨List.append_subset.mpr ⟨hlast, hsingle⟩, hearlier⟩
      next => exact List.forall_mem_cons.mpr ⟨hsingle, h⟩

theorem subset_of_mem_batches {small : Nat} (h : batch ∈ batches small pieces) :
    batch ⊆ pieces := by
  suffices hall : ∀ batch ∈ pieces.foldl (addPiece small) [], batch ⊆ pieces from
    hall batch (List.mem_reverse.mp h)
  clear h
  induction pieces using List.reverseRecOn with
  | nil => nofun
  | append_singleton pieces piece ih =>
    rw [List.foldl_append]
    refine forall_mem_addPiece (fun batch hmem => ?_) ?_
    · exact List.subset_append_of_subset_left _ (ih batch hmem)
    · exact List.mem_append_right _ (List.mem_singleton_self _)

theorem batchDepths_le (h : ∀ piece ∈ pieces, takenDepth config piece ≤ bound) :
    ∀ depth ∈ batchDepths config pieces, depth ≤ bound := by
  intro depth hmem
  obtain ⟨batch, hbatch, rfl⟩ := List.mem_map.mp hmem
  exact batchDepth_le fun piece hpiece => h piece (subset_of_mem_batches hbatch hpiece)

/-! ## Forests -/

/-- The rope is a tree over parts that the forest takes at these depths. A part alone counts as
balanced, whatever its depth is. -/
structure Spans (config : Config) (depths : List Nat) (rope : Rope) : Prop where
  wf : rope.WF
  ne_nil : depths ≠ []
  length_le : depths.length ≤ rope.byteLen
  depth_eq : rope.depth = treeDepth config.rebalance depths
  balanced_iff : rope.isBalanced = true ↔
    depths.length ≤ 1 ∨ rope.depth ≤ config.policy.depthLimit rope.byteLen

theorem Spans.byteLen_ne (h : Spans config depths rope) : rope.byteLen ≠ 0 :=
  Nat.ne_of_gt (Nat.lt_of_lt_of_le (List.length_pos_of_ne_nil h.ne_nil) h.length_le)

theorem Spans.concat (hl : Spans config left l) (hr : Spans config right r)
    (h : Concatenated l r config.policy rope)
    (hdepth : treeDepth config.rebalance (left ++ right) =
      max (treeDepth config.rebalance left) (treeDepth config.rebalance right) + 1) :
    Spans config (left ++ right) rope := by
  have hwf := h.wf hl.wf hr.wf
  have hleft := List.length_pos_of_ne_nil hl.ne_nil
  have hright := List.length_pos_of_ne_nil hr.ne_nil
  have hmore : ¬(left ++ right).length ≤ 1 := by rw [List.length_append]; omega
  cases h.joined hl.byteLen_ne hr.byteLen_ne
  refine ⟨hwf, List.append_ne_nil_of_left_ne_nil hl.ne_nil _, ?_, ?_, ?_⟩
  · rw [List.length_append]
    exact Nat.add_le_add hl.length_le hr.length_le
  · rw [hdepth, ← hl.depth_eq, ← hr.depth_eq]
    rfl
  · rw [or_iff_right hmore]
    exact decide_eq_true_iff

theorem joins_spans (config : Config) : Joins config.policy (Spans config) := by
  intro left right l r rope hlt hpow hl hr h
  refine hl.concat hr h ?_
  rw [treeDepth_append _ hpow hr.ne_nil (Nat.le_of_lt hlt), if_neg fun hfull => ?_]
  exact Nat.ne_of_lt hlt hfull.2

theorem merges_spans (config : Config) : Merges config (Spans config) := by
  intro left right l r rope hlength hpow hl hr h
  have hdepth := treeDepth_append config.rebalance hpow hr.ne_nil (Nat.le_of_eq hlength.symm)
  cases h with
  | joined hflatten hconcat =>
    exact hl.concat hr hconcat (hdepth.trans (if_neg fun h => hflatten h.1))
  | flattened hflatten hconcat hleafed =>
    have hwf := hconcat.wf hl.wf hr.wf
    refine ⟨hleafed.wf hwf, List.append_ne_nil_of_left_ne_nil hl.ne_nil _, ?_, ?_, ?_⟩
    · rw [List.length_append, hleafed.byteLen_eq hwf, hconcat.byteLen_eq]
      exact Nat.add_le_add hl.length_le hr.length_le
    · rw [hleafed.depth_eq, hdepth, if_pos ⟨hflatten, hlength.symm⟩]
    · rw [hleafed.depth_eq]
      exact iff_of_true hleafed.isBalanced (.inr (Nat.zero_le _))

/-! ## Pieces -/

theorem Prepared.depth_eq (h : Prepared P config piece prepared) :
    prepared.depth = takenDepth config piece := by
  unfold takenDepth
  cases h with
  | kept hkept => rw [if_pos hkept]
  | rebuilt hunbalanced hstrategy hrebalanced _ hbalanced =>
    have himproves := (isBalanced_iff_improves hunbalanced hrebalanced).mp hbalanced
    rw [if_neg (by simp [hunbalanced, hstrategy]), if_pos ⟨hstrategy, himproves⟩]
    cases hrebalanced with
    | same hkept => exact absurd himproves.2.1 (Nat.not_lt_of_le (hkept himproves.1))
    | rebuilt _ _ _ hdepth _ hrebuilt =>
      cases hrebuilt
      exact hdepth
  | unbalanced hunbalanced hstrategy hrebalanced _ hbalanced hleafed =>
    have hworse : ¬Improves config piece := fun himproves => by
      rw [(isBalanced_iff_improves hunbalanced hrebalanced).mpr himproves] at hbalanced
      cases hbalanced
    rw [if_neg (by simp [hunbalanced, hstrategy]), if_neg fun h => hworse h.2, hleafed.depth_eq]
  | flattened hunbalanced hstrategy hleafed =>
    rw [if_neg (by simp [hunbalanced, hstrategy]), if_neg (by simp [hstrategy]), hleafed.depth_eq]

theorem Prepared.isBalanced (h : Prepared P config piece prepared)
    (hstrategy : config.rebalance ≠ .never) : prepared.isBalanced = true := by
  cases h with
  | kept hkept => exact hkept.resolve_right hstrategy
  | rebuilt _ _ _ _ hbalanced => exact hbalanced
  | unbalanced _ _ _ _ _ hleafed | flattened _ _ hleafed => exact hleafed.isBalanced

theorem Appended.bears (h : Appended P builder piece builder') (hP : ∀ rope, P rope → rope.WF)
    (hstrategy : builder.config.rebalance ≠ .never) (hpiece : piece.WF) (hne : piece.byteLen ≠ 0)
    (hforest : Bears (Spans builder.config) depths builder.forest) :
    Bears (Spans builder.config) (depths ++ [takenDepth builder.config piece]) builder'.forest := by
  cases h with
  | extend hnever => exact absurd hnever hstrategy
  | @carry prepared forest _ hprepared hcarried =>
    have hcomposed := hprepared.composed hP (.piece hpiece hne)
    refine hcarried.bears (merges_spans builder.config) ?_ hforest
    refine ⟨hcomposed.wf, List.cons_ne_nil _ _, Nat.pos_of_ne_zero hcomposed.byteLen_ne, ?_, ?_⟩
    · rw [treeDepth_singleton, hprepared.depth_eq]
    · exact iff_of_true (hprepared.isBalanced hstrategy) (.inl (Nat.le_refl 1))

/-- The rope is what the pieces of a batch are merged into. -/
structure Batched (config : Config) (batch : List Rope) (rope : Rope) : Prop where
  composed : Rope.Composed batch rope
  encoding_eq : ∀ piece ∈ batch, piece.encoding = rope.encoding
  depth_eq : takenDepth config rope = batchDepth config batch

namespace Batched

theorem ne_nil (h : Batched config batch rope) : batch ≠ [] := by
  rintro rfl
  exact h.composed.byteLen_ne h.composed.byteLen_eq

theorem single (hpiece : piece.WF) (hne : piece.byteLen ≠ 0) : Batched config [piece] piece :=
  ⟨.piece hpiece hne, List.forall_mem_singleton.mpr rfl, rfl⟩

theorem merge (h : Batched config batch rope) (hpiece : piece.WF) (hne : piece.byteLen ≠ 0)
    (hencoding : rope.encoding = piece.encoding) {joined leaf : Rope}
    (hconcat : Concatenated rope piece policy joined) (hleafed : Leafed joined leaf) :
    Batched config (batch ++ [piece]) leaf := by
  have hleaf : leaf.encoding = rope.encoding := by
    have hjoined := hconcat.joined h.composed.byteLen_ne hne
    rw [hleafed.encoding_eq, hjoined.encoding_eq, Rope.joinedTags, ← hencoding,
      Encoding.compatible_self]
  refine ⟨(h.composed.join (.piece hpiece hne) hconcat).leafed hleafed, ?_, ?_⟩
  · rw [hleaf, List.forall_mem_append]
    exact ⟨h.encoding_eq, List.forall_mem_singleton.mpr hencoding.symm⟩
  · have hzero := takenDepth_le config leaf
    rw [hleafed.depth_eq, Nat.le_zero] at hzero
    obtain ⟨first, rest, rfl⟩ := List.exists_cons_of_ne_nil h.ne_nil
    rw [hzero]
    cases rest <;> rfl

/-- What is held back takes in the piece if the batch does. -/
theorem fits_iff (h : Batched config batch rope) :
    FitsTail config rope piece ↔ Meets config.smallConcatBytes batch piece := by
  rw [FitsTail, Meets, ← h.composed.byteLen_eq]
  refine and_congr_left' ⟨fun heq other hmem => ?_, fun hall => ?_⟩
  · exact (h.encoding_eq other hmem).trans heq
  · obtain ⟨other, hmem⟩ := List.exists_mem_of_ne_nil _ h.ne_nil
    exact (h.encoding_eq other hmem).symm.trans (hall other hmem)

end Batched

/-! ## Builders -/

/-- The forest and the piece held back stand for the batches, the last of which comes first. If
nothing is held back, the last batch takes in no piece. -/
inductive Loaded : List (List Rope) → Builder → Prop
  | flushed {found : List (List Rope)} {builder : Builder} : builder.tail? = none →
    Bears (Spans builder.config) (found.reverse.map (batchDepth builder.config)) builder.forest →
    (∀ last, found.head? = some last →
      builder.config.smallConcatBytes < (last.map Rope.byteLen).sum) → Loaded found builder
  | held {earlier : List (List Rope)} {last : List Rope} {builder : Builder} {tail : Rope} :
    builder.tail? = some tail →
    Bears (Spans builder.config) (earlier.reverse.map (batchDepth builder.config)) builder.forest →
    Batched builder.config last tail → Loaded (last :: earlier) builder

theorem Flushed.bears (h : Flushed P builder builder') (hP : ∀ rope, P rope → rope.WF)
    (hstrategy : builder.config.rebalance ≠ .never) (hloaded : Loaded found builder) :
    Bears (Spans builder.config) (found.reverse.map (batchDepth builder.config))
      builder'.forest := by
  cases h with
  | none hnone =>
    cases hloaded with
    | flushed _ hforest => exact hforest
    | held htail =>
      rw [hnone] at htail
      cases htail
  | tail htail happended =>
    cases hloaded with
    | flushed hnone =>
      rw [hnone] at htail
      cases htail
    | held htail' hforest hbatched =>
      cases htail.symm.trans htail'
      rw [List.reverse_cons, List.map_append, List.map_singleton, ← hbatched.depth_eq]
      exact happended.bears hP hstrategy hbatched.composed.wf hbatched.composed.byteLen_ne hforest

/-- A batch that takes in no piece is held back or in the forest. -/
theorem Loaded.not_meets (h : Loaded found builder) {last : List Rope} {earlier : List (List Rope)}
    (hfound : found = last :: earlier)
    (hapart : ∀ tail, builder.tail? = some tail → ¬FitsTail builder.config tail piece) :
    ¬Meets builder.config.smallConcatBytes last piece := by
  cases h with
  | flushed _ _ hlarge =>
    have hlt := hlarge last (by rw [hfound]; rfl)
    exact fun hmeets => by have := hmeets.2; omega
  | held htail _ hbatched =>
    cases hfound
    exact fun hmeets => hapart _ htail (hbatched.fits_iff.mpr hmeets)

theorem Pushed.loaded (h : Pushed P builder piece builder') (hP : ∀ rope, P rope → rope.WF)
    (hstrategy : builder.config.rebalance ≠ .never) (hpiece : piece.WF)
    (hloaded : Loaded found builder) :
    Loaded (addPiece builder.config.smallConcatBytes found piece) builder' := by
  cases h with
  | empty hzero => rwa [addPiece.eq_def, if_pos hzero]
  | merged hne htail hfits hconcat hleafed =>
    cases hloaded with
    | flushed hnone =>
      rw [hnone] at htail
      cases htail
    | held htail' hforest hbatched =>
      cases htail.symm.trans htail'
      simp only [addPiece, if_neg hne, if_pos (hbatched.fits_iff.mp hfits)]
      exact .held rfl hforest (hbatched.merge hpiece hne hfits.1 hconcat hleafed)
  | accepted hne hapart haccepted =>
    have hadd : addPiece builder.config.smallConcatBytes found piece = [piece] :: found := by
      rw [addPiece.eq_def, if_neg hne]
      cases found with
      | nil => rfl
      | cons last earlier => exact if_neg (hloaded.not_meets rfl hapart)
    rw [hadd]
    cases haccepted with
    | held hflushed =>
      have hforest := hflushed.bears hP hstrategy hloaded
      rw [← hflushed.config_eq] at hforest
      exact .held rfl hforest (.single hpiece hne)
    | large hflushed hlarge happended =>
      have hforest := hflushed.bears hP hstrategy hloaded
      rw [← hflushed.config_eq] at hforest hstrategy hlarge
      have hforest' := happended.bears hP hstrategy hpiece hne hforest
      rw [← happended.config_eq] at hforest' hlarge
      refine .flushed (happended.tail_eq.trans hflushed.tail_eq) ?_ ?_
      · rwa [List.reverse_cons, List.map_append]
      · rintro _ ⟨⟩
        simpa using hlarge

/-- A builder stands for the batches of the pieces that were pushed into it. -/
theorem Grown.loaded (h : Grown P encoding config pieces builder)
    (hP : ∀ rope, P rope → rope.WF) (hstrategy : config.rebalance ≠ .never)
    (hpieces : ∀ piece ∈ pieces, piece.WF) :
    Loaded (pieces.foldl (addPiece config.smallConcatBytes) []) builder := by
  induction h with
  | new => exact .flushed rfl (bears_nil _) nofun
  | push hgrown hpushed ih =>
    obtain ⟨hpieces, hpiece⟩ := List.forall_mem_append.mp hpieces
    have hloaded := ih hpieces
    rw [List.foldl_append]
    rw [← hgrown.config_eq] at hloaded hstrategy ⊢
    exact hpushed.loaded hP hstrategy (hpiece _ (List.mem_singleton_self _)) hloaded

theorem Built.spans (h : Built P builder rope) (hP : ∀ rope, P rope → rope.WF)
    (hstrategy : builder.config.rebalance ≠ .never) (hloaded : Loaded found builder) :
    (found = [] ∧ Scanned builder.encoding #[] rope) ∨
      Spans builder.config (found.reverse.map (batchDepth builder.config)) rope := by
  cases h with
  | empty hflushed hforest hscanned =>
    have hbears := hflushed.bears hP hstrategy hloaded
    rw [hforest] at hbears
    have hnil := hbears.eq_nil
    rw [List.map_eq_nil_iff, List.reverse_eq_nil_iff] at hnil
    exact .inl ⟨hnil, hflushed.encoding_eq ▸ hscanned⟩
  | trees hflushed hforest hassembled =>
    have hbears := hflushed.bears hP hstrategy hloaded
    rw [hforest] at hbears
    rw [hflushed.config_eq] at hassembled
    exact .inr (hbears.assembled (joins_spans builder.config) hassembled)

/-! ## Bounds -/

/-- The rope is balanced, and not deeper than the settings allow for its length. -/
def KeepsBound (config : Config) (rope : Rope) : Prop :=
  rope.isBalanced = true ∧ rope.depth ≤ config.policy.depthLimit rope.byteLen

/-- How deep the rope of a builder is, and when that is within the bound: if the tree of the batches
is, and so if the pieces leave one level a bit to the joins. -/
structure Bounds (config : Config) (pieces : List Rope) (rope : Rope) : Prop where
  depth_eq : rope.depth = treeDepth config.rebalance (batchDepths config pieces)
  isBalanced_iff : rope.isBalanced = true ↔
    (batches config.smallConcatBytes pieces).length ≤ 1 ∨
      rope.depth ≤ config.policy.depthLimit rope.byteLen
  keepsBound_iff : KeepsBound config rope ↔
    treeDepth config.rebalance (batchDepths config pieces) ≤ config.policy.depthLimit rope.byteLen
  keepsBound_of_room : (∀ piece ∈ pieces, takenDepth config piece +
    BalancePolicy.bitLength rope.byteLen ≤ config.policy.depthLimit rope.byteLen) →
    KeepsBound config rope
  keepsBound_of_leaves : (∀ piece ∈ pieces, piece.depth = 0) → KeepsBound config rope

theorem bounds_of_depth (hwf : rope.WF)
    (hlength : (batchDepths config pieces).length ≤ rope.byteLen)
    (hdepth : rope.depth = treeDepth config.rebalance (batchDepths config pieces))
    (hbalanced : rope.isBalanced = true ↔ (batchDepths config pieces).length ≤ 1 ∨
      rope.depth ≤ config.policy.depthLimit rope.byteLen) : Bounds config pieces rope := by
  have hkeeps : KeepsBound config rope ↔ treeDepth config.rebalance (batchDepths config pieces) ≤
      config.policy.depthLimit rope.byteLen := by
    rw [KeepsBound, hbalanced, hdepth]
    exact ⟨And.right, fun hle => ⟨.inr hle, hle⟩⟩
  have hbits := BalancePolicy.bitLength_le_depthLimit hwf.byteLen_le config.policy
  have hroom (h : ∀ piece ∈ pieces, takenDepth config piece +
      BalancePolicy.bitLength rope.byteLen ≤ config.policy.depthLimit rope.byteLen) :
      KeepsBound config rope := by
    have hle := treeDepth_le config.rebalance
      (batchDepths_le fun piece hmem => Nat.le_sub_of_add_le (h piece hmem))
    have hclog := BalancePolicy.clog_le_bitLength hlength
    exact hkeeps.mpr (by omega)
  refine ⟨hdepth, ?_, hkeeps, hroom, fun hleaves => hroom fun piece hmem => ?_⟩
  · rwa [batchDepths, List.length_map] at hbalanced
  · have hzero := takenDepth_le config piece
    rw [hleaves piece hmem, Nat.le_zero] at hzero
    rwa [hzero, Nat.zero_add]

/-- What is built is as deep as the tree of the batches of the pieces. -/
theorem Grown.bounds_of_built (h : Grown P encoding config pieces builder)
    (hP : ∀ rope, P rope → rope.WF) (hstrategy : config.rebalance ≠ .never)
    (hpieces : ∀ piece ∈ pieces, piece.WF) (hbuilt : Built P builder rope) :
    Bounds config pieces rope := by
  have hconfig := h.config_eq
  have hspans := hbuilt.spans hP (hconfig ▸ hstrategy) (h.loaded hP hstrategy hpieces)
  rw [hconfig] at hspans
  rcases hspans with ⟨hnil, hscanned⟩ | hspans
  · have hdepths : batchDepths config pieces = [] := by
      rw [batchDepths, batches, hnil]
      rfl
    refine bounds_of_depth hscanned.wf ?_ ?_ ?_ <;> rw [hdepths]
    · exact Nat.zero_le _
    · cases hscanned
      rfl
    · cases hscanned
      exact iff_of_true rfl (.inl (Nat.zero_le 1))
  · exact bounds_of_depth hspans.wf hspans.length_le hspans.depth_eq hspans.balanced_iff

end ByteRope.Builder
