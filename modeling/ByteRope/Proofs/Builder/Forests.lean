import Mathlib.Data.Nat.BitIndices
import Mathlib.Data.Set.List
import ByteRope.Proofs.Builder.Handing

/-!
# What forests look like

A forest whose trees are merged is a binary counter for the ropes handed on to it: there is a tree
for each one in their binary number, and a tree of two to the power of a digit is at most so many
levels deeper than the deepest piece (`Builder.Counter`). The depth that a builder says is the depth
of what it builds, but for the piece held back (`Builder.Foretells`).
-/

namespace ByteRope.Builder

open RopeM
open Rope (Family Scanned)

variable {α : Type} {R : List α → Rope → Prop} {P : Rope → Prop} {c : Census}
  {encoding : Encoding} {config : Config} {policy : BalancePolicy} {builder : Builder}
  {rope result : Rope} {tree : Tree} {forest earlier : List Tree} {parts : List α}
  {pieces handed : List Rope} {depths lengths : List Nat} {bound digit : Nat}

/-! ## Digits -/

/-- The digits are the binary ones of their sum. -/
theorem Digits.eq_bitIndices (h : Digits lengths) :
    lengths = lengths.sum.bitIndices.map (2 ^ ·) := by
  obtain ⟨places, rfl⟩ : lengths ∈ Set.range (List.map fun place => 2 ^ place) := by
    rw [Set.range_list_map]
    exact fun length hmem => (h.1 length hmem).imp fun _ heq => heq.symm
  have hlt : places.Pairwise (· < ·) :=
    (List.pairwise_map.mp h.2).imp (Nat.pow_lt_pow_iff_right (by decide)).mp
  rw [Nat.bitIndices_sum_map_two_pow hlt.sortedLT]

theorem Bears.digits (h : Bears R parts forest) : Digits (forest.map Tree.count) := by
  obtain ⟨lists, hcounts, hdigits, -⟩ := h
  have hmap : lists.map List.length = forest.map Tree.count :=
    hcounts.map_eq fun _ _ h => h.2.symm
  exact hmap ▸ hdigits

theorem Bears.sum_eq (h : Bears R parts forest) : (forest.map Tree.count).sum = parts.length := by
  obtain ⟨lists, hcounts, -, rfl⟩ := h
  have hmap : lists.map List.length = forest.map Tree.count :=
    hcounts.map_eq fun _ _ h => h.2.symm
  rw [← hmap, List.length_flatten, List.map_reverse, List.sum_reverse]

/-- A tree stands for some of the parts. -/
theorem Bears.exists_parts (h : Bears R parts forest) (hmem : tree ∈ forest) :
    ∃ list, list ⊆ parts ∧ R list tree.rope ∧ tree.count = list.length := by
  obtain ⟨lists, hcounts, -, rfl⟩ := h
  obtain ⟨list, hlist, htree⟩ := hcounts.flip.exists_left hmem
  refine ⟨list, fun part hpart => ?_, htree⟩
  exact List.mem_flatten_of_mem (List.mem_reverse.mpr hlist) hpart

theorem Spans.depth_le (h : Spans config depths rope) (hbound : ∀ depth ∈ depths, depth ≤ bound) :
    rope.depth ≤ bound + Nat.clog 2 depths.length :=
  h.depth_eq ▸ treeDepth_le config.rebalance hbound

theorem Bears.depth_le (h : Bears (Spans config) depths forest)
    (hbound : ∀ depth ∈ depths, depth ≤ bound) (hmem : tree ∈ forest)
    (hcount : tree.count = 2 ^ digit) : tree.rope.depth ≤ bound + digit := by
  obtain ⟨list, hsub, hspans, hlength⟩ := h.exists_parts hmem
  have hdepth := hspans.depth_le fun depth hdepth => hbound depth (hsub hdepth)
  rwa [← hlength, hcount, Nat.clog_pow 2 digit Nat.one_lt_two] at hdepth

/-! ## Counters -/

/-- The forest counts the ropes handed on in binary, and no tree in it is empty or too deep. The
last tree stands first. -/
structure Counter (pieces handed : List Rope) (forest : List Tree) : Prop where
  counts_eq : forest.map Tree.count = handed.length.bitIndices.map (2 ^ ·)
  powers : ∀ tree ∈ forest, ∃ digit, tree.count = 2 ^ digit
  decreasing : (forest.reverse.map Tree.count).Pairwise (· > ·)
  sum_eq : (forest.map Tree.count).sum = handed.length
  length_eq : forest.length = handed.length.bitIndices.length
  byteLen_ne : ∀ tree ∈ forest, tree.rope.byteLen ≠ 0
  depth_le : ∀ bound, (∀ piece ∈ pieces, piece.depth ≤ bound) →
    ∀ tree ∈ forest, ∀ digit, tree.count = 2 ^ digit → tree.rope.depth ≤ bound + digit

/-- The forest is taken to be at the depths of the ropes handed on. -/
theorem Feeds.exists_depths (h : Feeds P encoding config pieces handed builder)
    (hP : ∀ rope, P rope → rope.WF) (hstrategy : config.rebalance ≠ .never) :
    ∃ depths, depths.length = handed.length ∧ depths ⊆ batchDepths config pieces ∧
      Bears (Spans config) depths builder.forest := by
  have hlength := h.handing.handled.length_eq
  have hconfig := h.grown.config_eq
  have hloaded := h.grown.loaded hP hstrategy h.wf
  rw [batchDepths, batches]
  generalize pieces.foldl (addPiece config.smallConcatBytes) [] = found at hlength hloaded
  rw [laid, List.length_append, List.length_reverse] at hlength
  cases hloaded with
  | flushed hnone hforest =>
    rw [hnone, Option.toList_none, List.length_nil, Nat.zero_add] at hlength
    rw [hconfig] at hforest
    exact ⟨_, by simp [hlength], List.Subset.refl _, hforest⟩
  | held htail hforest =>
    rw [htail, Option.toList_some, List.length_singleton, List.length_cons] at hlength
    rw [hconfig] at hforest
    refine ⟨_, ?_, List.map_subset _ fun batch hmem => ?_, hforest⟩
    · rw [List.length_map, List.length_reverse]
      omega
    · exact List.mem_reverse.mpr (List.mem_cons_of_mem _ (List.mem_reverse.mp hmem))

theorem batchDepths_le_of_depth (h : ∀ piece ∈ pieces, piece.depth ≤ bound) :
    ∀ depth ∈ batchDepths config pieces, depth ≤ bound :=
  batchDepths_le fun piece hmem => Nat.le_trans (takenDepth_le config piece) (h piece hmem)

theorem Feeds.counter (h : Feeds P encoding config pieces handed builder)
    (hP : ∀ rope, P rope → rope.WF) (hstrategy : config.rebalance ≠ .never) :
    Counter pieces handed builder.forest := by
  obtain ⟨depths, hlength, hsub, hbears⟩ := h.exists_depths hP hstrategy
  have hdigits := hbears.digits
  have hsum := hbears.sum_eq
  have hcounts := hdigits.eq_bitIndices
  rw [hsum, hlength] at hcounts
  refine ⟨hcounts, ?_, ?_, hsum.trans hlength, ?_, ?_, ?_⟩
  · exact fun tree hmem => hdigits.1 _ (List.mem_map_of_mem hmem)
  · rw [List.map_reverse, List.pairwise_reverse]
    exact hdigits.2
  · simpa using congrArg List.length hcounts
  · intro tree hmem
    obtain ⟨_, -, hspans, -⟩ := hbears.exists_parts hmem
    exact hspans.byteLen_ne
  · intro bound hbound tree hmem digit hcount
    exact hbears.depth_le (fun depth hdepth => batchDepths_le_of_depth hbound depth (hsub hdepth))
      hmem hcount

/-- What is built is at most so many levels deeper than the deepest piece as the ropes handed on and
the piece held back make necessary. -/
theorem Feeds.depth_le (h : Feeds P encoding config pieces handed builder)
    (hP : ∀ rope, P rope → rope.WF) (hstrategy : config.rebalance ≠ .never)
    (hbuilt : Built P builder rope) (hbound : ∀ piece ∈ pieces, piece.depth ≤ bound) :
    rope.depth ≤ bound + Nat.clog 2 (handed ++ builder.tail?.toList).length := by
  have hlength : (batchDepths config pieces).length = (handed ++ builder.tail?.toList).length := by
    rw [batchDepths, List.length_map, h.coalesced.gathers.length_eq]
  have hbounds := h.grown.bounds_of_built hP hstrategy h.wf hbuilt
  rw [hbounds.depth_eq, ← hlength]
  exact treeDepth_le config.rebalance (batchDepths_le_of_depth hbound)

/-! ## Depths -/

theorem Assembled.depth_eq (h : Assembled policy rope earlier result) (hrope : rope.byteLen ≠ 0)
    (hearlier : ∀ tree ∈ earlier, tree.rope.byteLen ≠ 0) :
    result.depth = earlier.foldl (fun depth tree => max tree.rope.depth depth + 1) rope.depth := by
  induction h with
  | nil => rfl
  | @cons rope joined result tree earlier hconcat _ ih =>
    obtain ⟨htree, hearlier⟩ := List.forall_mem_cons.mp hearlier
    have hdepth : joined.depth = max tree.rope.depth rope.depth + 1 := by
      cases hconcat.joined htree hrope
      rfl
    have hjoined : joined.byteLen ≠ 0 := by
      rw [hconcat.byteLen_eq]
      omega
    rw [ih hjoined hearlier, hdepth, List.foldl_cons]

theorem Built.depth_eq (h : Built P builder rope) (hnone : builder.tail? = none)
    (hforest : ∀ tree ∈ builder.forest, tree.rope.byteLen ≠ 0) : rope.depth = builder.depth := by
  have hflushed {builder' : Builder} (h : Flushed P builder builder') : builder' = builder := by
    cases h with
    | none => rfl
    | tail htail =>
      rw [hnone] at htail
      cases htail
  cases h with
  | empty h hnil hscanned =>
    cases hflushed h
    cases hscanned
    rw [depth, hnil]
    rfl
  | trees h heq hassembled =>
    cases hflushed h
    rw [heq] at hforest
    obtain ⟨hlast, hearlier⟩ := List.forall_mem_cons.mp hforest
    rw [depth, heq, hassembled.depth_eq hlast hearlier]

/-! ## What can be built -/

/-- The number of characters in a forest. -/
def forestCharLen (forest : List Tree) : Nat := (forest.map fun tree => tree.rope.charLen).sum

/-- The trees can be joined: there is nothing to join, or their lengths add up to sizes. -/
def Joinable (forest : List Tree) : Prop :=
  forest.length ≤ 1 ∨ forestLen forest ≤ Size.max ∧ forestCharLen forest ≤ Size.max

/-- Two trees that can be joined are as good as the join. -/
theorem joinable_join {last joined : Tree}
    (hbytes : tree.rope.byteLen + last.rope.byteLen ≤ Size.max)
    (hchars : tree.rope.charLen + last.rope.charLen ≤ Size.max)
    (hbyteLen : joined.rope.byteLen = tree.rope.byteLen + last.rope.byteLen)
    (hcharLen : joined.rope.charLen = tree.rope.charLen + last.rope.charLen) :
    Joinable (joined :: earlier) ↔ Joinable (last :: tree :: earlier) := by
  simp only [Joinable, forestLen, forestCharLen, List.map_cons, List.sum_cons, List.length_cons,
    hbyteLen, hcharLen]
  cases earlier with
  | nil => simp; omega
  | cons => simp; omega

theorem not_joinable {last : Tree} {fault : Fault} (h : Rope.TooLarge tree.rope last.rope fault) :
    ¬Joinable (last :: tree :: earlier) := by
  simp only [Joinable, forestLen, forestCharLen, List.map_cons, List.sum_cons, List.length_cons]
  rcases h with ⟨-, hlt⟩ | ⟨-, hlt⟩ <;> omega

theorem wf_joinTrees_of_live {last : Tree} (hlast : c.live last.rope) (hne : last.rope.byteLen ≠ 0)
    (hearlier : ∀ tree ∈ earlier, c.live tree.rope ∧ tree.rope.byteLen ≠ 0) :
    RopeM.WF c (joinTrees policy last.rope earlier) (fun _ _ => Joinable (last :: earlier))
      (fun _ => ¬Joinable (last :: earlier)) := by
  induction earlier generalizing c last with
  | nil => exact WF.pure (.inl (Nat.le_refl 1))
  | cons tree earlier ih =>
    obtain ⟨htree, hearlier⟩ := List.forall_mem_cons.mp hearlier
    refine ((Rope.wf_concat htree.1 hlast).faults fun _ => not_joinable).bind ?_
    intro joined c' hle hresult
    obtain ⟨hlive, hconcat⟩ := hresult
    have hjoined : joined.byteLen ≠ 0 := by
      rw [hconcat.byteLen_eq]
      omega
    have hiff :
        Joinable (⟨joined, last.count⟩ :: earlier) ↔ Joinable (last :: tree :: earlier) := by
      cases hconcat.joined htree.2 hne with
      | join hbytes hchars => exact joinable_join hbytes hchars rfl rfl
    rw [← hiff]
    exact @ih c' ⟨joined, last.count⟩ hlive hjoined fun other hmem =>
      (hearlier other hmem).imp_left hle.live

theorem wf_build_bare (h : builder.Ready P c) :
    RopeM.WF c builder.bare.build (fun _ _ => Joinable builder.forest)
      (fun _ => ¬Joinable builder.forest) := by
  have hbare : builder.bare.flushTail c.store = .ok builder.bare c.store := rfl
  have hready : ForestReady P c builder.bare.forest := h.forest
  refine WF.reads hbare ?_
  change RopeM.WF c _ (fun _ _ => Joinable builder.bare.forest)
    (fun _ => ¬Joinable builder.bare.forest)
  split
  next hnil =>
    rw [hnil]
    refine Rope.wf_ofBytes.mono (fun _ _ _ _ => .inl (Nat.zero_le 1)) ?_
    rintro fault ⟨-, hlt⟩
    cases hlt
  next last earlier hcons =>
    rw [hcons] at hready ⊢
    obtain ⟨hlast, hearlier⟩ := List.forall_mem_cons.mp hready
    refine (wf_joinTrees_of_live hlast.live hlast.byteLen_ne fun tree hmem => ?_).bind
      fun rope c' _ hjoinable => WF.emit fun _ _ => WF.pure hjoinable
    exact ⟨(hearlier tree hmem).live, (hearlier tree hmem).byteLen_ne⟩

/-- What a builder says of the depth of what it builds: it is that of the rope that it builds if
nothing is held back, whenever that can be built. -/
structure Foretells (builder : Builder) (store : Store) : Prop where
  depth_eq : ∀ rope store', builder.bare.build store = .ok rope store' → rope.depth = builder.depth
  succeeds_iff : builder.bare.build.Succeeds store ↔ Joinable builder.forest
  of_empty : builder.forest = [] → builder.depth = 0
  of_flushed : builder.tail? = none →
    ∀ rope store', builder.build store = .ok rope store' → rope.depth = builder.depth
  of_zero : builder.config.smallConcatBytes = 0 → builder.tail? = none

theorem Feeds.foretells_of_ready (h : Feeds P encoding config pieces handed builder) (hP : Family P)
    (hready : builder.Ready P c) (hempty : ∀ rope, Scanned builder.encoding #[] rope → P rope) :
    Foretells builder c.store := by
  have hbare : builder.bare.Ready P c := ⟨hready.forest, nofun⟩
  have hne : ∀ tree ∈ builder.forest, tree.rope.byteLen ≠ 0 :=
    fun tree hmem => (hready.forest tree hmem).byteLen_ne
  refine ⟨?_, ?_, ?_, ?_, ?_⟩
  · intro rope store' hrun
    obtain ⟨c', rfl, -, -, -, hbuilt, -⟩ := (wf_build hP hbare hempty).of_run hrun
    exact hbuilt.depth_eq rfl hne
  · exact (wf_build_bare hready).succeeds_iff (fun _ _ hjoinable => hjoinable) fun _ hnot => hnot
  · intro hnil
    rw [depth, hnil]
  · intro hnone rope store' hrun
    obtain ⟨c', rfl, -, -, -, hbuilt, -⟩ := (wf_build hP hready hempty).of_run hrun
    exact hbuilt.depth_eq hnone hne
  · intro hzero
    rw [h.grown.config_eq] at hzero
    exact (h.coalesced.of_zero hzero).1

end ByteRope.Builder
