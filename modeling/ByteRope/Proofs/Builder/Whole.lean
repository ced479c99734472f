import ByteRope.Proofs.Builder.Amounts
import ByteRope.Proofs.Builder.Running

/-!
# Builders from first to last

What a builder makes of a list of pieces (`Builder.ofPieces`), beside what putting one piece after
another makes of them (`Rope.fold`). The content is the same. The encodings are the same if the
first group of pieces that is not ASCII only is under an ASCII-compatible encoding, or if the group
at the seam before it is under the encoding of the first group (`Builder.Uniform`). Pieces that are
all under ASCII-compatible encodings are of that kind (`Builder.uniform_of_compatible`).
-/

namespace ByteRope

open Rope (Concatenated Family)

variable {P : Rope → Prop} {c : Census} {encoding : Encoding} {config : Config}
  {policy : BalancePolicy} {pieces : List Rope} {first rope : Rope}

/-- The rope that a new builder makes of the pieces. -/
def Builder.ofPieces (encoding : Encoding) (config : Config) (pieces : List Rope) :
    RopeM Rope := do
  (← pieces.foldlM Builder.push (.new encoding config)).build

/-- The pieces one after another. -/
def Rope.fold (encoding : Encoding) (policy : BalancePolicy) : List Rope → RopeM Rope
  | [] => Rope.empty encoding
  | first :: rest => rest.foldlM (fun rope piece => rope.concat piece policy) first

namespace Builder

/-- The groups that a builder makes of the pieces. -/
def groups (config : Config) (pieces : List Rope) : List Group :=
  Group.gather config.smallConcatBytes (pieces.map Group.ofRope)

/-- The encoding of what a builder makes of the pieces. -/
def builtEncoding (encoding : Encoding) (config : Config) (pieces : List Rope) : Encoding :=
  (shared? (seam config.rebalance) (groups config pieces)).getD encoding

/-- The encoding of the pieces one after another. -/
def foldedEncoding (encoding : Encoding) (pieces : List Rope) : Encoding :=
  (shared? (seam .never) (Group.gather 0 (pieces.map Group.ofRope))).getD
    ((pieces.head?.map Rope.encoding).getD encoding)

/-! ## What builders make -/

theorem Grown.built {builder : Builder} (hP : ∀ rope, P rope → rope.WF)
    (hgrown : Grown P encoding config pieces builder) (hpieces : ∀ piece ∈ pieces, Suitable piece)
    (h : Built P builder rope) :
    rope.content = pieces.flatMap Rope.content ∧
      rope.encoding = builtEncoding encoding config pieces := by
  obtain ⟨hcontent, hencoding⟩ := h.eq_of_tracks hP (hgrown.tracks hP hpieces)
  rw [hgrown.config_eq, hgrown.encoding_eq] at hencoding
  refine ⟨?_, hencoding⟩
  rw [hcontent, Group.content_gather, List.flatMap_map]
  rfl

/-! ## What folds make -/

/-- The pieces put after the first, one after another. -/
inductive Folded (policy : BalancePolicy) (first : Rope) : List Rope → Rope → Prop
  | nil : Folded policy first [] first
  | concat {pieces : List Rope} {rope piece joined : Rope} : Folded policy first pieces rope →
    Concatenated rope piece policy joined → Folded policy first (pieces ++ [piece]) joined

/-- What the pieces one after another come to. -/
inductive Folds (encoding : Encoding) (policy : BalancePolicy) : List Rope → Rope → Prop
  | empty {rope : Rope} : Rope.Scanned encoding #[] rope → Folds encoding policy [] rope
  | pieces {first : Rope} {rest : List Rope} {rope : Rope} : Folded policy first rest rope →
    Folds encoding policy (first :: rest) rope

theorem Folded.charLen_le (h : Folded policy first pieces rope) :
    rope.charLen ≤ first.charLen + (pieces.map Rope.charLen).sum := by
  induction h with
  | nil => exact Nat.le_refl _
  | concat _ hconcat ih =>
    rw [List.map_append, List.sum_append, List.map_singleton, List.sum_singleton]
    have := hconcat.charLen_le
    omega

theorem Folded.byteLen_eq (h : Folded policy first pieces rope) :
    rope.byteLen = first.byteLen + (pieces.map Rope.byteLen).sum := by
  induction h with
  | nil => rfl
  | concat _ hconcat ih =>
    rw [hconcat.byteLen_eq, ih, List.map_append, List.sum_append, List.map_singleton,
      List.sum_singleton, Nat.add_assoc]

/-- A fold stays at the first rope as long as nothing but empty ropes comes. -/
theorem Folded.amounts (h : Folded policy first pieces rope)
    (hpieces : ∀ piece ∈ first :: pieces, Suitable piece) :
    (rope = first ∧ rope.byteLen = 0 ∧
        Group.gather 0 ((first :: pieces).map Group.ofRope) = []) ∨
      Amounts (seam .never) (Group.gather 0 ((first :: pieces).map Group.ofRope)) rope := by
  have hcontent {rope : Rope} (h : Suitable rope) :
      (Group.ofRope rope).content = [] ↔ rope.byteLen = 0 := by
    rw [← Rope.isEmpty_iff, h.wf.isEmpty_iff_content]
    rfl
  induction h with
  | nil =>
    have hfirst := hpieces first (List.mem_cons_self ..)
    rw [List.map_singleton]
    change (_ ∧ _ ∧ Group.add 0 [] _ = []) ∨ Amounts _ (Group.add 0 [] _) _
    by_cases hzero : first.byteLen = 0
    · exact .inl ⟨rfl, hzero, if_pos ((hcontent hfirst).mpr hzero)⟩
    · rw [Group.add_of_apart (fun hnil => hzero ((hcontent hfirst).mp hnil)) (by rintro _ ⟨⟩)]
      exact .inr (hfirst.amounts hzero .never)
  | @concat pieces rope piece joined _ hconcat ih =>
    have ih := ih fun other hmem => hpieces other (List.mem_append_left [piece] hmem)
    have hpiece :=
      hpieces piece (List.mem_append_right (first :: pieces) (List.mem_singleton_self _))
    have hmap : (first :: (pieces ++ [piece])).map Group.ofRope =
        (first :: pieces).map Group.ofRope ++ [Group.ofRope piece] := by simp
    rw [hmap, Group.gather_concat]
    by_cases hzero : piece.byteLen = 0
    · rw [Group.add, if_pos ((hcontent hpiece).mpr hzero)]
      cases hconcat with
      | left => exact ih
      | right _ hne => exact absurd hzero hne
      | join _ hne => exact absurd hzero hne
    have hne := fun hnil => hzero ((hcontent hpiece).mp hnil)
    have hamounts := hpiece.amounts hzero .never
    rw [Group.add_of_apart hne fun group hlast hfits => hne ?_]
    · rcases ih with ⟨-, hempty, hnil⟩ | hrope
      · rw [hnil]
        cases hconcat with
        | left hzero' => exact absurd hzero' hzero
        | right => exact .inr hamounts
        | join hne' => exact absurd hempty hne'
      · exact .inr (hrope.concat (seam_le _) (fitting_never _ _) hamounts hconcat)
    · exact List.length_eq_zero_iff.mp (Nat.eq_zero_of_add_eq_zero_left (Nat.le_zero.mp hfits.2))

theorem Folded.eq (h : Folded policy first pieces rope)
    (hpieces : ∀ piece ∈ first :: pieces, Suitable piece) :
    rope.content = (first :: pieces).flatMap Rope.content ∧
      rope.encoding = foldedEncoding encoding (first :: pieces) := by
  have hgather := Group.content_gather 0 ((first :: pieces).map Group.ofRope)
  have hcontent : ((first :: pieces).map Group.ofRope).flatMap Group.content =
      (first :: pieces).flatMap Rope.content := by
    rw [List.flatMap_map]
    rfl
  rw [foldedEncoding]
  rcases h.amounts hpieces with ⟨rfl, hzero, hnil⟩ | hamounts
  · rw [hnil] at hgather ⊢
    refine ⟨?_, rfl⟩
    rw [← hcontent, ← hgather]
    have hwf := (hpieces rope (List.mem_cons_self ..)).wf
    exact hwf.isEmpty_iff_content.mp (Rope.isEmpty_iff.mpr hzero)
  · rw [hamounts.encoding, hamounts.content, hgather, hcontent]
    exact ⟨rfl, rfl⟩

theorem Folds.eq (h : Folds encoding policy pieces rope)
    (hpieces : ∀ piece ∈ pieces, Suitable piece) :
    rope.content = pieces.flatMap Rope.content ∧
      rope.encoding = foldedEncoding encoding pieces := by
  cases h with
  | empty hscanned =>
    cases hscanned
    exact ⟨rfl, rfl⟩
  | pieces hfolded => exact hfolded.eq hpieces

/-! ## When both make the same -/

/-- If there are no octets, the first piece is under the encoding of the builder. If the first group
that is not ASCII only is under an encoding that is not ASCII compatible, then the group at the seam
before it is under the encoding of the first group. -/
structure Uniform (encoding : Encoding) (config : Config) (pieces : List Rope) : Prop where
  empty : groups config pieces = [] → ∀ first, pieces.head? = some first →
    encoding = first.encoding
  seam : ∀ place group,
    ((groups config pieces).findIdx? fun group => !group.ascii) = some place →
    (groups config pieces)[place]? = some group → group.encoding.isAsciiCompatible = false →
    ((groups config pieces)[seam config.rebalance place]?).map Group.encoding =
      (groups config pieces).head?.map Group.encoding

theorem builtEncoding_eq_folded_iff (hpieces : ∀ piece ∈ pieces, Suitable piece) :
    builtEncoding encoding config pieces = foldedEncoding encoding pieces ↔
      Uniform encoding config pieces := by
  have hcompatible : ∀ group ∈ pieces.map Group.ofRope, group.ascii = true →
      group.encoding.isAsciiCompatible = true := by
    intro group hmem hascii
    obtain ⟨piece, hpiece, rfl⟩ := List.mem_map.mp hmem
    exact (hpieces piece hpiece).compatible (of_decide_eq_true hascii)
  have hnever := (shared?_gather_never config.smallConcatBytes hcompatible).1
  rw [builtEncoding, foldedEncoding, ← hnever, ← groups]
  by_cases hnil : groups config pieces = []
  · rw [hnil]
    change encoding = (pieces.head?.map Rope.encoding).getD encoding ↔ _
    constructor
    · intro heq
      refine ⟨fun _ first hfirst => ?_, fun place group hfind => ?_⟩
      · rwa [hfirst] at heq
      · rw [hnil] at hfind
        cases hfind
    · intro h
      cases hfirst : pieces.head? with
      | none => rfl
      | some first => exact h.empty hnil first hfirst
  · obtain ⟨built, hbuilt⟩ :=
      Option.isSome_iff_exists.mp (isSome_shared? (seam_le config.rebalance) hnil)
    obtain ⟨folded, hfolded⟩ := Option.isSome_iff_exists.mp (isSome_shared? (seam_le .never) hnil)
    have heq : built = folded ↔ shared? (Builder.seam config.rebalance) (groups config pieces) =
        shared? (Builder.seam .never) (groups config pieces) := by
      rw [hbuilt, hfolded, Option.some_inj]
    rw [hbuilt, hfolded, Option.getD_some, Option.getD_some, heq, shared?_eq_never_iff]
    exact ⟨fun h => ⟨fun h' => absurd h' hnil, h⟩, Uniform.seam⟩

/-- Settings make no difference to pieces that are all under ASCII-compatible encodings. -/
theorem uniform_of_compatible (hne : groups config pieces ≠ [])
    (h : ∀ piece ∈ pieces, piece.encoding.isAsciiCompatible = true) :
    Uniform encoding config pieces := by
  have hgroups : ∀ group ∈ groups config pieces, group.encoding.isAsciiCompatible = true := by
    refine Group.forall_mem_gather config.smallConcatBytes (fun group hmem _ => ?_) fun _ => id
    obtain ⟨piece, hpiece, rfl⟩ := List.mem_map.mp hmem
    exact h piece hpiece
  refine ⟨fun hnil => absurd hnil hne, fun place group _ hget hnot => ?_⟩
  rw [hgroups group (List.mem_of_getElem? hget)] at hnot
  cases hnot

/-! ## Computations -/

/-- No tree is copied into a leaf, and no leaf of merged pieces is too long. -/
structure Steady (config : Config) (pieces : List Rope) : Prop where
  strategy : config.rebalance ≠ .flatten
  small : config.smallConcatBytes ≤ Size.maxBuffer
  balanced : ∀ piece ∈ pieces, piece.isBalanced = true

/-- Leaves are balanced. -/
theorem Steady.of_scanned (hstrategy : config.rebalance ≠ .flatten)
    (hsmall : config.smallConcatBytes ≤ Size.maxBuffer)
    (hpieces : ∀ piece ∈ pieces, ∃ encoding bytes, Rope.Scanned encoding bytes piece) :
    Steady config pieces := by
  refine ⟨hstrategy, hsmall, fun piece hmem => ?_⟩
  obtain ⟨_, _, ⟨⟩⟩ := hpieces piece hmem
  rfl

theorem appendable_of_balanced {piece : Rope} (hstrategy : config.rebalance ≠ .flatten)
    (hpiece : piece.isBalanced = true) (profile : List (Nat × Nat)) :
    Appendable config profile piece := by
  refine ⟨⟨fun hloose => ?_, fun hloose => ?_⟩, fun hflatten => absurd hflatten hstrategy⟩ <;>
    rw [hpiece] at hloose <;> cases hloose

theorem Steady.pushable {builder : Builder} {piece : Rope} (h : Steady builder.config pieces)
    (hpiece : piece.isBalanced = true)
    (htail : ∀ tail, builder.tail? = some tail → tail.isBalanced = true) :
    builder.Pushable piece where
  merges _ _ hfits := Nat.le_trans hfits.2 h.small
  flushes _ tail hget := appendable_of_balanced h.strategy (htail tail hget) _
  appends _ _ := appendable_of_balanced h.strategy hpiece _

theorem Grown.tail_balanced {builder : Builder} {tail : Rope}
    (h : Grown P encoding config pieces builder)
    (hpieces : ∀ piece ∈ pieces, piece.isBalanced = true) (hwf : tail.WF)
    (htail : builder.tail? = some tail) : tail.isBalanced = true := by
  rcases h.tail htail with hmem | hdepth
  · exact hpieces tail hmem
  · cases hwf with
    | leaf => rfl
    | join _ _ _ _ heq | view _ _ heq => exact absurd (heq.symm.trans hdepth) (Nat.succ_ne_zero _)

theorem live_mono {c' : Census} (hle : c ≤ c')
    (hpieces : ∀ piece ∈ pieces, c.live piece ∧ P piece) :
    ∀ piece ∈ pieces, c'.live piece ∧ P piece :=
  fun piece hmem => ⟨hle.live (hpieces piece hmem).1, (hpieces piece hmem).2⟩

theorem wf_pushAll (hP : Family P) (hpieces : ∀ piece ∈ pieces, c.live piece ∧ P piece) :
    RopeM.WF c (pieces.foldlM Builder.push (new encoding config))
      (fun builder c' => builder.Ready P c' ∧ Grown P encoding config pieces builder ∧
        builder.len = (pieces.map Rope.byteLen).sum)
      (fun _ => Sparing P → (pieces.map Rope.byteLen).sum ≤ Size.max → ¬Steady config pieces) := by
  refine RopeM.WF.foldlM (Q := fun done builder c' => builder.Ready P c' ∧
    Grown P encoding config done builder ∧ builder.len = (done.map Rope.byteLen).sum) ?_
    ⟨ready_new encoding config, .new, rfl⟩
  rintro done piece rest rfl builder c' hle ⟨hready, hgrown, hlen⟩
  have hmem : piece ∈ done ++ piece :: rest := List.mem_append_right _ (List.mem_cons_self ..)
  obtain ⟨hlive, hpiece⟩ := hpieces piece hmem
  refine (wf_push hP hready (hle.live hlive) hpiece).mono ?_ ?_
  · intro builder' c'' _ hresult
    obtain ⟨hready', hpushed, hlen', -⟩ := hresult
    refine ⟨hready', hgrown.push hpushed, ?_⟩
    rw [hlen', hlen]
    simp
  · intro fault hno hs hmax hsteady
    rw [List.map_append, List.sum_append, List.map_cons, List.sum_cons] at hmax
    apply (hno hs (by omega)).2
    rw [← hgrown.config_eq] at hsteady
    refine hsteady.pushable (hsteady.balanced piece hmem) fun tail htail => ?_
    refine hgrown.tail_balanced (fun other hother => ?_) (c'.wf (hready.tail tail htail).live) htail
    exact hsteady.balanced other (List.mem_append_left _ hother)

/-- Nothing is in the way of a builder that leaves its trees as they are, up to the largest size. -/
theorem wf_ofPieces (hP : Family P)
    (hempty : ∀ rope, Rope.Scanned encoding #[] rope → P rope)
    (hpieces : ∀ piece ∈ pieces, c.live piece ∧ P piece) :
    RopeM.WF c (ofPieces encoding config pieces)
      (fun rope c' => c'.live rope ∧ ∃ builder, Grown P encoding config pieces builder ∧
        Built P builder rope)
      (fun _ => Sparing P → (pieces.map Rope.byteLen).sum ≤ Size.max → ¬Steady config pieces) := by
  apply (wf_pushAll hP hpieces).bind
  intro builder c' hle hresult
  obtain ⟨hready, hgrown, hlen⟩ := hresult
  refine (wf_build hP hready fun rope hscanned => ?_).mono ?_ ?_
  · exact hempty rope (hgrown.encoding_eq ▸ hscanned)
  · intro rope c'' _ hresult
    obtain ⟨hlive, -, hbuilt, -⟩ := hresult
    exact ⟨hlive, builder, hgrown, hbuilt⟩
  · intro fault hno hs hmax hsteady
    refine hno hs (hlen ▸ hmax) fun tail htail => ?_
    have hbalanced :=
      hgrown.tail_balanced hsteady.balanced (c'.wf (hready.tail tail htail).live) htail
    exact appendable_of_balanced (hgrown.config_eq ▸ hsteady.strategy) hbalanced _

theorem run_ofPieces (hP : Family P) (hs : Sparing P)
    (hempty : ∀ rope, Rope.Scanned encoding #[] rope → P rope)
    (hpieces : ∀ piece ∈ pieces, c.live piece ∧ P piece)
    (hmax : (pieces.map Rope.byteLen).sum ≤ Size.max) (hsteady : Steady config pieces) :
    ∃ (rope : Rope) (c' : Census), c ≤ c' ∧
      ofPieces encoding config pieces c.store = .ok rope c'.store := by
  obtain ⟨rope, c', hok, hle, -⟩ | ⟨_, _, -, hfault⟩ :=
    (wf_ofPieces hP hempty hpieces).outcome
  · exact ⟨rope, c', hle, hok⟩
  · exact absurd hsteady (hfault hs hmax)

/-- Nothing but sums past the largest size is in the way of a fold. -/
theorem wf_fold (hpieces : ∀ piece ∈ pieces, c.live piece) :
    RopeM.WF c (Rope.fold encoding policy pieces)
      (fun rope c' => c'.live rope ∧ Folds encoding policy pieces rope)
      (fun _ => 1 < pieces.length ∧ ((pieces.map Rope.byteLen).sum ≤ Size.max →
        ¬(pieces.map Rope.charLen).sum ≤ Size.max)) := by
  cases pieces with
  | nil =>
    refine Rope.wf_ofBytes.mono ?_ ?_
    · intro rope c' _ hresult
      obtain ⟨hlive, hscanned⟩ := hresult
      exact ⟨hlive, .empty hscanned⟩
    · intro fault hresult
      obtain ⟨-, hlt⟩ := hresult
      cases hlt
  | cons first rest =>
    obtain ⟨hfirst, hrest⟩ := List.forall_mem_cons.mp hpieces
    refine (RopeM.WF.foldlM (Q := fun done rope c' => c'.live rope ∧ Folded policy first done rope)
      ?_ ⟨hfirst, .nil⟩).results fun rope c' _ hresult => ⟨hresult.1, .pieces hresult.2⟩
    rintro done piece rest rfl rope c' hle ⟨hlive, hfolded⟩
    have hpiece := hrest piece (List.mem_append_right _ (List.mem_cons_self ..))
    refine (Rope.wf_concat hlive (hle.live hpiece)).mono ?_ ?_
    · exact fun joined c'' _ hresult => ⟨hresult.1, hfolded.concat hresult.2⟩
    · intro fault hlarge
      have hbytes := hfolded.byteLen_eq
      have hchars := hfolded.charLen_le
      simp only [List.map_cons, List.map_append, List.sum_cons, List.sum_append,
        List.length_cons, List.length_append]
      rcases hlarge with ⟨-, hlt⟩ | ⟨-, hlt⟩ <;> omega

end Builder

end ByteRope
