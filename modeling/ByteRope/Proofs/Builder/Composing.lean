import ByteRope.Proofs.Builder.Whole
import ByteRope.Proofs.Rope.Composing

/-!
# What builders are composed of

The trees of a builder's forest, first to last, and then the piece held back are composed of the
pieces that were pushed (`Builder.Composed`): nothing is lost, doubled or moved. Every step keeps
that, so what is built is composed of the pieces, and so is what putting one piece after another
makes of them. Empty pieces leave no trace.
-/

namespace ByteRope

open Rope (Concatenated Scanned)

variable {P : Rope → Prop} {encoding : Encoding} {config : Config} {policy : BalancePolicy}
  {pieces front back : List Rope} {first piece rope prepared left right : Rope}

/-- The pieces that hold octets. -/
def Rope.nonempty (pieces : List Rope) : List Rope := pieces.filter fun piece => !piece.isEmpty

theorem Rope.nonempty_append (front back : List Rope) :
    nonempty (front ++ back) = nonempty front ++ nonempty back := List.filter_append ..

theorem Rope.nonempty_of_empty (h : piece.byteLen = 0) : nonempty [piece] = [] := by
  simp [nonempty, isEmpty_iff.mpr h]

theorem Rope.nonempty_of_ne (h : piece.byteLen ≠ 0) : nonempty [piece] = [piece] := by
  have hfull : piece.isEmpty = false :=
    Bool.eq_false_iff.mpr fun hempty => h (isEmpty_iff.mp hempty)
  simp [nonempty, hfull]

theorem Rope.flatMap_content_nonempty (h : ∀ piece ∈ pieces, piece.WF) :
    (nonempty pieces).flatMap content = pieces.flatMap content := by
  induction pieces with
  | nil => rfl
  | cons piece pieces ih =>
    obtain ⟨hpiece, hpieces⟩ := List.forall_mem_cons.mp h
    rw [← List.singleton_append, nonempty_append, List.flatMap_append, List.flatMap_append,
      ih hpieces]
    congr 1
    by_cases hzero : piece.byteLen = 0
    · have hnil := hpiece.isEmpty_iff_content.mp (isEmpty_iff.mpr hzero)
      rw [nonempty_of_empty hzero, List.flatMap_singleton, hnil, List.flatMap_nil]
    · rw [nonempty_of_ne hzero]

theorem Rope.mem_nonempty : piece ∈ nonempty pieces ↔ piece ∈ pieces ∧ piece.byteLen ≠ 0 := by
  rw [nonempty, List.mem_filter, Bool.not_eq_true', ← Bool.not_eq_true, isEmpty_iff]

/-! ## Folds -/

theorem Rope.concat_of_empty (h : right.byteLen = 0) : left.concat right policy = pure left :=
  if_pos (isEmpty_iff.mpr h)

theorem Rope.concat_of_empty_left (h : left.byteLen = 0) (hright : right.byteLen ≠ 0) :
    left.concat right policy = pure right := by
  unfold concat
  rw [if_neg fun hempty => hright (isEmpty_iff.mp hempty), if_pos (isEmpty_iff.mpr h)]

theorem Rope.foldlM_nonempty :
    (nonempty pieces).foldlM (fun rope piece => rope.concat piece policy) rope =
      pieces.foldlM (fun rope piece => rope.concat piece policy) rope := by
  induction pieces generalizing rope with
  | nil => rfl
  | cons piece pieces ih =>
    rw [← List.singleton_append, nonempty_append, List.foldlM_append, List.foldlM_append]
    simp only [ih]
    by_cases hzero : piece.byteLen = 0
    · rw [nonempty_of_empty hzero, List.foldlM_cons, concat_of_empty hzero]
      rfl
    · rw [nonempty_of_ne hzero]

/-- A fold passes over empty pieces, unless all are. -/
theorem Rope.fold_nonempty (h : nonempty pieces ≠ []) :
    fold encoding policy (nonempty pieces) = fold encoding policy pieces := by
  cases pieces with
  | nil => exact absurd rfl h
  | cons first rest =>
    by_cases hzero : first.byteLen = 0
    · -- An empty first piece stays until a piece with octets takes its place.
      rw [← List.singleton_append, nonempty_append, nonempty_of_empty hzero, List.nil_append] at h ⊢
      change _ = rest.foldlM _ first
      induction rest with
      | nil => exact absurd rfl h
      | cons piece rest ih =>
        rw [← List.singleton_append, nonempty_append] at h ⊢
        rw [List.singleton_append, List.foldlM_cons]
        by_cases hpiece : piece.byteLen = 0
        · rw [nonempty_of_empty hpiece, List.nil_append] at h ⊢
          rw [concat_of_empty hpiece, pure_bind]
          exact ih h
        · rw [nonempty_of_ne hpiece, concat_of_empty_left hzero hpiece, pure_bind]
          exact foldlM_nonempty
    · rw [← List.singleton_append, nonempty_append, nonempty_of_ne hzero]
      exact foldlM_nonempty

namespace Builder

variable {builder builder' : Builder} {forest forest' : List Tree} {count : Nat}

/-- The trees of a forest are composed of the pieces. The last tree stands first, and its pieces
last. -/
inductive Planted : List Rope → List Tree → Prop
  | nil : Planted [] []
  | cons {front back : List Rope} {last : Tree} {earlier : List Tree} : Planted front earlier →
    Rope.Composed back last.rope → Planted (front ++ back) (last :: earlier)

/-- The forest and then the piece held back are composed of the pieces. -/
inductive Composed : List Rope → Builder → Prop
  | flushed {pieces : List Rope} {builder : Builder} : builder.tail? = none →
    Planted pieces builder.forest → Composed pieces builder
  | held {front back : List Rope} {builder : Builder} {tail : Rope} : builder.tail? = some tail →
    Planted front builder.forest → Rope.Composed back tail → Composed (front ++ back) builder

theorem Planted.forestLen_eq (h : Planted pieces forest) :
    forestLen forest = (pieces.flatMap Rope.content).length := by
  induction h with
  | nil => rfl
  | @cons front back last earlier _ hlast ih =>
    have hsum : forestLen (last :: earlier) = last.rope.byteLen + forestLen earlier := List.sum_cons
    rw [hsum, ih, ← hlast.wf.length_content, hlast.content_eq, List.flatMap_append,
      List.length_append, Nat.add_comm]

theorem Composed.len_eq (h : Composed pieces builder) :
    builder.len = (pieces.flatMap Rope.content).length := by
  cases h with
  | flushed hnone hforest =>
    rw [len, hnone, hforest.forestLen_eq]
    rfl
  | held htail hforest hback =>
    rw [len, htail, hforest.forestLen_eq, List.flatMap_append, List.length_append,
      ← hback.content_eq, hback.wf.length_content]
    rfl

/-! ## Steps -/

theorem Prepared.composed (hP : ∀ rope, P rope → rope.WF) (h : Prepared P config piece prepared)
    (hpiece : Rope.Composed pieces piece) : Rope.Composed pieces prepared := by
  cases h with
  | kept => exact hpiece
  | rebuilt _ _ hrebalanced => exact hpiece.rebalanced hP hrebalanced
  | unbalanced _ _ _ _ _ hleafed | flattened _ _ hleafed => exact hpiece.leafed hleafed

theorem Merged.composed (h : Merged config left right rope) (hleft : Rope.Composed front left)
    (hright : Rope.Composed back right) : Rope.Composed (front ++ back) rope := by
  cases h with
  | joined _ hconcat => exact hleft.join hright hconcat
  | flattened _ hconcat hleafed => exact (hleft.join hright hconcat).leafed hleafed

theorem Carried.planted (h : Carried config rope count forest forest')
    (hrope : Rope.Composed back rope) (hforest : Planted front forest) :
    Planted (front ++ back) forest' := by
  induction h generalizing front back with
  | alone => exact hforest.cons hrope
  | stop => exact hforest.cons hrope
  | merge _ hmerged _ ih =>
    cases hforest with
    | cons hearlier hlast =>
      rw [List.append_assoc]
      exact ih (hmerged.composed hlast hrope) hearlier

theorem Extended.planted (h : Extended config piece forest forest')
    (hpiece : Rope.Composed back piece) (hforest : Planted front forest) :
    Planted (front ++ back) forest' := by
  cases h with
  | alone => exact hforest.cons hpiece
  | more hconcat =>
    cases hforest with
    | cons hearlier hlast =>
      rw [List.append_assoc]
      exact hearlier.cons (hlast.join hpiece hconcat)

theorem Appended.planted (hP : ∀ rope, P rope → rope.WF) (h : Appended P builder piece builder')
    (hpiece : Rope.Composed back piece) (hforest : Planted front builder.forest) :
    Planted (front ++ back) builder'.forest := by
  cases h with
  | carry _ hprepared hcarried => exact hcarried.planted (hprepared.composed hP hpiece) hforest
  | extend _ hprepared hextended => exact hextended.planted (hprepared.composed hP hpiece) hforest

theorem Flushed.planted (hP : ∀ rope, P rope → rope.WF) (h : Flushed P builder builder')
    (hbuilder : Composed pieces builder) : Planted pieces builder'.forest := by
  cases h with
  | none hnone =>
    cases hbuilder with
    | flushed _ hforest => exact hforest
    | held htail =>
      rw [hnone] at htail
      cases htail
  | tail htail happended =>
    cases hbuilder with
    | flushed hnone =>
      rw [hnone] at htail
      cases htail
    | held htail' hforest hback =>
      cases htail.symm.trans htail'
      exact happended.planted hP hback hforest

theorem Pushed.composed (hP : ∀ rope, P rope → rope.WF) (h : Pushed P builder piece builder')
    (hpiece : piece.WF) (hbuilder : Composed pieces builder) :
    Composed (pieces ++ Rope.nonempty [piece]) builder' := by
  cases h with
  | empty hzero => rwa [Rope.nonempty_of_empty hzero, List.append_nil]
  | merged hne htail _ hconcat hleafed =>
    rw [Rope.nonempty_of_ne hne]
    cases hbuilder with
    | flushed hnone =>
      rw [hnone] at htail
      cases htail
    | held htail' hforest hback =>
      cases htail.symm.trans htail'
      rw [List.append_assoc]
      exact .held rfl hforest ((hback.join (.piece hpiece hne) hconcat).leafed hleafed)
  | accepted hne _ haccepted =>
    rw [Rope.nonempty_of_ne hne]
    cases haccepted with
    | held hflushed =>
      have hforest := hflushed.planted hP hbuilder
      exact .held rfl hforest (.piece hpiece hne)
    | large hflushed _ happended =>
      refine .flushed (happended.tail_eq.trans hflushed.tail_eq) ?_
      exact happended.planted hP (.piece hpiece hne) (hflushed.planted hP hbuilder)

/-! ## Runs -/

theorem composed_new (encoding : Encoding) (config : Config) : Composed [] (new encoding config) :=
  .flushed rfl .nil

/-- A builder is composed of the pieces that were pushed into it. -/
theorem Grown.composed (hP : ∀ rope, P rope → rope.WF) (h : Grown P encoding config pieces builder)
    (hpieces : ∀ piece ∈ pieces, piece.WF) : Composed (Rope.nonempty pieces) builder := by
  induction h with
  | new => exact composed_new encoding config
  | push _ hpushed ih =>
    obtain ⟨hpieces, hpiece⟩ := List.forall_mem_append.mp hpieces
    rw [Rope.nonempty_append]
    exact hpushed.composed hP (hpiece _ (List.mem_singleton_self _)) (ih hpieces)

theorem Assembled.composed (h : Assembled policy piece forest rope)
    (hpiece : Rope.Composed back piece) (hforest : Planted front forest) :
    Rope.Composed (front ++ back) rope := by
  induction h generalizing front back with
  | nil =>
    cases hforest
    exact hpiece
  | cons hconcat _ ih =>
    cases hforest with
    | cons hearlier htree =>
      rw [List.append_assoc]
      exact ih (htree.join hpiece hconcat) hearlier

/-- What is built is composed of the pieces, or is an empty leaf if there are none. -/
theorem Built.composed (hP : ∀ rope, P rope → rope.WF) (h : Built P builder rope)
    (hbuilder : Composed pieces builder) :
    (pieces = [] ∧ Scanned builder.encoding #[] rope) ∨ Rope.Composed pieces rope := by
  cases h with
  | empty hflushed hforest hscanned =>
    have hplanted := hflushed.planted hP hbuilder
    rw [hforest] at hplanted
    cases hplanted
    exact .inl ⟨rfl, hflushed.encoding_eq ▸ hscanned⟩
  | trees hflushed hforest hassembled =>
    have hplanted := hflushed.planted hP hbuilder
    rw [hforest] at hplanted
    cases hplanted with
    | cons hearlier hlast => exact .inr (hassembled.composed hlast hearlier)

theorem Folded.composed (h : Folded policy first pieces rope)
    (hpieces : ∀ piece ∈ first :: pieces, piece.WF ∧ piece.byteLen ≠ 0) :
    Rope.Composed (first :: pieces) rope := by
  induction h with
  | nil =>
    obtain ⟨hwf, hne⟩ := hpieces first (List.mem_singleton_self _)
    exact .piece hwf hne
  | @concat pieces rope piece joined _ hconcat ih =>
    rw [← List.cons_append] at hpieces ⊢
    obtain ⟨hpieces, hpiece⟩ := List.forall_mem_append.mp hpieces
    obtain ⟨hwf, hne⟩ := hpiece piece (List.mem_singleton_self _)
    exact (ih hpieces).join (.piece hwf hne) hconcat

theorem Folds.composed (h : Folds encoding policy pieces rope)
    (hpieces : ∀ piece ∈ pieces, piece.WF ∧ piece.byteLen ≠ 0) :
    (pieces = [] ∧ Scanned encoding #[] rope) ∨ Rope.Composed pieces rope := by
  cases h with
  | empty hscanned => exact .inl ⟨rfl, hscanned⟩
  | pieces hfolded => exact .inr (hfolded.composed hpieces)

/-! ## Octets -/

/-- The forest and then the piece held back hold the octets. -/
def Contains (octets : List UInt8) (builder : Builder) : Prop :=
  ∃ pieces, Composed pieces builder ∧ pieces.flatMap Rope.content = octets

/-- The builder has taken in these octets at its end. -/
def Gains (octets : List UInt8) (builder builder' : Builder) : Prop :=
  ∀ pushed, builder.Contains pushed → builder'.Contains (pushed ++ octets)

variable {octets octets' : List UInt8} {builder'' : Builder}

theorem contains_new (encoding : Encoding) (config : Config) :
    (new encoding config).Contains [] :=
  ⟨[], composed_new encoding config, rfl⟩

theorem Contains.len_eq (h : builder.Contains octets) : builder.len = octets.length := by
  obtain ⟨pieces, hcomposed, rfl⟩ := h
  exact hcomposed.len_eq

/-- What is built holds the octets that the builder holds. -/
theorem Contains.built (hP : ∀ rope, P rope → rope.WF) (h : builder.Contains octets)
    (hbuilt : Built P builder rope) : rope.content = octets := by
  obtain ⟨pieces, hcomposed, rfl⟩ := h
  rcases hbuilt.composed hP hcomposed with ⟨rfl, ⟨⟩⟩ | hrope
  · rfl
  · exact hrope.content_eq

theorem Gains.refl (builder : Builder) : Gains [] builder builder := by
  intro pushed h
  rwa [List.append_nil]

theorem Gains.trans (h : Gains octets builder builder') (h' : Gains octets' builder' builder'') :
    Gains (octets ++ octets') builder builder'' := by
  intro pushed hpushed
  rw [← List.append_assoc]
  exact h' _ (h pushed hpushed)

theorem Pushed.gains (hP : ∀ rope, P rope → rope.WF) (h : Pushed P builder piece builder')
    (hpiece : piece.WF) : Gains piece.content builder builder' := by
  rintro _ ⟨pieces, hcomposed, rfl⟩
  refine ⟨_, h.composed hP hpiece hcomposed, ?_⟩
  have hall : ∀ other ∈ [piece], other.WF := fun other hmem => List.mem_singleton.mp hmem ▸ hpiece
  rw [List.flatMap_append, Rope.flatMap_content_nonempty hall, List.flatMap_singleton]

end Builder

end ByteRope
