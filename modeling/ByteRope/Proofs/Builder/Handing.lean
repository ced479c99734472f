import Mathlib.Data.List.Chain
import ByteRope.Proofs.Builder.Depths

/-!
# What builders hand on

A push hands ropes on to the forest: the piece held back, unless the new piece is merged into it,
and the new piece itself if it is not small (`Builder.hands`). It does nothing else to the forest
(`Builder.push_hands`), so the forest comes of appending what was handed on (`Builder.AppendedAll`).
A history keeps what was handed on beside the pieces (`Builder.Feeds`). What was handed on and then
the piece held back are the batches of the pieces, each merged into one leaf or left alone, and no
two neighbours could be merged any more (`Builder.Handing`).
-/

namespace ByteRope

/-- The root is a leaf. -/
def Rope.isLeaf : Rope → Bool
  | leaf .. => true
  | join .. | view .. => false

namespace Builder

open Rope (Concatenated Leafed)

variable {P : Rope → Prop} {encoding : Encoding} {config : Config} {builder builder' : Builder}
  {piece rope : Rope} {pieces batch handed : List Rope} {found : List (List Rope)}
  {small : Nat} {store store' : Store}

instance (config : Config) (tail piece : Rope) : Decidable (FitsTail config tail piece) :=
  inferInstanceAs (Decidable (_ ∧ _))

instance (builder : Builder) (piece : Rope) : Decidable (builder.Apart piece) :=
  inferInstanceAs (Decidable (∀ tail ∈ builder.tail?, ¬FitsTail builder.config tail piece))

/-! ## What a push hands on -/

/-- The ropes that a push adds to the forest, one after another. -/
def hands (builder : Builder) (piece : Rope) : List Rope :=
  if piece.byteLen = 0 ∨ ¬builder.Apart piece then []
  else if piece.byteLen ≤ builder.config.smallConcatBytes then builder.tail?.toList
  else builder.tail?.toList ++ [piece]

theorem hands_of_empty (h : piece.byteLen = 0) : builder.hands piece = [] := if_pos (.inl h)

theorem hands_of_merged (h : ¬builder.Apart piece) : builder.hands piece = [] := if_pos (.inr h)

theorem hands_of_small (hne : piece.byteLen ≠ 0) (hapart : builder.Apart piece)
    (hsmall : piece.byteLen ≤ builder.config.smallConcatBytes) :
    builder.hands piece = builder.tail?.toList := by
  rw [hands, if_neg (not_or.mpr ⟨hne, not_not.mpr hapart⟩), if_pos hsmall]

theorem hands_of_large (hne : piece.byteLen ≠ 0) (hapart : builder.Apart piece)
    (hlarge : builder.config.smallConcatBytes < piece.byteLen) :
    builder.hands piece = builder.tail?.toList ++ [piece] := by
  rw [hands, if_neg (not_or.mpr ⟨hne, not_not.mpr hapart⟩), if_neg (Nat.not_le_of_lt hlarge)]

theorem apart_of_none (h : builder.tail? = none) : builder.Apart piece := by
  intro tail htail
  rw [h] at htail
  cases htail

/-- The builder with nothing held back. -/
def bare (builder : Builder) : Builder := { builder with tail? := none }

theorem bare_of_none (h : builder.tail? = none) : builder.bare = builder := by
  rw [bare, ← h]

theorem append_eq (h : builder.append piece store = .ok builder' store') :
    ∃ forest, builder' = { builder with forest } := by
  obtain ⟨prepared, store₁, -, h⟩ := RopeM.exists_of_run_bind h
  cases hstrategy : builder.config.rebalance <;> simp only [hstrategy] at h
  all_goals
    obtain ⟨forest, store₂, -, h⟩ := RopeM.exists_of_run_bind h
    cases h
    exact ⟨forest, rfl⟩

theorem flushTail_eq (builder : Builder) :
    builder.flushTail = builder.tail?.toList.foldlM append builder.bare := by
  unfold flushTail
  split
  next hnone =>
    rw [hnone, bare_of_none hnone]
    rfl
  next tail htail =>
    rw [htail]
    exact (bind_pure _).symm

theorem flushTail_run (h : builder.flushTail store = .ok builder' store') :
    builder'.tail? = none ∧ builder'.config = builder.config := by
  rw [flushTail_eq] at h
  cases htail : builder.tail? with
  | none =>
    rw [htail] at h
    cases h
    exact ⟨rfl, rfl⟩
  | some tail =>
    rw [htail] at h
    obtain ⟨_, _, h, hlast⟩ := RopeM.exists_of_run_bind h
    obtain ⟨forest, rfl⟩ := append_eq h
    cases hlast
    exact ⟨rfl, rfl⟩

theorem accept_hands (hne : piece.byteLen ≠ 0) (hapart : builder.Apart piece)
    (h : builder.accept piece store = .ok builder' store') :
    (builder.hands piece).foldlM append builder.bare store = .ok builder'.bare store' := by
  obtain ⟨flushed, store₁, hflush, h⟩ := RopeM.exists_of_run_bind h
  obtain ⟨hnone, hconfig⟩ := flushTail_run hflush
  rw [flushTail_eq] at hflush
  split at h
  next hsmall =>
    rw [hconfig] at hsmall
    cases h
    rw [hands_of_small hne hapart hsmall, hflush]
    exact congrArg (EStateM.Result.ok · _) (bare_of_none hnone).symm
  next hlarge =>
    rw [hconfig] at hlarge
    obtain ⟨forest, rfl⟩ := append_eq h
    rw [hands_of_large hne hapart (Nat.lt_of_not_le hlarge), List.foldlM_append,
      RopeM.run_bind hflush, List.foldlM_cons, RopeM.run_bind h]
    have hbare : bare { flushed with forest } = { flushed with forest } := bare_of_none hnone
    exact congrArg (EStateM.Result.ok · store') hbare.symm

/-- A push does nothing to the forest but to append what it hands on. If the piece is merged, that
is nothing. -/
theorem push_hands (h : builder.push piece store = .ok builder' store') :
    (builder.hands piece).foldlM append builder.bare
      (if builder.Apart piece then store else store') = .ok builder'.bare store' := by
  unfold push at h
  split at h
  next hempty =>
    cases h
    rw [hands_of_empty (Rope.isEmpty_iff.mp hempty), ite_self]
    rfl
  next hfull =>
    have hne : piece.byteLen ≠ 0 := fun hzero => hfull (Rope.isEmpty_iff.mpr hzero)
    cases htail : builder.tail? with
    | none =>
      rw [htail] at h
      have hapart : builder.Apart piece := apart_of_none htail
      rw [if_pos hapart]
      exact accept_hands hne hapart h
    | some tail =>
      rw [htail] at h
      obtain ⟨fits, hfits, h⟩ := RopeM.exists_of_run_lift h
      have hiff := fitsTail_eq_ok hfits
      split at h
      next hyes =>
        have hmerged : ¬builder.Apart piece := fun hapart => hapart tail htail (hiff.mp hyes)
        obtain ⟨joined, store₁, -, h⟩ := RopeM.exists_of_run_bind h
        obtain ⟨leaf, store₂, -, h⟩ := RopeM.exists_of_run_bind h
        cases h
        rw [hands_of_merged hmerged, if_neg hmerged]
        rfl
      next hno =>
        have hapart : builder.Apart piece := by
          intro other hother hfits'
          cases htail.symm.trans hother
          exact hno (hiff.mpr hfits')
        rw [if_pos hapart]
        exact accept_hands hne hapart h

/-- The builder comes of a new one by appending the ropes to its forest one after another, in
whatever store each of them finds. -/
inductive AppendedAll (encoding : Encoding) (config : Config) : List Rope → Builder → Prop
  | new : AppendedAll encoding config [] (new encoding config)
  | next {handed : List Rope} {rope : Rope} {builder builder' : Builder} {store store' : Store} :
    AppendedAll encoding config handed builder → builder.append rope store = .ok builder' store' →
    AppendedAll encoding config (handed ++ [rope]) builder'

theorem AppendedAll.foldlM {ropes : List Rope} (h : AppendedAll encoding config handed builder)
    (hrun : ropes.foldlM append builder store = .ok builder' store') :
    AppendedAll encoding config (handed ++ ropes) builder' := by
  induction ropes generalizing handed builder store with
  | nil =>
    cases hrun
    rwa [List.append_nil]
  | cons rope ropes ih =>
    obtain ⟨_, _, happend, hrun⟩ := RopeM.exists_of_run_bind hrun
    rw [← List.singleton_append, ← List.append_assoc]
    exact ih (h.next happend) hrun

theorem AppendedAll.push (h : AppendedAll encoding config handed builder.bare)
    (hrun : builder.push piece store = .ok builder' store') :
    AppendedAll encoding config (handed ++ builder.hands piece) builder'.bare :=
  h.foldlM (push_hands hrun)

/-! ## Histories -/

/-- A builder that was made with these settings, the pieces that were pushed into it, and the ropes
that it handed on to its forest. -/
inductive Feeds (P : Rope → Prop) (encoding : Encoding) (config : Config) :
    List Rope → List Rope → Builder → Prop
  | new : Feeds P encoding config [] [] (new encoding config)
  | push {pieces handed : List Rope} {piece : Rope} {builder builder' : Builder} :
    Feeds P encoding config pieces handed builder → piece.WF → Pushed P builder piece builder' →
    Feeds P encoding config (pieces ++ [piece]) (handed ++ builder.hands piece) builder'

theorem Feeds.grown (h : Feeds P encoding config pieces handed builder) :
    Grown P encoding config pieces builder := by
  induction h with
  | new => exact .new
  | push _ _ hpushed ih => exact ih.push hpushed

theorem Feeds.wf (h : Feeds P encoding config pieces handed builder) :
    ∀ piece ∈ pieces, piece.WF := by
  induction h with
  | new => nofun
  | push _ hpiece _ ih =>
    exact List.forall_mem_append.mpr ⟨ih, List.forall_mem_singleton.mpr hpiece⟩

/-! ## Batches -/

/-- The rope is the only piece of the batch, or a small leaf over the pieces of the batch, which are
under one encoding. -/
inductive Gathers (small : Nat) : List Rope → Rope → Prop
  | piece {piece : Rope} : piece.byteLen ≠ 0 → Gathers small [piece] piece
  | leaf {batch : List Rope} {leaf : Rope} : 2 ≤ batch.length → leaf.isLeaf = true →
    leaf.byteLen ≤ small → leaf.content = batch.flatMap Rope.content →
    (∀ piece ∈ batch, piece.byteLen ≠ 0 ∧ piece.encoding = leaf.encoding) →
    Gathers small batch leaf

theorem Gathers.byteLen_ne (h : Gathers small batch rope) : ∀ piece ∈ batch, piece.byteLen ≠ 0 := by
  cases h with
  | piece hne => exact List.forall_mem_singleton.mpr hne
  | leaf _ _ _ _ hall => exact fun piece hmem => (hall piece hmem).1

/-- The rope is what the batch is merged into, and the batch is left alone or merged into a leaf. -/
structure Handled (config : Config) (batch : List Rope) (rope : Rope) : Prop where
  batched : Batched config batch rope
  gathers : Gathers config.smallConcatBytes batch rope

theorem Handled.single (hpiece : piece.WF) (hne : piece.byteLen ≠ 0) :
    Handled config [piece] piece :=
  ⟨.single hpiece hne, .piece hne⟩

theorem Handled.merge (h : Handled config batch rope) (hpiece : piece.WF) (hne : piece.byteLen ≠ 0)
    (hfits : FitsTail config rope piece) {policy : BalancePolicy} {joined leaf : Rope}
    (hconcat : Concatenated rope piece policy joined) (hleafed : Leafed joined leaf) :
    Handled config (batch ++ [piece]) leaf := by
  have hbatched := h.batched.merge hpiece hne hfits.1 hconcat hleafed
  have hlength := List.length_pos_of_ne_nil h.batched.ne_nil
  obtain ⟨id, kind, encoding, charLen, bytes, rfl⟩ := hleafed.exists_leaf
  refine ⟨hbatched, .leaf ?_ rfl ?_ hbatched.composed.content_eq fun other hmem => ⟨?_, ?_⟩⟩
  · rw [List.length_append, List.length_singleton]
    omega
  · rw [hleafed.byteLen_eq (hconcat.wf h.batched.composed.wf hpiece), hconcat.byteLen_eq]
    exact hfits.2
  · rcases List.mem_append.mp hmem with hold | hnew
    · exact h.gathers.byteLen_ne other hold
    · rwa [List.mem_singleton.mp hnew]
  · exact hbatched.encoding_eq other hmem

/-! ## What is handed on -/

/-- What was handed on and what is held back, the last rope first. -/
def laid (handed : List Rope) (builder : Builder) : List Rope :=
  builder.tail?.toList ++ handed.reverse

/-- What was handed on and is held back are the batches, the last of which comes first. Nothing in
it can be merged with its neighbour, and what is held back is small. If nothing is, then the last
rope that was handed on is not small. -/
structure Handing (found : List (List Rope)) (handed : List Rope) (builder : Builder) : Prop where
  handled : List.Forall₂ (Handled builder.config) found (laid handed builder)
  apart : (laid handed builder).IsChain fun next rope => ¬FitsTail builder.config rope next
  small : ∀ tail, builder.tail? = some tail → tail.byteLen ≤ builder.config.smallConcatBytes
  large : builder.tail? = none → ∀ rope, handed.reverse.head? = some rope →
    builder.config.smallConcatBytes < rope.byteLen

theorem handing_new (encoding : Encoding) (config : Config) :
    Handing [] [] (new encoding config) :=
  ⟨.nil, .nil, nofun, nofun⟩

/-- A piece that is not merged comes after all that is there. -/
theorem laid_of_accepted (hne : piece.byteLen ≠ 0) (hapart : builder.Apart piece)
    (h : Accepted P builder piece builder') :
    laid (handed ++ builder.hands piece) builder' = piece :: laid handed builder := by
  have hreverse : builder.tail?.toList.reverse = builder.tail?.toList := by
    cases builder.tail? <;> rfl
  cases h with
  | held hflushed hsmall =>
    rw [hands_of_small hne hapart hsmall, laid, laid, List.reverse_append, hreverse]
    rfl
  | large hflushed hlarge happended =>
    rw [hands_of_large hne hapart hlarge, laid, laid, happended.tail_eq, hflushed.tail_eq,
      List.reverse_append, List.reverse_append, hreverse]
    rfl

theorem Handing.not_fits (h : Handing found handed builder) (hapart : builder.Apart piece) :
    ∀ rope, (laid handed builder).head? = some rope → ¬FitsTail builder.config rope piece := by
  intro rope hhead
  cases htail : builder.tail? with
  | some tail =>
    rw [laid, htail] at hhead
    cases hhead
    exact hapart rope htail
  | none =>
    rw [laid, htail] at hhead
    have hlarge := h.large htail rope hhead
    exact fun hfits => by have := hfits.2; omega

/-- A piece that is not merged into a rope held back does not belong to the last batch. -/
theorem Handing.not_meets {last : List Rope} {earlier : List (List Rope)}
    (h : Handing (last :: earlier) handed builder) (hapart : builder.Apart piece) :
    ¬Meets builder.config.smallConcatBytes last piece := by
  have hfits := h.not_fits hapart
  have hhandled := h.handled
  generalize laid handed builder = ropes at hfits hhandled
  cases hhandled with
  | cons hlast => exact fun hmeets => hfits _ rfl (hlast.batched.fits_iff.mpr hmeets)

theorem Pushed.handing (h : Pushed P builder piece builder') (hpiece : piece.WF)
    (hbuilder : Handing found handed builder) :
    Handing (addPiece builder.config.smallConcatBytes found piece) (handed ++ builder.hands piece)
      builder' := by
  have hconfig := h.config_eq
  cases h with
  | empty hzero =>
    rw [addPiece.eq_def, if_pos hzero, hands_of_empty hzero, List.append_nil]
    exact hbuilder
  | @merged tail joined leaf hne htail hfits hconcat hleafed =>
    have hmerged : ¬builder.Apart piece := fun hapart => hapart tail htail hfits
    have hlaid : laid handed builder = tail :: handed.reverse := by rw [laid, htail]; rfl
    obtain ⟨hhandled, hchain, -, -⟩ := hbuilder
    rw [hlaid] at hhandled hchain
    rw [hands_of_merged hmerged, List.append_nil]
    cases hhandled with
    | @cons last _ earlier _ hlast hearlier =>
      simp only [addPiece, if_neg hne, if_pos (hlast.batched.fits_iff.mp hfits)]
      have hleaf := hlast.merge hpiece hne hfits hconcat hleafed
      have hlen : leaf.byteLen = tail.byteLen + piece.byteLen := by
        rw [hleafed.byteLen_eq (hconcat.wf hlast.batched.composed.wf hpiece), hconcat.byteLen_eq]
      obtain ⟨hhead, hrest⟩ := List.isChain_cons.mp hchain
      refine ⟨.cons hleaf hearlier, List.isChain_cons.mpr ⟨?_, hrest⟩, ?_, fun hnone => ?_⟩
      · -- The leaf is longer than the piece that was held back, under the same encoding.
        intro rope hrope hfits'
        refine hhead rope hrope ⟨hfits'.1.trans ?_, ?_⟩
        · have hmem := List.mem_append_right last (List.mem_singleton_self piece)
          exact (hfits.1.trans (hleaf.batched.encoding_eq piece hmem)).symm
        · have hle : rope.byteLen + leaf.byteLen ≤ builder.config.smallConcatBytes := hfits'.2
          omega
      · intro _ heq
        cases heq
        exact hlen ▸ hfits.2
      · cases hnone
  | accepted hne hapart haccepted =>
    have hlaid : laid (handed ++ builder.hands piece) builder' = piece :: laid handed builder :=
      laid_of_accepted hne hapart haccepted
    have hadd : addPiece builder.config.smallConcatBytes found piece = [piece] :: found := by
      rw [addPiece.eq_def, if_neg hne]
      cases found with
      | nil => rfl
      | cons last earlier => exact if_neg (hbuilder.not_meets hapart)
    rw [hadd]
    refine ⟨?_, ?_, ?_, ?_⟩
    · rw [hlaid, hconfig]
      exact .cons (.single hpiece hne) hbuilder.handled
    · rw [hlaid, hconfig]
      exact List.isChain_cons.mpr ⟨hbuilder.not_fits hapart, hbuilder.apart⟩
    · rw [hconfig]
      intro tail htail
      cases haccepted with
      | held _ hsmall =>
        cases htail
        exact hsmall
      | large hflushed _ happended =>
        rw [happended.tail_eq, hflushed.tail_eq] at htail
        cases htail
    · rw [hconfig]
      intro hnone rope hrope
      cases haccepted with
      | held => cases hnone
      | large _ hlarge =>
        rw [hands_of_large hne hapart hlarge, ← List.append_assoc, List.reverse_append] at hrope
        cases hrope
        exact hlarge

theorem Feeds.handing (h : Feeds P encoding config pieces handed builder) :
    Handing (pieces.foldl (addPiece config.smallConcatBytes) []) handed builder := by
  induction h with
  | new => exact handing_new encoding config
  | push hfeeds hpiece hpushed ih =>
    rw [List.foldl_append]
    rw [← hfeeds.grown.config_eq] at ih ⊢
    exact hpushed.handing hpiece ih

/-! ## Merging -/

theorem flatten_addPiece (small : Nat) (found : List (List Rope)) (piece : Rope) :
    (addPiece small found piece).reverse.flatten =
      found.reverse.flatten ++ Rope.nonempty [piece] := by
  unfold addPiece
  split
  next hzero => rw [Rope.nonempty_of_empty hzero, List.append_nil]
  next hne =>
    rw [Rope.nonempty_of_ne hne]
    split
    next => rfl
    next =>
      split
      next => simp
      next => simp

/-- The batches are made of the pieces that hold octets, one after another. -/
theorem flatten_batches (small : Nat) (pieces : List Rope) :
    (batches small pieces).flatten = Rope.nonempty pieces := by
  unfold batches
  induction pieces using List.reverseRecOn with
  | nil => rfl
  | append_singleton pieces piece ih =>
    rw [List.foldl_append, List.foldl_cons, List.foldl_nil, flatten_addPiece, ih,
      Rope.nonempty_append]

/-- How pieces are merged before the forest takes them: what was handed on and then what is held
back are the batches of the pieces, and no two neighbours could be merged any more. -/
structure Coalesces (small : Nat) (pieces handed : List Rope) (tail? : Option Rope) : Prop where
  flatten_eq : (batches small pieces).flatten = Rope.nonempty pieces
  gathers : List.Forall₂ (Gathers small) (batches small pieces) (handed ++ tail?.toList)
  apart : (handed ++ tail?.toList).IsChain fun rope next =>
    ¬(rope.encoding = next.encoding ∧ rope.byteLen + next.byteLen ≤ small)
  tail_le : ∀ tail, tail? = some tail → tail.byteLen ≤ small
  of_zero : small = 0 → tail? = none ∧ handed = Rope.nonempty pieces

/-- Nothing is merged if there is no room for two octets in a row. -/
theorem flatten_of_zero {ropes : List Rope} (hzero : config.smallConcatBytes = 0)
    (h : List.Forall₂ (Handled config) found ropes) : found.flatten = ropes := by
  induction h with
  | nil => rfl
  | cons hhandled _ ih =>
    rw [List.flatten_cons, ih]
    cases hhandled.gathers with
    | piece => rfl
    | leaf _ _ hsmall =>
      rw [hzero, Nat.le_zero] at hsmall
      exact absurd hsmall hhandled.batched.composed.byteLen_ne

theorem Feeds.coalesced (h : Feeds P encoding config pieces handed builder) :
    Coalesces config.smallConcatBytes pieces handed builder.tail? := by
  obtain ⟨hhandled, hchain, hsmall, -⟩ := h.handing
  have hreverse : (laid handed builder).reverse = handed ++ builder.tail?.toList := by
    rw [laid, List.reverse_append, List.reverse_reverse]
    cases builder.tail? <;> rfl
  rw [h.grown.config_eq] at hhandled hchain hsmall
  rw [← List.forall₂_reverse_iff, hreverse] at hhandled
  rw [← List.isChain_reverse, hreverse] at hchain
  refine ⟨flatten_batches _ pieces, hhandled.imp fun _ _ h => h.gathers, hchain, hsmall, ?_⟩
  intro hzero
  have hflatten := (flatten_batches _ pieces).symm.trans (flatten_of_zero hzero hhandled)
  cases htail : builder.tail? with
  | none =>
    rw [htail, Option.toList_none, List.append_nil] at hflatten
    exact ⟨rfl, hflatten.symm⟩
  | some tail =>
    rw [htail] at hhandled
    obtain ⟨batch, -, hbatch⟩ := hhandled.exists_left (List.mem_append_right handed
      (List.mem_singleton_self tail))
    have hle := hsmall tail htail
    rw [hzero, Nat.le_zero] at hle
    exact absurd hle hbatch.batched.composed.byteLen_ne

end Builder

end ByteRope
