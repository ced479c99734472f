import ByteRope.Builder
import ByteRope.Proofs.Rope.Rebalancing

/-!
# Steps of builders

What each step of a builder makes of its pieces, trees and forest, as relations between what is
there before and after. They say nothing of stores, so what a builder keeps up over many steps is
proved of them.
-/

namespace ByteRope.Builder

open Rope (Concatenated Leafed Rebalanced Rebuildable Scanned)

variable {P : Rope → Prop} {config : Config} {builder : Builder}

/-! ## Pieces and trees -/

/-- A piece as the forest takes it. -/
inductive Prepared (P : Rope → Prop) (config : Config) (piece : Rope) : Rope → Prop
  | kept : piece.isBalanced = true ∨ config.rebalance = .never → Prepared P config piece piece
  | rebuilt {rebuilt : Rope} : piece.isBalanced = false → config.rebalance = .rebalance →
    Rebalanced P config.policy piece rebuilt → (piece.isJoin = true → piece.Rebuildable) →
    rebuilt.isBalanced = true → Prepared P config piece rebuilt
  | unbalanced {rebuilt leaf : Rope} : piece.isBalanced = false → config.rebalance = .rebalance →
    Rebalanced P config.policy piece rebuilt → (piece.isJoin = true → piece.Rebuildable) →
    rebuilt.isBalanced = false → Leafed piece leaf → Prepared P config piece leaf
  | flattened {leaf : Rope} : piece.isBalanced = false → config.rebalance = .flatten →
    Leafed piece leaf → Prepared P config piece leaf

/-- Two trees in one. -/
inductive Merged (config : Config) (left right : Rope) : Rope → Prop
  | joined {joined : Rope} : config.rebalance ≠ .flatten →
    Concatenated left right config.policy joined → Merged config left right joined
  | flattened {joined leaf : Rope} : config.rebalance = .flatten →
    Concatenated left right config.policy joined → Leafed joined leaf →
    Merged config left right leaf

/-- A forest with one tree more, merged with the last trees as long as they hold equally many
pieces. -/
inductive Carried (config : Config) : Rope → Nat → List Tree → List Tree → Prop
  | alone {rope : Rope} {count : Nat} : Carried config rope count [] [⟨rope, count⟩]
  | stop {rope : Rope} {count : Nat} {last : Tree} {earlier : List Tree} : last.count ≠ count →
    Carried config rope count (last :: earlier) (⟨rope, count⟩ :: last :: earlier)
  | merge {rope merged : Rope} {count : Nat} {last : Tree} {earlier forest : List Tree} :
    last.count = count → Merged config last.rope rope merged →
    Carried config merged (count + last.count) earlier forest →
    Carried config rope count (last :: earlier) forest

/-- A forest with a piece added to its last tree. -/
inductive Extended (config : Config) (piece : Rope) : List Tree → List Tree → Prop
  | alone : Extended config piece [] [⟨piece, 1⟩]
  | more {joined : Rope} {last : Tree} {earlier : List Tree} :
    Concatenated last.rope piece config.policy joined →
    Extended config piece (last :: earlier) (⟨joined, last.count + 1⟩ :: earlier)

/-- A builder with a piece added to its forest. -/
inductive Appended (P : Rope → Prop) (builder : Builder) (piece : Rope) : Builder → Prop
  | carry {prepared : Rope} {forest : List Tree} : builder.config.rebalance ≠ .never →
    Prepared P builder.config piece prepared →
    Carried builder.config prepared 1 builder.forest forest →
    Appended P builder piece { builder with forest }
  | extend {prepared : Rope} {forest : List Tree} : builder.config.rebalance = .never →
    Prepared P builder.config piece prepared →
    Extended builder.config prepared builder.forest forest →
    Appended P builder piece { builder with forest }

/-- A builder with nothing held back. -/
inductive Flushed (P : Rope → Prop) (builder : Builder) : Builder → Prop
  | none : builder.tail? = .none → Flushed P builder builder
  | tail {tail : Rope} {builder' : Builder} : builder.tail? = some tail →
    Appended P { builder with tail? := .none } tail builder' → Flushed P builder builder'

/-! ## Pushing and building -/

/-- A builder with a piece that is not merged into the one held back. -/
inductive Accepted (P : Rope → Prop) (builder : Builder) (piece : Rope) : Builder → Prop
  | held {builder' : Builder} : Flushed P builder builder' →
    piece.byteLen ≤ builder.config.smallConcatBytes →
    Accepted P builder piece { builder' with tail? := some piece }
  | large {builder' builder'' : Builder} : Flushed P builder builder' →
    builder.config.smallConcatBytes < piece.byteLen → Appended P builder' piece builder'' →
    Accepted P builder piece builder''

/-- The piece is to be merged into the one held back. -/
def FitsTail (config : Config) (tail piece : Rope) : Prop :=
  tail.encoding = piece.encoding ∧ tail.byteLen + piece.byteLen ≤ config.smallConcatBytes

/-- A builder with a piece pushed. -/
inductive Pushed (P : Rope → Prop) (builder : Builder) (piece : Rope) : Builder → Prop
  | empty : piece.byteLen = 0 → Pushed P builder piece builder
  | merged {tail joined leaf : Rope} : piece.byteLen ≠ 0 → builder.tail? = some tail →
    FitsTail builder.config tail piece →
    Concatenated tail piece builder.config.policy joined → Leafed joined leaf →
    Pushed P builder piece { builder with tail? := some leaf }
  | accepted {builder' : Builder} : piece.byteLen ≠ 0 →
    (∀ tail, builder.tail? = some tail → ¬FitsTail builder.config tail piece) →
    Accepted P builder piece builder' → Pushed P builder piece builder'

/-- The trees of a forest joined, the last two first. -/
inductive Assembled (policy : BalancePolicy) : Rope → List Tree → Rope → Prop
  | nil {rope : Rope} : Assembled policy rope [] rope
  | cons {rope joined result : Rope} {tree : Tree} {earlier : List Tree} :
    Concatenated tree.rope rope policy joined → Assembled policy joined earlier result →
    Assembled policy rope (tree :: earlier) result

/-- The rope of all pieces. -/
inductive Built (P : Rope → Prop) (builder : Builder) : Rope → Prop
  | empty {builder' : Builder} {rope : Rope} : Flushed P builder builder' → builder'.forest = [] →
    Scanned builder'.encoding #[] rope → Built P builder rope
  | trees {builder' : Builder} {last : Tree} {earlier : List Tree} {rope : Rope} :
    Flushed P builder builder' → builder'.forest = last :: earlier →
    Assembled builder'.config.policy last.rope earlier rope → Built P builder rope

/-! ## Histories -/

/-- A builder that was made with these settings and into which these pieces were pushed. -/
inductive Grown (P : Rope → Prop) (encoding : Encoding) (config : Config) :
    List Rope → Builder → Prop
  | new : Grown P encoding config [] (new encoding config)
  | push {pieces : List Rope} {piece : Rope} {builder builder' : Builder} :
    Grown P encoding config pieces builder → Pushed P builder piece builder' →
    Grown P encoding config (pieces ++ [piece]) builder'

variable {encoding : Encoding} {pieces : List Rope} {piece : Rope} {builder' : Builder}

/-! The encoding and the settings of a builder never change. -/

theorem Appended.encoding_eq (h : Appended P builder piece builder') :
    builder'.encoding = builder.encoding := by
  cases h <;> rfl

theorem Appended.config_eq (h : Appended P builder piece builder') :
    builder'.config = builder.config := by
  cases h <;> rfl

theorem Appended.tail_eq (h : Appended P builder piece builder') :
    builder'.tail? = builder.tail? := by
  cases h <;> rfl

theorem Flushed.encoding_eq (h : Flushed P builder builder') :
    builder'.encoding = builder.encoding := by
  cases h with
  | none => rfl
  | tail _ happended => exact happended.encoding_eq

theorem Flushed.config_eq (h : Flushed P builder builder') : builder'.config = builder.config := by
  cases h with
  | none => rfl
  | tail _ happended => exact happended.config_eq

theorem Flushed.tail_eq (h : Flushed P builder builder') : builder'.tail? = .none := by
  cases h with
  | none hnone => exact hnone
  | tail _ happended => exact happended.tail_eq

theorem Pushed.encoding_eq (h : Pushed P builder piece builder') :
    builder'.encoding = builder.encoding := by
  cases h with
  | empty | merged => rfl
  | accepted _ _ haccepted =>
    cases haccepted with
    | held hflushed => exact hflushed.encoding_eq
    | large hflushed _ happended => exact happended.encoding_eq.trans hflushed.encoding_eq

theorem Pushed.config_eq (h : Pushed P builder piece builder') :
    builder'.config = builder.config := by
  cases h with
  | empty | merged => rfl
  | accepted _ _ haccepted =>
    cases haccepted with
    | held hflushed => exact hflushed.config_eq
    | large hflushed _ happended => exact happended.config_eq.trans hflushed.config_eq

theorem Grown.encoding_eq (h : Grown P encoding config pieces builder) :
    builder.encoding = encoding := by
  induction h with
  | new => rfl
  | push _ hpushed ih => exact hpushed.encoding_eq.trans ih

theorem Grown.config_eq (h : Grown P encoding config pieces builder) : builder.config = config := by
  induction h with
  | new => rfl
  | push _ hpushed ih => exact hpushed.config_eq.trans ih

/-- What is held back is a piece that was pushed, or a leaf. -/
theorem Grown.tail (h : Grown P encoding config pieces builder) {tail : Rope}
    (htail : builder.tail? = some tail) : tail ∈ pieces ∨ tail.depth = 0 := by
  induction h with
  | new => cases htail
  | push _ hpushed ih =>
    cases hpushed with
    | empty => exact (ih htail).imp_left (List.mem_append_left _)
    | merged _ _ _ _ hleafed =>
      cases htail
      exact .inr hleafed.depth_eq
    | accepted _ _ haccepted =>
      cases haccepted with
      | held =>
        cases htail
        exact .inl (List.mem_append_right _ (List.mem_singleton_self _))
      | large hflushed _ happended =>
        rw [happended.tail_eq, hflushed.tail_eq] at htail
        cases htail

end ByteRope.Builder
