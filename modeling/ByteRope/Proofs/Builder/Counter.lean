import ByteRope.Proofs.Builder.Steps

/-!
# Counting in twos

The counts in a forest are the digits of a binary counter (`Builder.Digits`), and each tree stands
for as many parts in a row as it counts (`Builder.Counts`). What merging two trees of equally many
parts makes of them, carrying makes of all parts (`Builder.Carried.bears`). In the end each tree is
joined with fewer parts than it has itself (`Builder.Bears.assembled`).
-/

namespace ByteRope.Builder

open Rope (Concatenated)

variable {α : Type} {R : List α → Rope → Prop} {config : Config} {policy : BalancePolicy}
  {parts left right : List α} {part : α} {lists : List (List α)} {rope rope' l r : Rope}
  {count : Nat} {last : Tree} {forest forest' earlier : List Tree}

/-! ## Digits -/

/-- The lengths are powers of two, each more than the one before it. -/
def Digits (lengths : List Nat) : Prop :=
  (∀ length ∈ lengths, ∃ count, length = 2 ^ count) ∧ lengths.Pairwise (· < ·)

/-- A digit after the next is worth at least twice as much. -/
theorem Digits.double_le {length : Nat} {lengths : List Nat} (h : Digits (length :: lengths))
    {other : Nat} (hmem : other ∈ lengths) : length + length ≤ other := by
  obtain ⟨count, rfl⟩ := h.1 length (List.mem_cons_self ..)
  obtain ⟨count', rfl⟩ := h.1 other (List.mem_cons_of_mem _ hmem)
  have hlt := (List.pairwise_cons.mp h.2).1 _ hmem
  rw [← Nat.mul_two, ← Nat.pow_succ]
  exact Nat.pow_le_pow_right (by decide) ((Nat.pow_lt_pow_iff_right (by decide)).mp hlt)

theorem Digits.cons {length next : Nat} {lengths : List Nat} (h : Digits (next :: lengths))
    (hpow : ∃ count, length = 2 ^ count) (hlt : length < next) :
    Digits (length :: next :: lengths) := by
  refine ⟨List.forall_mem_cons.mpr ⟨hpow, h.1⟩, List.pairwise_cons.mpr ⟨fun other hmem => ?_, h.2⟩⟩
  rcases List.mem_cons.mp hmem with rfl | hmem
  · exact hlt
  · exact Nat.lt_trans hlt ((List.pairwise_cons.mp h.2).1 other hmem)

theorem Digits.tail {length : Nat} {lengths : List Nat} (h : Digits (length :: lengths)) :
    Digits lengths :=
  ⟨fun other hmem => h.1 other (List.mem_cons_of_mem _ hmem), (List.pairwise_cons.mp h.2).2⟩

/-! ## Forests -/

/-- Each tree stands for a list of parts as `R` says, and counts them. -/
def Counts (R : List α → Rope → Prop) (forest : List Tree) (lists : List (List α)) : Prop :=
  List.Forall₂ (fun tree parts => R parts tree.rope ∧ tree.count = parts.length) forest lists

/-- Merging two trees that stand for equally many parts makes a tree that stands for all of them. -/
def Merges (config : Config) (R : List α → Rope → Prop) : Prop :=
  ∀ {left right l r rope}, left.length = right.length → (∃ digit, left.length = 2 ^ digit) →
    R left l → R right r → Merged config l r rope → R (left ++ right) rope

/-- Joining a tree with a rope that stands for fewer parts makes one that stands for all of them. -/
def Joins (policy : BalancePolicy) (R : List α → Rope → Prop) : Prop :=
  ∀ {left right l r rope}, right.length < left.length → (∃ digit, left.length = 2 ^ digit) →
    R left l → R right r → Concatenated l r policy rope → R (left ++ right) rope

/-- The induction is on the carries: the part that is carried doubles with every one. -/
theorem Carried.counts (hmerges : Merges config R) (h : Carried config rope count forest forest')
    (hrope : R parts rope) (hcount : count = parts.length)
    (hpow : ∃ digit, parts.length = 2 ^ digit) (hforest : Counts R forest lists)
    (hdigits : Digits (lists.map List.length))
    (hle : ∀ list ∈ lists, parts.length ≤ list.length) :
    ∃ lists', Counts R forest' lists' ∧ Digits (lists'.map List.length) ∧
      lists'.reverse.flatten = lists.reverse.flatten ++ parts := by
  induction h generalizing parts lists with
  | alone =>
    cases hforest
    exact ⟨[parts], .cons ⟨hrope, hcount⟩ .nil, ⟨by simpa using hpow, by simp⟩, by simp⟩
  | @stop rope count last earlier hne =>
    refine ⟨parts :: lists, .cons ⟨hrope, hcount⟩ hforest, ?_, by simp⟩
    cases hforest with
    | @cons _ list _ rest hlast hearlier =>
      refine hdigits.cons hpow (Nat.lt_of_le_of_ne (hle list (List.mem_cons_self ..)) ?_)
      rw [← hcount, ← hlast.2]
      exact hne.symm
  | @merge rope merged count last earlier forest heq hmerged _ ih =>
    cases hforest with
    | @cons _ list _ rest hlast hearlier =>
      have hlength : list.length = parts.length := by rw [← hlast.2, heq, hcount]
      have hlength' : count + last.count = (list ++ parts).length := by
        rw [List.length_append, hcount, hlast.2, Nat.add_comm]
      have hdouble : ∃ digit, (list ++ parts).length = 2 ^ digit := by
        obtain ⟨digit, hdigit⟩ := hpow
        exact ⟨digit + 1, by rw [List.length_append, hlength, hdigit, Nat.pow_succ, Nat.mul_two]⟩
      have hle' : ∀ other ∈ rest, (list ++ parts).length ≤ other.length := by
        intro other hmem
        rw [List.length_append, ← hlength]
        exact hdigits.double_le (List.mem_map_of_mem hmem)
      have hmerged := hmerges hlength (hlength ▸ hpow) hlast.1 hrope hmerged
      obtain ⟨lists', hcounts, hdigits', hflatten⟩ :=
        ih hmerged hlength' hdouble hearlier hdigits.tail hle'
      exact ⟨lists', hcounts, hdigits', hflatten.trans (by simp)⟩

theorem Assembled.counts (hjoins : Joins policy R) (h : Assembled policy rope forest rope')
    (hrope : R parts rope) (hforest : Counts R forest lists)
    (hdigits : Digits (lists.map List.length))
    (hlt : ∀ list ∈ lists, parts.length < list.length) :
    R (lists.reverse.flatten ++ parts) rope' := by
  induction h generalizing parts lists with
  | nil =>
    cases hforest
    exact hrope
  | @cons rope joined result tree earlier hconcat _ ih =>
    cases hforest with
    | @cons _ list _ rest htree hearlier =>
      have hlt' := hlt list (List.mem_cons_self ..)
      have hpow := hdigits.1 _ (List.mem_cons_self ..)
      have hjoined := hjoins hlt' hpow htree.1 hrope hconcat
      have hresult := ih hjoined hearlier hdigits.tail fun other hmem => ?_
      · simpa using hresult
      · have hdouble := hdigits.double_le (List.mem_map_of_mem hmem)
        rw [List.length_append]
        omega

/-- The forest stands for the parts, like a binary counter for their number. -/
def Bears (R : List α → Rope → Prop) (parts : List α) (forest : List Tree) : Prop :=
  ∃ lists, Counts R forest lists ∧ Digits (lists.map List.length) ∧ lists.reverse.flatten = parts

theorem bears_nil (R : List α → Rope → Prop) : Bears R [] [] :=
  ⟨[], .nil, ⟨nofun, .nil⟩, rfl⟩

/-- A forest takes in one part at a time. -/
theorem Carried.bears (hmerges : Merges config R) (h : Carried config rope 1 forest forest')
    (hrope : R [part] rope) (hforest : Bears R parts forest) :
    Bears R (parts ++ [part]) forest' := by
  obtain ⟨lists, hcounts, hdigits, rfl⟩ := hforest
  refine h.counts hmerges hrope rfl ⟨0, rfl⟩ hcounts hdigits fun list hmem => ?_
  obtain ⟨digit, hdigit⟩ := hdigits.1 _ (List.mem_map_of_mem hmem)
  exact hdigit ▸ Nat.two_pow_pos digit

theorem Bears.assembled (hforest : Bears R parts (last :: earlier)) (hjoins : Joins policy R)
    (h : Assembled policy last.rope earlier rope) : R parts rope := by
  obtain ⟨lists, hcounts, hdigits, rfl⟩ := hforest
  cases hcounts with
  | @cons _ list _ rest hlast hearlier =>
    rw [List.reverse_cons, List.flatten_append, List.flatten_singleton]
    refine h.counts hjoins hlast.1 hearlier hdigits.tail fun other hmem => ?_
    obtain ⟨digit, hdigit⟩ := hdigits.1 _ (List.mem_cons_self ..)
    have hpos := hdigit ▸ Nat.two_pow_pos digit
    have hdouble := hdigits.double_le (List.mem_map_of_mem hmem)
    omega

theorem Bears.eq_nil (h : Bears R parts []) : parts = [] := by
  obtain ⟨lists, hcounts, -, rfl⟩ := h
  cases hcounts
  rfl

end ByteRope.Builder
