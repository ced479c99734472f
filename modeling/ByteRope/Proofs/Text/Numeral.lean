import Mathlib.Data.List.TakeWhile
import Mathlib.Data.Nat.Digits.Defs
import ByteRope.Text.Numeral

/-!
# Texts with blanks around them, and numbers written out

Trimming takes away the blanks around a text and nothing else (`Text.framed_trim`,
`Text.trim_of_framed`). The texts that stand for a size are the numerals up to the largest size:
blanks, an optional plus sign, ASCII digits, blanks (`Text.size?_eq_some_iff`).
-/

namespace ByteRope.Text

variable {core text : List Char} {size : Nat}

/-! ## Blanks -/

/-- The text is the core with blanks around it. -/
inductive Framed (core : List Char) : List Char → Prop
  | intro {before after : List Char} : (∀ c ∈ before, isBlank c = true) →
    (∀ c ∈ after, isBlank c = true) → Framed core (before ++ core ++ after)

theorem framed_trim (text : List Char) : Framed (trim text) text := by
  let rest := text.dropWhile isBlank
  have hsplit : text = text.takeWhile isBlank ++ trim text ++
      (rest.reverse.takeWhile isBlank).reverse := by
    rw [trim, List.append_assoc, ← List.reverse_append, List.takeWhile_append_dropWhile,
      List.reverse_reverse, List.takeWhile_append_dropWhile]
  have hbefore : ∀ c ∈ text.takeWhile isBlank, isBlank c = true :=
    fun c hc => List.mem_takeWhile_imp hc
  have hafter : ∀ c ∈ (rest.reverse.takeWhile isBlank).reverse, isBlank c = true :=
    fun c hc => List.mem_takeWhile_imp (List.mem_reverse.mp hc)
  have hframed : Framed (trim text) _ := .intro hbefore hafter
  rwa [← hsplit] at hframed

theorem dropWhile_of_bare (hcore : ∀ c ∈ core, isBlank c = false) (hne : core ≠ [])
    (rest : List Char) : (core ++ rest).dropWhile isBlank = core ++ rest := by
  cases core with
  | nil => exact absurd rfl hne
  | cons c core =>
    have hc : ¬isBlank c = true := Bool.eq_false_iff.mp (hcore c (List.mem_cons_self ..))
    rw [List.cons_append, List.dropWhile_cons_of_neg hc]

theorem trim_of_framed (h : Framed core text) (hcore : ∀ c ∈ core, isBlank c = false) :
    trim text = core := by
  cases h with
  | @intro before after hbefore hafter =>
    have hafter' : ∀ c ∈ after.reverse, isBlank c = true :=
      fun c hc => hafter c (List.mem_reverse.mp hc)
    have hcore' : ∀ c ∈ core.reverse, isBlank c = false :=
      fun c hc => hcore c (List.mem_reverse.mp hc)
    rw [trim, List.append_assoc, List.dropWhile_append_of_pos hbefore]
    by_cases hne : core = []
    · rw [hne, List.nil_append, List.dropWhile_eq_nil_iff.mpr hafter]
      rfl
    · have hne' : core.reverse ≠ [] := by simpa using hne
      have hlast := dropWhile_of_bare hcore' hne' []
      rw [List.append_nil] at hlast
      rw [dropWhile_of_bare hcore hne, List.reverse_append, List.dropWhile_append_of_pos hafter',
        hlast, List.reverse_reverse]

theorem toLower_of_isBlank {c : Char} (h : isBlank c = true) : c.toLower = c := by
  have hmem := List.contains_iff_mem.mp h
  unfold Char.toLower
  split
  next hcapital =>
    have hrange : 65 ≤ c.toNat ∧ c.toNat ≤ 90 := by
      simpa [UInt32.le_iff_toNat_le] using hcapital
    simp only [blankCodes, List.mem_cons, List.not_mem_nil, or_false] at hmem
    omega
  next => rfl

/-! ## Numerals -/

/-- An optional plus sign and one or more ASCII digits. -/
structure Numeral where
  plus : Bool
  digits : List Char
  digits_ne : digits ≠ []
  isDigit : ∀ c ∈ digits, c.isDigit = true

namespace Numeral

/-- How the numeral is written. -/
def spelling (numeral : Numeral) : List Char :=
  (if numeral.plus then ['+'] else []) ++ numeral.digits

/-- The number that the digits are in the decimal system, the last digit being the ones. -/
def value (numeral : Numeral) : Nat :=
  Nat.ofDigits 10 (numeral.digits.reverse.map fun c => c.toNat - '0'.toNat)

end Numeral

/-- The text is a numeral of this size with blanks around it. -/
def Denotes (text : String) (size : Nat) : Prop :=
  size ≤ Size.max ∧ ∃ numeral : Numeral, Framed numeral.spelling text.toList ∧ numeral.value = size

theorem isBlank_of_isDigit {c : Char} (h : c.isDigit = true) : isBlank c = false := by
  have hrange : 48 ≤ c.toNat ∧ c.toNat ≤ 57 := by
    simpa [Char.isDigit, UInt32.le_iff_toNat_le] using h
  rw [isBlank, Bool.eq_false_iff]
  intro hblank
  have hmem := List.contains_iff_mem.mp hblank
  simp only [blankCodes, List.mem_cons, List.not_mem_nil, or_false] at hmem
  omega

theorem Numeral.isBlank_of_mem (numeral : Numeral) :
    ∀ c ∈ numeral.spelling, isBlank c = false := by
  intro c hc
  rcases List.mem_append.mp hc with hsign | hdigit
  · cases hplus : numeral.plus with
    | true =>
      rw [hplus, if_pos rfl, List.mem_singleton] at hsign
      rw [hsign]
      decide
    | false =>
      rw [hplus] at hsign
      cases hsign
  · exact isBlank_of_isDigit (numeral.isDigit c hdigit)

theorem foldl_digits (digits : List Char) (high : Nat) :
    digits.foldl (fun value c => value * 10 + (c.toNat - '0'.toNat)) high =
      high * 10 ^ digits.length +
        Nat.ofDigits 10 (digits.reverse.map fun c => c.toNat - '0'.toNat) := by
  induction digits generalizing high with
  | nil => simp
  | cons c digits ih =>
    rw [List.foldl_cons, ih, List.reverse_cons, List.map_append, Nat.ofDigits_append,
      List.length_map, List.length_reverse, List.map_singleton, Nat.ofDigits_singleton,
      List.length_cons, Nat.pow_succ]
    ring

theorem digits?_of_ne (h : text ≠ []) : digits? text =
    if text.all Char.isDigit then
      some (Nat.ofDigits 10 (text.reverse.map fun c => c.toNat - '0'.toNat))
    else none := by
  have hvalue := foldl_digits text 0
  rw [Nat.zero_mul, Nat.zero_add] at hvalue
  rw [digits?, hvalue]
  exact h

theorem digits?_eq_some_iff : digits? text = some size ↔
    ∃ numeral : Numeral, numeral.digits = text ∧ numeral.value = size := by
  constructor
  · intro h
    have hne : text ≠ [] := by
      rintro rfl
      cases h
    rw [digits?_of_ne hne] at h
    split at h
    next hall =>
      cases h
      exact ⟨⟨false, text, hne, List.all_eq_true.mp hall⟩, rfl, rfl⟩
    next => cases h
  · rintro ⟨numeral, rfl, rfl⟩
    rw [digits?_of_ne numeral.digits_ne, if_pos (List.all_eq_true.mpr numeral.isDigit)]
    rfl

theorem unsigned?_eq_some_iff : unsigned? text = some size ↔
    ∃ numeral : Numeral, numeral.spelling = text ∧ numeral.value = size := by
  constructor
  · intro h
    unfold unsigned? at h
    split at h
    next rest =>
      obtain ⟨numeral, rfl, rfl⟩ := digits?_eq_some_iff.mp h
      exact ⟨{ numeral with plus := true }, rfl, rfl⟩
    next =>
      obtain ⟨numeral, rfl, rfl⟩ := digits?_eq_some_iff.mp h
      exact ⟨{ numeral with plus := false }, rfl, rfl⟩
  · rintro ⟨numeral, rfl, rfl⟩
    have hdigits : digits? numeral.digits = some numeral.value :=
      digits?_eq_some_iff.mpr ⟨numeral, rfl, rfl⟩
    cases hplus : numeral.plus with
    | true =>
      rw [Numeral.spelling, hplus]
      exact hdigits
    | false =>
      have hspelling : numeral.spelling = numeral.digits := by
        rw [Numeral.spelling, hplus]
        rfl
      rw [hspelling, unsigned?]
      · exact hdigits
      · -- A plus sign in front would be a digit.
        intro rest hrest
        have hsign := numeral.isDigit '+' (hrest ▸ List.mem_cons_self ..)
        cases hsign

theorem size?_eq_some_iff {text : String} : size? text = some size ↔ Denotes text size := by
  rw [size?, Option.filter_eq_some_iff, unsigned?_eq_some_iff, decide_eq_true_iff, and_comm,
    Denotes]
  refine and_congr_right fun _ => exists_congr fun numeral => and_congr_left fun _ => ?_
  constructor
  · intro h
    exact h ▸ framed_trim text.toList
  · intro h
    exact (trim_of_framed h numeral.isBlank_of_mem).symm

end ByteRope.Text
