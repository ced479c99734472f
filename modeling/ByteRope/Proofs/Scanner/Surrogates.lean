import ByteRope.Proofs.Scanner.Counts

/-!
# Surrogates and their partners

The code units of an octet sequence, and what each of them is by its neighbours: a character, the
first half of a pair, or a surrogate without its partner. The automaton reads from left to right and
remembers only whether the last unit was a high surrogate, which is what decides between these
(`Utf16.Scan.begun_foldl_readUnit`, `Utf16.Scan.broken_foldl_readUnit`). So a scan under UTF-16LE
finds the sequence well formed exactly if every surrogate has its partner and no octet is left over
(`Encoding.scan_utf16le`).
-/

namespace ByteRope

namespace Utf16

variable {octets : List UInt8} {unit : Nat} {units : List Nat} {before : Bool}

/-! ## Code units by their neighbours -/

/-- The code units of an octet sequence. An octet left over is in none. -/
def codeUnits : List UInt8 → List Nat
  | low :: high :: rest => codeUnit low high :: codeUnits rest
  | _ => []

/-- The octet that is left over. -/
def leftover : List UInt8 → Option UInt8
  | _ :: _ :: rest => leftover rest
  | octets => octets.head?

/-- The code unit at this place is a high surrogate. -/
def highAt (units : List Nat) (i : Nat) : Bool := units[i]?.any isHighSurrogate

/-- The code unit at this place is a low surrogate. -/
def lowAt (units : List Nat) (i : Nat) : Bool := units[i]?.any isLowSurrogate

/-- The code unit in front of this place is a high surrogate. What stands in front of the first one
is told by `before`. -/
def afterHigh (before : Bool) (units : List Nat) : Nat → Bool
  | 0 => before
  | i + 1 => highAt units i

/-- The code unit is no surrogate. -/
def plainAt (units : List Nat) (i : Nat) : Bool := !highAt units i && !lowAt units i

/-- The code unit and the one after it are a surrogate pair. -/
def pairAt (units : List Nat) (i : Nat) : Bool := highAt units i && lowAt units (i + 1)

/-- The code unit is a surrogate without its partner. -/
def loneAt (before : Bool) (units : List Nat) (i : Nat) : Bool :=
  highAt units i && !lowAt units (i + 1) || lowAt units i && !afterHigh before units i

/-- The number of characters of code units, of which a pair is one. -/
def characters (units : List Nat) : Nat :=
  (List.range units.length).countP (plainAt units) +
    (List.range units.length).countP (pairAt units)

/-- The number of surrogates without their partner. -/
def loneSurrogates (before : Bool) (units : List Nat) : Nat :=
  (List.range units.length).countP (loneAt before units)

/-- Every surrogate has its partner, and every octet its own. The partner is the unit next to it, so
no surrogate is the partner of two. -/
structure WellFormed (octets : List UInt8) : Prop where
  even : octets.length % 2 = 0
  high : ∀ i, highAt (codeUnits octets) i = true → lowAt (codeUnits octets) (i + 1) = true
  low : ∀ i, lowAt (codeUnits octets) i = true → ∃ j, i = j + 1 ∧ highAt (codeUnits octets) j = true

theorem isHighSurrogate_of_low (h : isLowSurrogate unit = true) : isHighSurrogate unit = false := by
  simp only [isLowSurrogate, Bool.and_eq_true, decide_eq_true_eq] at h
  simp only [isHighSurrogate, Bool.and_eq_false_iff, decide_eq_false_iff_not]
  omega

theorem loneAt_cons_succ (before : Bool) (unit : Nat) (units : List Nat) (i : Nat) :
    loneAt before (unit :: units) (i + 1) = loneAt (isHighSurrogate unit) units i := by
  cases i <;> rfl

theorem lt_length_of_loneAt {i : Nat} (h : loneAt before units i = true) : i < units.length := by
  obtain hlt | hge := Nat.lt_or_ge i units.length
  · exact hlt
  · have hnone : units[i]? = none := List.getElem?_eq_none hge
    simp [loneAt, highAt, lowAt, hnone] at h

/-- A code unit adds a character, but for the second half of a pair. -/
theorem characters_add_lone_cons (before : Bool) (unit : Nat) (units : List Nat) :
    characters (unit :: units) + loneSurrogates before (unit :: units) =
      (if before && isLowSurrogate unit then 0 else 1) +
        (characters units + loneSurrogates (isHighSurrogate unit) units) := by
  have hplain : plainAt (unit :: units) ∘ Nat.succ = plainAt units := rfl
  have hpair : pairAt (unit :: units) ∘ Nat.succ = pairAt units := rfl
  have hlone : loneAt before (unit :: units) ∘ Nat.succ = loneAt (isHighSurrogate unit) units :=
    funext (loneAt_cons_succ before unit units)
  have hfirst : (if plainAt (unit :: units) 0 then 1 else 0) +
      (if pairAt (unit :: units) 0 then 1 else 0) +
      (if loneAt before (unit :: units) 0 then 1 else 0) =
      (if before && isLowSurrogate unit then 0 else 1) := by
    have hhigh : highAt (unit :: units) 0 = isHighSurrogate unit := rfl
    have hlow : lowAt (unit :: units) 0 = isLowSurrogate unit := rfl
    simp only [plainAt, pairAt, loneAt, afterHigh, hhigh, hlow]
    cases hl : isLowSurrogate unit with
    | true =>
      rw [isHighSurrogate_of_low hl]
      cases before <;> rfl
    | false =>
      cases isHighSurrogate unit <;> cases lowAt (unit :: units) (0 + 1) <;> cases before <;> rfl
  simp only [characters, loneSurrogates, List.length_cons, List.range_succ_eq_map, List.countP_cons,
    List.countP_map, hplain, hpair, hlone]
  omega

/-- Some surrogate has no partner, in view of what stands before. -/
theorem any_loneAt_cons (before : Bool) (unit : Nat) (units : List Nat) :
    (List.range (unit :: units).length).any (loneAt before (unit :: units)) =
      (loneAt before (unit :: units) 0 ||
        (List.range units.length).any (loneAt (isHighSurrogate unit) units)) := by
  have hlone : loneAt before (unit :: units) ∘ Nat.succ = loneAt (isHighSurrogate unit) units :=
    funext (loneAt_cons_succ before unit units)
  rw [List.length_cons, List.range_succ_eq_map, List.any_cons, List.any_map, hlone]

theorem length_mod_two (octets : List UInt8) :
    octets.length % 2 = if (leftover octets).isSome then 1 else 0 := by
  fun_induction leftover octets with
  | case1 low high rest ih =>
    rw [← ih, List.length_cons, List.length_cons]
    omega
  | case2 octets hshort =>
    match octets with
    | [] => rfl
    | [low] => rfl
    | low :: high :: rest => exact absurd rfl (hshort low high rest)

theorem isSome_leftover_eq_false_iff :
    (leftover octets).isSome = false ↔ octets.length % 2 = 0 := by
  rw [length_mod_two]
  cases (leftover octets).isSome <;> simp

theorem wellFormed_iff : WellFormed octets ↔
    (leftover octets).isSome = false ∧
      (List.range (codeUnits octets).length).any (loneAt false (codeUnits octets)) = false := by
  rw [isSome_leftover_eq_false_iff, List.any_eq_false]
  constructor
  · intro h
    refine ⟨h.even, ?_⟩
    intro i _ hlone
    simp only [loneAt, Bool.or_eq_true, Bool.and_eq_true, Bool.not_eq_true'] at hlone
    obtain ⟨hhigh, hnot⟩ | ⟨hlow, hnot⟩ := hlone
    · rw [h.high i hhigh] at hnot
      cases hnot
    · obtain ⟨j, rfl, hhigh⟩ := h.low i hlow
      rw [afterHigh, hhigh] at hnot
      cases hnot
  · rintro ⟨heven, hnone⟩
    have hlone (i : Nat) : loneAt false (codeUnits octets) i = false := by
      cases h : loneAt false (codeUnits octets) i with
      | false => rfl
      | true => exact absurd h (hnone i (List.mem_range.mpr (lt_length_of_loneAt h)))
    refine ⟨heven, ?_, ?_⟩
    · intro i hhigh
      have h := hlone i
      simp only [loneAt, hhigh, Bool.true_and, Bool.or_eq_false_iff, Bool.not_eq_false'] at h
      exact h.1
    · intro i hlow
      have h := hlone i
      simp only [loneAt, hlow, Bool.true_and, Bool.or_eq_false_iff, Bool.not_eq_false'] at h
      cases i with
      | zero => cases h.2
      | succ j => exact ⟨j, rfl, h.2⟩

/-! ## What the automaton counts -/

namespace Scan

/-- What reading a code unit does. A surrogate that waits is a character whatever follows it; the
unit is one too, unless it is the partner or has to wait itself. -/
theorem readUnit_eq (scan : Scan) (unit : Nat) :
    scan.readUnit unit =
      { half := scan.half
        surrogate := isHighSurrogate unit
        chars := scan.chars + (if scan.surrogate then 1 else 0) +
          (if isHighSurrogate unit || scan.surrogate && isLowSurrogate unit then 0 else 1)
        broken := scan.broken || scan.surrogate != isLowSurrogate unit } := by
  obtain ⟨half, surrogate, chars, broken⟩ := scan
  cases hl : isLowSurrogate unit with
  | true =>
    have hh := isHighSurrogate_of_low hl
    cases surrogate with
    | true => simp [readUnit, hl, hh]
    | false => simp [readUnit, lead, hl, hh]
  | false =>
    cases surrogate with
    | true => cases hh : isHighSurrogate unit <;> simp [readUnit, lead, hl, hh]
    | false => cases hh : isHighSurrogate unit <;> simp [readUnit, lead, hl, hh]

theorem begun_readUnit (scan : Scan) (unit : Nat) :
    (scan.readUnit unit).begun =
      scan.begun + (if scan.surrogate && isLowSurrogate unit then 0 else 1) := by
  rw [readUnit_eq]
  unfold begun
  cases hh : isHighSurrogate unit with
  | true =>
    have hl : isLowSurrogate unit = false := by
      cases hl : isLowSurrogate unit with
      | false => rfl
      | true => exact absurd hh (by rw [isHighSurrogate_of_low hl]; nofun)
    simp only [hl, Bool.true_or, Bool.and_false, Bool.false_eq_true, if_true, if_false]
    omega
  | false =>
    simp only [Bool.false_or, Bool.false_eq_true, if_false]
    omega

theorem begun_foldl_readUnit (scan : Scan) (units : List Nat) :
    (units.foldl readUnit scan).begun =
      scan.begun + (characters units + loneSurrogates scan.surrogate units) := by
  induction units generalizing scan with
  | nil => rfl
  | cons unit units ih =>
    rw [List.foldl_cons, ih, begun_readUnit, readUnit_eq, characters_add_lone_cons,
      Nat.add_assoc]

theorem broken_foldl_readUnit (scan : Scan) (units : List Nat) :
    ((units.foldl readUnit scan).broken || (units.foldl readUnit scan).surrogate) =
      (scan.broken || scan.surrogate && !lowAt units 0 ||
        (List.range units.length).any (loneAt scan.surrogate units)) := by
  -- A surrogate that waits is lone by the unit after it, which is the first of the units here.
  induction units generalizing scan with
  | nil => simp [lowAt]
  | cons unit units ih =>
    have hhigh : highAt (unit :: units) 0 = isHighSurrogate unit := rfl
    have hlow : lowAt (unit :: units) 0 = isLowSurrogate unit := rfl
    have hnext : lowAt (unit :: units) (0 + 1) = lowAt units 0 := rfl
    rw [List.foldl_cons, ih, any_loneAt_cons, readUnit_eq]
    simp only [loneAt, afterHigh, hhigh, hlow, hnext]
    generalize (List.range units.length).any _ = later
    cases scan.broken <;> cases scan.surrogate <;> cases isLowSurrogate unit <;>
      cases isHighSurrogate unit <;> cases lowAt units 0 <;> simp

theorem half_foldl_readUnit (scan : Scan) (units : List Nat) :
    (units.foldl readUnit scan).half = scan.half := by
  induction units generalizing scan with
  | nil => rfl
  | cons unit units ih => rw [List.foldl_cons, ih, readUnit_eq]

theorem step_step {scan : Scan} (hh : scan.half = none) (low high : UInt8) :
    (scan.step low).step high = scan.readUnit (codeUnit low high) := by
  obtain ⟨half, surrogate, chars, broken⟩ := scan
  cases hh
  rfl

/-- Octet by octet the automaton reads the code units, and keeps the octet left over. -/
theorem foldl_step_eq (octets : List UInt8) {scan : Scan} (hh : scan.half = none) :
    octets.foldl step scan =
      { (codeUnits octets).foldl readUnit scan with half := leftover octets } := by
  fun_induction codeUnits octets generalizing scan with
  | case1 low high rest ih =>
    have hh' : (scan.readUnit (codeUnit low high)).half = none := by rw [readUnit_eq, hh]
    rw [List.foldl_cons, List.foldl_cons, step_step hh, ih hh']
    rfl
  | case2 octets hshort =>
    obtain ⟨half, surrogate, chars, broken⟩ := scan
    cases hh
    match octets with
    | [] => rfl
    | [low] => rfl
    | low :: high :: rest => exact absurd rfl (hshort low high rest)

theorem finish_foldl (octets : List UInt8) :
    (octets.foldl step empty).finish =
      ⟨none, false, characters (codeUnits octets) + loneSurrogates false (codeUnits octets) +
          octets.length % 2,
        (List.range (codeUnits octets).length).any (loneAt false (codeUnits octets)) ||
          (leftover octets).isSome⟩ := by
  have hchars := begun_foldl_readUnit empty (codeUnits octets)
  have hbroken := broken_foldl_readUnit empty (codeUnits octets)
  have hhalf := half_foldl_readUnit empty (codeUnits octets)
  rw [foldl_step_eq octets rfl, length_mod_two]
  generalize (codeUnits octets).foldl readUnit empty = read at *
  obtain ⟨half, surrogate, chars, broken⟩ := read
  cases hhalf
  have hchars' : chars + (if surrogate then 1 else 0) =
      characters (codeUnits octets) + loneSurrogates false (codeUnits octets) := by
    simpa [begun, empty] using hchars
  have hbroken' : (broken || surrogate) =
      (List.range (codeUnits octets).length).any (loneAt false (codeUnits octets)) := by
    simpa [empty] using hbroken
  simp only [finish, hchars', hbroken']

end Scan

end Utf16

namespace Encoding

/-- A scan under UTF-16LE finds octets valid if every surrogate has its partner and no octet is left
over, and broken otherwise. It counts the characters, the surrogates without their partner, and the
octet left over. -/
theorem scan_utf16le (bytes : Bytes) :
    ((utf16le.scan bytes).range = .valid ↔ Utf16.WellFormed bytes.toList) ∧
      ((utf16le.scan bytes).range = .broken ↔ ¬Utf16.WellFormed bytes.toList) ∧
      (utf16le.scan bytes).range ≠ .asciiOnly ∧
      (utf16le.scan bytes).charLen =
        Utf16.characters (Utf16.codeUnits bytes.toList) +
          Utf16.loneSurrogates false (Utf16.codeUnits bytes.toList) + bytes.size % 2 := by
  rw [Utf16.wellFormed_iff]
  simp only [scan, Scanner.new, Scanner.feed, Scanner.finish, Utf16.Scan.feed_eq_foldl,
    Utf16.Scan.finish_foldl, Array.length_toList]
  generalize (List.range _).any _ = lone
  cases lone <;> cases (Utf16.leftover bytes.toList).isSome <;> simp

/-- A high surrogate, a pair, a high surrogate at the end, and an octet left over. -/
example : utf16le.scan #[0x3D, 0xD8, 0x3D, 0xD8, 0x00, 0xDE, 0x3D, 0xD8, 0x61] = ⟨.broken, 4⟩ := by
  decide +kernel

end Encoding

end ByteRope
