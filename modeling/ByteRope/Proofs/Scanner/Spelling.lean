import ByteRope.Scanner.Utf8

/-!
# The octets of a character

`Utf8.Spells` is the table of the well-formed octet sequences of one character and of the numbers
that they spell: the shortest form only, no surrogates, nothing past 10FFFF. It agrees with the
library's `String.utf8EncodeChar` (`Utf8.spells_char`, `Utf8.Spells.encode_eq`). The automaton,
started before the first octet of a character, is between characters again exactly after such a
sequence (`Utf8.State.read?_eq_start_iff`), and stands anywhere exactly after the beginning of one
(`Utf8.State.isSome_read?_iff`).
-/

namespace ByteRope.Utf8

variable {octets rest : List UInt8} {byte : UInt8} {value : Nat}

/-! ## The table -/

/-- An octet that can continue a character. -/
abbrev Tail (byte : UInt8) : Prop := 0x80 ≤ byte.toNat ∧ byte.toNat ≤ 0xBF

/-- The well-formed octets of one character, and the number of the character. -/
inductive Spells : List UInt8 → Nat → Prop
  | one {a : UInt8} : a.toNat < 0x80 → Spells [a] a.toNat
  | two {a b : UInt8} : 0xC2 ≤ a.toNat → a.toNat ≤ 0xDF → Tail b →
    Spells [a, b] ((a.toNat - 0xC0) * 64 + (b.toNat - 0x80))
  | three {a b c : UInt8} : 0xE0 ≤ a.toNat → a.toNat ≤ 0xEF → Tail b → Tail c →
    (a.toNat = 0xE0 → 0xA0 ≤ b.toNat) → (a.toNat = 0xED → b.toNat ≤ 0x9F) →
    Spells [a, b, c] (((a.toNat - 0xE0) * 64 + (b.toNat - 0x80)) * 64 + (c.toNat - 0x80))
  | four {a b c d : UInt8} : 0xF0 ≤ a.toNat → a.toNat ≤ 0xF4 → Tail b → Tail c → Tail d →
    (a.toNat = 0xF0 → 0x90 ≤ b.toNat) → (a.toNat = 0xF4 → b.toNat ≤ 0x8F) →
    Spells [a, b, c, d]
      ((((a.toNat - 0xF0) * 64 + (b.toNat - 0x80)) * 64 + (c.toNat - 0x80)) * 64 +
        (d.toNat - 0x80))

theorem Spells.of_eq {value' : Nat} (h : Spells octets value') (hv : value = value') :
    Spells octets value :=
  hv ▸ h

/-- The octets that the library writes for a character are in the table. -/
theorem spells_char (c : Char) : Spells (String.utf8EncodeChar c) c.toNat := by
  have hvalid : c.val.toNat.isValidChar := c.valid
  unfold String.utf8EncodeChar Char.toNat
  generalize c.val.toNat = value at *
  simp only [Nat.isValidChar] at hvalid
  dsimp only
  split
  · refine (Spells.one ?_).of_eq ?_ <;> simp only [UInt8.toNat_ofNat'] <;> omega
  · split
    · refine (Spells.two ?_ ?_ ?_).of_eq ?_ <;> simp only [Tail, UInt8.toNat_ofNat'] <;> omega
    · split
      · refine (Spells.three ?_ ?_ ?_ ?_ ?_ ?_).of_eq ?_ <;>
          simp only [Tail, UInt8.toNat_ofNat'] <;> omega
      · refine (Spells.four ?_ ?_ ?_ ?_ ?_ ?_ ?_).of_eq ?_ <;>
          simp only [Tail, UInt8.toNat_ofNat'] <;> omega

theorem ofNat_eq {n : Nat} (h : n = byte.toNat) : UInt8.ofNat n = byte := by
  rw [h, UInt8.ofNat_toNat]

/-- What is in the table spells a number that is one of a character. -/
theorem Spells.toNat_eq (h : Spells octets value) : (Char.ofNat value).val.toNat = value := by
  have hvalid : value.isValidChar := by
    cases h <;> simp only [Nat.isValidChar] <;> omega
  have hchar : Char.ofNat value = Char.ofNatAux value hvalid := dif_pos hvalid
  rw [hchar]
  rfl

/-- What is in the table is what the library writes for the character. -/
theorem Spells.encode_eq (h : Spells octets value) :
    String.utf8EncodeChar (Char.ofNat value) = octets := by
  unfold String.utf8EncodeChar
  simp only [h.toNat_eq]
  cases h with
  | one ha =>
    split
    · rw [UInt8.ofNat_toNat]
    · omega
  | two ha ha' hb =>
    split
    · omega
    · split
      · rw [ofNat_eq, ofNat_eq] <;> omega
      · omega
  | three ha ha' hb hc hlow hhigh =>
    split
    · omega
    · split
      · omega
      · split
        · rw [ofNat_eq, ofNat_eq, ofNat_eq] <;> omega
        · omega
  | four ha ha' hb hc hd hlow hhigh =>
    split
    · omega
    · split
      · omega
      · split
        · omega
        · rw [ofNat_eq, ofNat_eq, ofNat_eq, ofNat_eq] <;> omega

theorem exists_spells_iff :
    (∃ value, Spells octets value) ↔ ∃ c : Char, String.utf8EncodeChar c = octets := by
  constructor
  · rintro ⟨value, h⟩
    exact ⟨Char.ofNat value, h.encode_eq⟩
  · rintro ⟨c, rfl⟩
    exact ⟨c.toNat, spells_char c⟩

/-- Octets that stand at the beginning of the octets of a character. -/
def Begins (octets : List UInt8) : Prop :=
  octets ≠ [] ∧ ∃ c : Char, octets <+: String.utf8EncodeChar c

/-! ## The automaton on one character -/

theorem within_iff {lower upper : UInt8} :
    within lower upper byte = true ↔ lower.toNat ≤ byte.toNat ∧ byte.toNat ≤ upper.toNat := by
  simp [within, UInt8.le_iff_toNat_le]

namespace State

variable {state state' : State}

/-- The state that waits for so many octets with no bounds of their own. -/
def tails : Nat → State
  | 0 => start
  | 1 => tail1
  | 2 => tail2
  | _ => tail3

/-- The number of octets that a character begun still needs. -/
def count : State → Nat
  | start => 0
  | tail1 => 1
  | tail2 | afterE0 | afterED => 2
  | tail3 | afterF0 | afterF4 => 3

/-- The least octet that can come next in a character begun. -/
def lower : State → Nat
  | afterE0 => 0xA0
  | afterF0 => 0x90
  | _ => 0x80

/-- The greatest octet that can come next in a character begun. -/
def upper : State → Nat
  | afterED => 0x9F
  | afterF4 => 0x8F
  | _ => 0xBF

theorem next?_eq (h : state ≠ start) (byte : UInt8) :
    state.next? byte = if state.lower ≤ byte.toNat ∧ byte.toNat ≤ state.upper then
      some (tails (state.count - 1)) else none := by
  cases state with
  | start => exact absurd rfl h
  | _ => simp [next?, within_iff, tails, count, lower, upper]

/-- The first octets that lead to a state. -/
def Led : State → Nat → Prop
  | start, a => a < 0x80
  | tail1, a => 0xC2 ≤ a ∧ a ≤ 0xDF
  | tail2, a => 0xE1 ≤ a ∧ a ≤ 0xEF ∧ a ≠ 0xED
  | tail3, a => 0xF1 ≤ a ∧ a ≤ 0xF3
  | afterE0, a => a = 0xE0
  | afterED, a => a = 0xED
  | afterF0, a => a = 0xF0
  | afterF4, a => a = 0xF4

theorem ofLead?_eq_some_iff : ofLead? byte = some state ↔ state.Led byte.toNat := by
  simp only [ofLead?, within_iff, UInt8.lt_iff_toNat_lt, ← UInt8.toNat_inj]
  cases state <;> simp [Led] <;> grind

/-- The state after octets that go on with a character begun, if they can. Nothing goes on with a
character that is complete. -/
def run? (state : State) (octets : List UInt8) : Option State := octets.foldlM next? state

/-- The state after octets of which the first one begins a character and the others go on with
it. -/
def read? : List UInt8 → Option State
  | [] => none
  | byte :: rest => (ofLead? byte).bind (·.run? rest)

@[simp] theorem run?_nil (state : State) : state.run? [] = some state := rfl

theorem run?_cons (state : State) (byte : UInt8) (rest : List UInt8) :
    state.run? (byte :: rest) = (state.next? byte).bind (·.run? rest) := rfl

theorem run?_append (state : State) (octets rest : List UInt8) :
    state.run? (octets ++ rest) = (state.run? octets).bind (·.run? rest) :=
  List.foldlM_append

theorem eq_nil_of_run?_start (h : start.run? octets = some state) : octets = [] := by
  cases octets with
  | nil => rfl
  | cons byte rest => cases h

theorem read?_append (h : read? octets = some state) (rest : List UInt8) :
    read? (octets ++ rest) = state.run? rest := by
  cases octets with
  | nil => cases h
  | cons byte octets =>
    obtain ⟨lead, hlead, hrun⟩ := Option.bind_eq_some_iff.mp h
    rw [List.cons_append, read?, hlead, Option.bind_some, run?_append, hrun, Option.bind_some]

theorem read?_append_of_none (hne : octets ≠ []) (h : read? octets = none) (rest : List UInt8) :
    read? (octets ++ rest) = none := by
  cases octets with
  | nil => exact absurd rfl hne
  | cons byte octets =>
    rw [read?, Option.bind_eq_none_iff] at h
    rw [List.cons_append, read?, Option.bind_eq_none_iff]
    intro lead hlead
    rw [run?_append, h lead hlead, Option.bind_none]

theorem run?_cons_eq_start (h : state ≠ start)
    (hb : state.lower ≤ byte.toNat ∧ byte.toNat ≤ state.upper)
    (hrun : (tails (state.count - 1)).run? rest = some start) :
    state.run? (byte :: rest) = some start := by
  rw [run?_cons, next?_eq h, if_pos hb, Option.bind_some, hrun]

/-- A character begun needs one more octet. -/
theorem exists_of_run?_eq_start (hrun : state.run? octets = some start) (h : state ≠ start) :
    ∃ byte rest, octets = byte :: rest ∧ (state.lower ≤ byte.toNat ∧ byte.toNat ≤ state.upper) ∧
      (tails (state.count - 1)).run? rest = some start := by
  cases octets with
  | nil => exact absurd (Option.some.inj hrun) h
  | cons byte rest =>
    rw [run?_cons, next?_eq h] at hrun
    split at hrun
    next hb => exact ⟨byte, rest, rfl, hb, hrun⟩
    next => cases hrun

theorem read?_cons_eq_start (state : State) (h : state.Led byte.toNat)
    (hrun : state.run? rest = some start) : read? (byte :: rest) = some start :=
  Option.bind_eq_some_iff.mpr ⟨state, ofLead?_eq_some_iff.mpr h, hrun⟩

theorem exists_spells_of_read? (h : read? octets = some start) :
    ∃ value, Spells octets value := by
  cases octets with
  | nil => cases h
  | cons a rest =>
    obtain ⟨state, hlead, hrun⟩ := Option.bind_eq_some_iff.mp h
    have hled := ofLead?_eq_some_iff.mp hlead
    cases state with
    | start =>
      rw [eq_nil_of_run?_start hrun]
      exact ⟨_, .one hled⟩
    | tail1 =>
      obtain ⟨b, rest, rfl, hb, hrun⟩ := exists_of_run?_eq_start hrun nofun
      rw [eq_nil_of_run?_start hrun]
      exact ⟨_, .two hled.1 hled.2 hb⟩
    | tail2 | afterE0 | afterED =>
      obtain ⟨b, rest, rfl, hb, hrun⟩ := exists_of_run?_eq_start hrun nofun
      obtain ⟨c, rest, rfl, hc, hrun⟩ := exists_of_run?_eq_start hrun nofun
      rw [eq_nil_of_run?_start hrun]
      simp only [Led, lower, upper] at hled hb
      refine ⟨_, .three ?_ ?_ ?_ hc ?_ ?_⟩ <;> omega
    | tail3 | afterF0 | afterF4 =>
      obtain ⟨b, rest, rfl, hb, hrun⟩ := exists_of_run?_eq_start hrun nofun
      obtain ⟨c, rest, rfl, hc, hrun⟩ := exists_of_run?_eq_start hrun nofun
      obtain ⟨d, rest, rfl, hd, hrun⟩ := exists_of_run?_eq_start hrun nofun
      rw [eq_nil_of_run?_start hrun]
      simp only [Led, lower, upper] at hled hb
      refine ⟨_, .four ?_ ?_ ?_ hc hd ?_ ?_⟩ <;> omega

theorem read?_of_spells (h : Spells octets value) : read? octets = some start := by
  cases h with
  | one ha => exact read?_cons_eq_start start ha rfl
  | two ha ha' hb =>
    exact read?_cons_eq_start tail1 ⟨ha, ha'⟩ (run?_cons_eq_start nofun hb rfl)
  | @three a b c ha ha' hb hc hlow hhigh =>
    have hrest : tail1.run? [c] = some start := run?_cons_eq_start nofun hc rfl
    by_cases hE0 : a.toNat = 0xE0
    · exact read?_cons_eq_start afterE0 hE0 (run?_cons_eq_start nofun ⟨hlow hE0, hb.2⟩ hrest)
    · by_cases hED : a.toNat = 0xED
      · exact read?_cons_eq_start afterED hED (run?_cons_eq_start nofun ⟨hb.1, hhigh hED⟩ hrest)
      · exact read?_cons_eq_start tail2 ⟨by omega, ha', hED⟩ (run?_cons_eq_start nofun hb hrest)
  | @four a b c d ha ha' hb hc hd hlow hhigh =>
    have hrest : tail2.run? [c, d] = some start :=
      run?_cons_eq_start nofun hc (run?_cons_eq_start nofun hd rfl)
    by_cases hF0 : a.toNat = 0xF0
    · exact read?_cons_eq_start afterF0 hF0 (run?_cons_eq_start nofun ⟨hlow hF0, hb.2⟩ hrest)
    · by_cases hF4 : a.toNat = 0xF4
      · exact read?_cons_eq_start afterF4 hF4 (run?_cons_eq_start nofun ⟨hb.1, hhigh hF4⟩ hrest)
      · exact read?_cons_eq_start tail3 ⟨by omega, by omega⟩ (run?_cons_eq_start nofun hb hrest)

/-- The automaton is between characters again exactly after the octets of a character. -/
theorem read?_eq_start_iff :
    read? octets = some start ↔ ∃ c : Char, String.utf8EncodeChar c = octets := by
  rw [← exists_spells_iff]
  constructor
  · exact exists_spells_of_read?
  · rintro ⟨value, h⟩
    exact read?_of_spells h

/-- Octets that complete a character begun. -/
def completion : State → List UInt8
  | start => []
  | tail1 => [0x80]
  | tail2 | afterED => [0x80, 0x80]
  | tail3 | afterF4 => [0x80, 0x80, 0x80]
  | afterE0 => [0xA0, 0x80]
  | afterF0 => [0x90, 0x80, 0x80]

theorem run?_completion (state : State) : state.run? state.completion = some start := by
  cases state <;> rfl

/-- The automaton takes octets exactly as long as they begin those of a character. -/
theorem isSome_read?_iff : (read? octets).isSome = true ↔ Begins octets := by
  constructor
  · intro h
    obtain ⟨state, hread⟩ := Option.isSome_iff_exists.mp h
    -- Whatever the automaton has begun can be completed, so what it took begins a character.
    have hwhole : read? (octets ++ state.completion) = some start := by
      rw [read?_append hread, run?_completion]
    obtain ⟨c, hc⟩ := read?_eq_start_iff.mp hwhole
    refine ⟨?_, c, state.completion, hc.symm⟩
    rintro rfl
    cases hread
  · rintro ⟨hne, c, rest, hc⟩
    have hwhole : read? (octets ++ rest) = some start := read?_eq_start_iff.mpr ⟨c, hc.symm⟩
    cases h : read? octets with
    | some => rfl
    | none =>
      rw [read?_append_of_none hne h] at hwhole
      cases hwhole

end State

end ByteRope.Utf8
