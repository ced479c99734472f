import ByteRope.Proofs.Scanner.Spelling
import Mathlib.Data.Nat.Find

/-!
# Characters and maximal ill-formed parts

Octets fall into the octets of characters and maximal ill-formed parts (`Utf8.Segmented`), in one
way only (`Utf8.exists_segmented`, `Utf8.Segmented.unique`). A maximal ill-formed part begins where
no character does; it is the longest beginning of a character there, or a single octet if no
character begins so (`Utf8.MaximalPart`). The automaton counts these segments
(`Utf8.Segmented.finish_foldl`).
-/

namespace ByteRope.Utf8

variable {octets octets' part part' rest rest' : List UInt8} {byte : UInt8} {c c' : Char}

/-! ## Segments -/

/-- A piece of an octet sequence. -/
inductive Segment where
  | char (c : Char)
  | illFormed (octets : List UInt8)
  deriving DecidableEq

namespace Segment

/-- The segment is a character. -/
def isChar : Segment → Bool
  | char _ => true
  | illFormed _ => false

/-- The segment is an ill-formed part. -/
def isIllFormed : Segment → Bool
  | char _ => false
  | illFormed _ => true

theorem countP_add_countP (segments : List Segment) :
    segments.countP isChar + segments.countP isIllFormed = segments.length := by
  induction segments with
  | nil => rfl
  | cons segment segments ih =>
    cases segment with
    | char c =>
      rw [List.countP_cons_of_pos (by rfl), List.countP_cons_of_neg (by nofun), List.length_cons]
      omega
    | illFormed octets =>
      rw [List.countP_cons_of_neg (by nofun), List.countP_cons_of_pos (by rfl), List.length_cons]
      omega

end Segment

/-- The octets `part` are a maximal ill-formed part before the octets `rest`. -/
structure MaximalPart (part rest : List UInt8) : Prop where
  unconvertible : ∀ c : Char, ¬String.utf8EncodeChar c <+: part ++ rest
  begins : part.length = 1 ∨ Begins part
  longest : ∀ octets, Begins octets → octets <+: part ++ rest → octets.length ≤ part.length

/-- How an octet sequence falls into segments. -/
inductive Segmented : List UInt8 → List Segment → Prop
  | nil : Segmented [] []
  | char (c : Char) {rest : List UInt8} {segments : List Segment} :
    Segmented rest segments → Segmented (String.utf8EncodeChar c ++ rest) (.char c :: segments)
  | illFormed {part rest : List UInt8} {segments : List Segment} :
    MaximalPart part rest → Segmented rest segments →
    Segmented (part ++ rest) (.illFormed part :: segments)

/-! ## The octets of characters -/

theorem read?_char (c : Char) : State.read? (String.utf8EncodeChar c) = some .start :=
  State.read?_eq_start_iff.mpr ⟨c, rfl⟩

/-- The octets of a character cannot be drawn out to those of another one. -/
theorem utf8EncodeChar_append_inj
    (h : String.utf8EncodeChar c ++ rest = String.utf8EncodeChar c' ++ rest') :
    c = c' ∧ rest = rest' := by
  have hc : c = c' := by
    have hdecode := congrArg (fun octets => octets.toByteArray.utf8DecodeChar? 0) h
    simpa [List.toByteArray_append, ByteArray.utf8DecodeChar?_utf8EncodeChar_append] using hdecode
  subst hc
  exact ⟨rfl, List.append_cancel_left h⟩

namespace MaximalPart

theorem ne_nil (h : MaximalPart part rest) : part ≠ [] := by
  rintro rfl
  obtain h | h := h.begins
  · cases h
  · exact h.1 rfl

theorem length_le (h : MaximalPart part rest) (h' : MaximalPart part' rest')
    (heq : part ++ rest = part' ++ rest') : part.length ≤ part'.length := by
  obtain hone | hbegins := h.begins
  · rw [hone]
    exact List.length_pos_iff.mpr h'.ne_nil
  · exact h'.longest part hbegins ⟨rest, heq⟩

theorem append_inj (h : MaximalPart part rest) (h' : MaximalPart part' rest')
    (heq : part ++ rest = part' ++ rest') : part = part' ∧ rest = rest' :=
  List.append_inj heq (Nat.le_antisymm (h.length_le h' heq) (h'.length_le h heq.symm))

end MaximalPart

/-- Octets that no character begins have a maximal ill-formed part in front. -/
theorem exists_maximalPart (hne : octets ≠ [])
    (h : ∀ c : Char, ¬String.utf8EncodeChar c <+: octets) :
    ∃ part rest, octets = part ++ rest ∧ MaximalPart part rest := by
  classical
  -- One octet is a part of its own if no beginning of a character is longer.
  let Fits : Nat → Prop := fun n => n = 1 ∨ Begins (octets.take n)
  have hlength : 1 ≤ octets.length := List.length_pos_iff.mpr hne
  have hfits : Fits (Nat.findGreatest Fits octets.length) :=
    Nat.findGreatest_spec hlength (.inl rfl)
  have hle : Nat.findGreatest Fits octets.length ≤ octets.length := Nat.findGreatest_le _
  generalize hn : Nat.findGreatest Fits octets.length = n at hfits hle
  refine ⟨octets.take n, octets.drop n, (List.take_append_drop n octets).symm, ?_, ?_, ?_⟩
  · rwa [List.take_append_drop]
  · rw [List.length_take_of_le hle]
    exact hfits
  · intro beginning hbegins hprefix
    rw [List.take_append_drop] at hprefix
    rw [List.length_take_of_le hle, ← hn]
    apply Nat.le_findGreatest hprefix.length_le
    right
    rwa [← List.prefix_iff_eq_take.mp hprefix]

/-- Every octet sequence falls into segments. -/
theorem exists_segmented (octets : List UInt8) : ∃ segments, Segmented octets segments := by
  induction hn : octets.length using Nat.strong_induction_on generalizing octets with
  | _ n ih =>
    by_cases hne : octets = []
    · subst hne
      exact ⟨[], .nil⟩
    · by_cases hchar : ∃ c : Char, String.utf8EncodeChar c <+: octets
      · obtain ⟨c, rest, rfl⟩ := hchar
        have hpos : 0 < (String.utf8EncodeChar c).length :=
          List.length_pos_iff.mpr String.utf8EncodeChar_ne_nil
        rw [List.length_append] at hn
        obtain ⟨segments, h⟩ := ih rest.length (by omega) rest rfl
        exact ⟨_, .char c h⟩
      · obtain ⟨part, rest, rfl, hpart⟩ := exists_maximalPart hne (not_exists.mp hchar)
        have hpos : 0 < part.length := List.length_pos_iff.mpr hpart.ne_nil
        rw [List.length_append] at hn
        obtain ⟨segments, h⟩ := ih rest.length (by omega) rest rfl
        exact ⟨_, .illFormed hpart h⟩

namespace Segmented

variable {segments segments' : List Segment}

/-- An octet sequence falls into segments in one way only. -/
theorem unique (h : Segmented octets segments) (h' : Segmented octets segments') :
    segments = segments' := by
  induction h generalizing segments' with
  | nil =>
    generalize hnil : ([] : List UInt8) = octets at h'
    cases h' with
    | nil => rfl
    | char c h' => exact absurd (List.append_eq_nil_iff.mp hnil.symm).1 String.utf8EncodeChar_ne_nil
    | illFormed hpart h' => exact absurd (List.append_eq_nil_iff.mp hnil.symm).1 hpart.ne_nil
  | @char c rest segments h ih =>
    generalize heq : String.utf8EncodeChar c ++ rest = octets at h'
    cases h' with
    | nil => exact absurd (List.append_eq_nil_iff.mp heq).1 String.utf8EncodeChar_ne_nil
    | char c' h' =>
      obtain ⟨rfl, rfl⟩ := utf8EncodeChar_append_inj heq
      rw [ih h']
    | illFormed hpart h' => exact absurd ⟨rest, heq⟩ (hpart.unconvertible c)
  | @illFormed part rest segments hpart h ih =>
    generalize heq : part ++ rest = octets at h'
    cases h' with
    | nil => exact absurd (List.append_eq_nil_iff.mp heq).1 hpart.ne_nil
    | @char c' rest' _ h' => exact absurd ⟨rest', heq.symm⟩ (hpart.unconvertible c')
    | illFormed hpart' h' =>
      obtain ⟨rfl, rfl⟩ := hpart.append_inj hpart' heq
      rw [ih h']

end Segmented

/-! ## Well-formed octets -/

/-- The octets of characters one after the other, and nothing else. -/
inductive WellFormed : List UInt8 → Prop
  | nil : WellFormed []
  | char {octets rest : List UInt8} {value : Nat} :
    Spells octets value → WellFormed rest → WellFormed (octets ++ rest)

theorem Segmented.wellFormed_iff {segments : List Segment} (h : Segmented octets segments) :
    WellFormed octets ↔ segments.any Segment.isIllFormed = false := by
  constructor
  · intro hwell
    induction hwell generalizing segments with
    | nil =>
      rw [h.unique .nil]
      rfl
    | @char octets rest value hspells hwell ih =>
      obtain ⟨segments', hrest⟩ := exists_segmented rest
      rw [← hspells.encode_eq] at h
      have hnone := ih hrest
      rw [h.unique (.char _ hrest)]
      exact hnone
  · intro hnone
    induction h with
    | nil => exact .nil
    | char c h ih => exact .char (spells_char c) (ih hnone)
    | illFormed hpart h ih => cases hnone

/-! ## What stops the automaton -/

namespace State

/-- The octets do not go on with the character begun. -/
def Stuck (state : State) (octets : List UInt8) : Prop :=
  ∀ byte ∈ octets.head?, state.next? byte = none

end State

/-- The automaton takes a maximal ill-formed part as the beginning of a character and is stuck after
it, or does not take its one octet. -/
theorem MaximalPart.stuck (h : MaximalPart part rest) :
    (∃ state, State.read? part = some state ∧ state ≠ .start ∧ state.Stuck rest) ∨
      ∃ byte, part = [byte] ∧ State.ofLead? byte = none := by
  cases hread : State.read? part with
  | some state =>
    left
    refine ⟨state, rfl, ?_, ?_⟩
    · rintro rfl
      obtain ⟨c, rfl⟩ := State.read?_eq_start_iff.mp hread
      exact h.unconvertible c (List.prefix_append ..)
    · intro byte hbyte
      obtain ⟨rest, rfl⟩ := List.head?_eq_some_iff.mp hbyte
      by_contra hnext
      have hlonger : Begins (part ++ [byte]) := by
        rw [← State.isSome_read?_iff, State.read?_append hread, State.run?_cons]
        cases hstate : state.next? byte with
        | none => exact absurd hstate hnext
        | some state' => rfl
      have hle := h.longest _ hlonger ⟨rest, by simp⟩
      rw [List.length_append, List.length_singleton] at hle
      omega
  | none =>
    right
    have hnot : ¬Begins part := by
      rw [← State.isSome_read?_iff, hread]
      nofun
    obtain ⟨byte, rfl⟩ := List.length_eq_one_iff.mp (h.begins.resolve_right hnot)
    refine ⟨byte, rfl, ?_⟩
    cases hlead : State.ofLead? byte with
    | none => rfl
    | some state =>
      rw [State.read?, hlead] at hread
      cases hread

/-! ## What the automaton counts -/

namespace Scan

variable {scan : Scan} {state state' : State}

/-- The scan in another state, with one character more if that is between characters. -/
def reached (scan : Scan) (state : State) : Scan :=
  ⟨state, scan.chars + (if state = .start then 1 else 0), scan.broken⟩

theorem lead_of_ofLead? (h : State.ofLead? byte = some state) (scan : Scan) :
    scan.lead byte = scan.reached state := by
  unfold lead
  rw [h]
  cases state <;> rfl

theorem step_of_next? (h : scan.state.next? byte = some state) :
    scan.step byte = scan.reached state := by
  obtain ⟨before, chars, broken⟩ := scan
  cases before with
  | start => cases h
  | _ =>
    simp only [step, h]
    cases state <;> rfl

/-- An octet that cannot go on with the character begun ends it and is read afresh. -/
theorem step_of_next?_none (hs : scan.state ≠ .start) (h : scan.state.next? byte = none) :
    scan.step byte = Scan.step ⟨.start, scan.chars + 1, true⟩ byte := by
  obtain ⟨before, chars, broken⟩ := scan
  cases before with
  | start => exact absurd rfl hs
  | _ => simp only [step, h]

theorem foldl_of_run? (h : state.run? octets = some state') (scan : Scan) :
    octets.foldl step (scan.reached state) = scan.reached state' := by
  induction octets generalizing state with
  | nil =>
    cases h
    rfl
  | cons byte rest ih =>
    rw [State.run?_cons] at h
    obtain ⟨next, hnext, hrun⟩ := Option.bind_eq_some_iff.mp h
    have hstart : state ≠ .start := by
      rintro rfl
      cases hnext
    have hreached : (scan.reached state).reached next = scan.reached next := by
      simp [reached, hstart]
    rw [List.foldl_cons, step_of_next? hnext, hreached, ih hrun]

theorem foldl_of_read? (hs : scan.state = .start) (h : State.read? octets = some state) :
    octets.foldl step scan = scan.reached state := by
  cases octets with
  | nil => cases h
  | cons byte rest =>
    obtain ⟨first, hlead, hrun⟩ := Option.bind_eq_some_iff.mp h
    have hstep : scan.step byte = scan.lead byte := by
      simp only [step, hs]
    rw [List.foldl_cons, hstep, lead_of_ofLead? hlead, foldl_of_run? hrun]

theorem foldl_char (hs : scan.state = .start) (c : Char) :
    (String.utf8EncodeChar c).foldl step scan = ⟨.start, scan.chars + 1, scan.broken⟩ :=
  foldl_of_read? hs (read?_char c)

/-- A maximal ill-formed part counts as one character, at the end as before other octets. -/
theorem finish_foldl_maximalPart (hs : scan.state = .start) (h : MaximalPart part rest) :
    ((part ++ rest).foldl step scan).finish =
      (rest.foldl step ⟨.start, scan.chars + 1, true⟩).finish := by
  rw [List.foldl_append]
  obtain ⟨state, hread, hstate, hstuck⟩ | ⟨byte, rfl, hlead⟩ := h.stuck
  · have hreached : scan.reached state = ⟨state, scan.chars, scan.broken⟩ := by
      simp [reached, hstate]
    rw [foldl_of_read? hs hread, hreached]
    cases rest with
    | nil =>
      cases state with
      | start => exact absurd rfl hstate
      | _ => rfl
    | cons byte rest =>
      rw [List.foldl_cons, List.foldl_cons, step_of_next?_none hstate (hstuck byte rfl)]
  · have hstep : scan.step byte = ⟨.start, scan.chars + 1, true⟩ := by
      simp only [step, hs, lead, hlead]
    rw [List.foldl_cons, List.foldl_nil, hstep]

end Scan

/-- The automaton counts segments, and notes ill-formed ones. -/
theorem Segmented.finish_foldl {segments : List Segment} (h : Segmented octets segments)
    {scan : Scan} (hs : scan.state = .start) :
    (octets.foldl Scan.step scan).finish =
      ⟨.start, scan.chars + segments.length, scan.broken || segments.any Segment.isIllFormed⟩ := by
  induction h generalizing scan with
  | nil =>
    obtain ⟨state, chars, broken⟩ := scan
    cases hs
    simp [Scan.finish]
  | @char c rest segments h ih =>
    rw [List.foldl_append, Scan.foldl_char hs, ih rfl, List.length_cons, Nat.add_assoc,
      Nat.add_comm 1]
    rfl
  | @illFormed part rest segments hpart h ih =>
    rw [Scan.finish_foldl_maximalPart hs hpart, ih rfl, List.length_cons, Nat.add_assoc,
      Nat.add_comm 1]
    simp [Segment.isIllFormed]

end ByteRope.Utf8
