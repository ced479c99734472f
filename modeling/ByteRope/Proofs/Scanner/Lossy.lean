import ByteRope.Text.Lossy
import ByteRope.Proofs.Scanner.Counts
import ByteRope.Proofs.Scanner.Segments

/-!
# Scanning and decoding

The lossy decoding shows each segment of an octet sequence as one character
(`Utf8.Segmented.decodeLossy_eq`), and a scan counts one character for each. So a scan under UTF-8
and the decoding agree on where characters begin, without sharing a line of code
(`Encoding.scan_utf8`).
-/

namespace ByteRope

open Utf8 (Spells Segment Segmented MaximalPart State)

variable {octets rest tail : List UInt8} {byte : UInt8} {value count lower upper : Nat}

/-! ## The decoding of a segment -/

/-- What an octet sequence shows for a segment. -/
def Utf8.Segment.shown : Segment → Char
  | char c => c
  | illFormed _ => Text.replacement

namespace Text

theorem decodeAfter_eq (done : List Char) (bytes : List UInt8) :
    decodeAfter done bytes = done.reverse ++ decodeLossy bytes := by
  unfold decodeLossy
  induction hn : bytes.length using Nat.strong_induction_on generalizing done bytes with
  | _ n ih =>
    cases bytes with
    | nil => simp [decodeAfter]
    | cons byte rest =>
      have hlt : (decodeOne byte rest).2.length < n :=
        hn ▸ Nat.lt_succ_of_le (length_decodeOne_le byte rest)
      rw [decodeAfter, decodeAfter, ih _ hlt _ _ rfl, ih _ hlt [_] _ rfl]
      simp

theorem decodeLossy_nil : decodeLossy [] = [] := by
  rw [decodeLossy, decodeAfter, List.reverse_nil]

theorem decodeLossy_cons (byte : UInt8) (rest : List UInt8) :
    decodeLossy (byte :: rest) =
      (decodeOne byte rest).1 :: decodeLossy (decodeOne byte rest).2 := by
  rw [decodeLossy, decodeAfter, decodeAfter_eq]
  rfl

theorem continued_cons (hb : lower ≤ byte.toNat ∧ byte.toNat ≤ upper) :
    continued value (count + 1) lower upper (byte :: rest) =
      continued (value * 64 + (byte.toNat - 0x80)) count 0x80 0xBF rest :=
  if_pos hb

theorem announced?_two {a : Nat} (ha : 0xC2 ≤ a) (ha' : a ≤ 0xDF) :
    announced? a = some ⟨1, 0x80, 0xBF, a - 0xC0⟩ := by
  unfold announced?
  rw [if_neg (by omega), if_pos ha']

theorem announced?_three {a : Nat} (ha : 0xE0 ≤ a) (ha' : a ≤ 0xEF) :
    announced? a = some ⟨2, if a = 0xE0 then 0xA0 else 0x80, if a = 0xED then 0x9F else 0xBF,
      a - 0xE0⟩ := by
  unfold announced?
  rw [if_neg (by omega), if_neg (by omega), if_pos ha']

theorem announced?_four {a : Nat} (ha : 0xF0 ≤ a) (ha' : a ≤ 0xF4) :
    announced? a = some ⟨3, if a = 0xF0 then 0x90 else 0x80, if a = 0xF4 then 0x8F else 0xBF,
      a - 0xF0⟩ := by
  unfold announced?
  rw [if_neg (by omega), if_neg (by omega), if_neg (by omega), if_pos ha']

/-- The octets of a character are decoded as the character. -/
theorem decodeOne_of_spells (h : Spells (byte :: tail) value) (rest : List UInt8) :
    decodeOne byte (tail ++ rest) = (Char.ofNat value, rest) := by
  unfold decodeOne
  cases h with
  | one ha => rw [if_pos ha, List.nil_append]
  | two ha ha' hb =>
    rw [if_neg (by omega), announced?_two ha ha']
    exact continued_cons hb
  | three ha ha' hb hc hlow hhigh =>
    rw [if_neg (by omega), announced?_three ha ha']
    refine (continued_cons ⟨?_, ?_⟩).trans (continued_cons hc) <;> dsimp only <;> split <;>
      simp_all
  | four ha ha' hb hc hd hlow hhigh =>
    rw [if_neg (by omega), announced?_four ha ha']
    refine (continued_cons ⟨?_, ?_⟩).trans ((continued_cons hc).trans (continued_cons hd)) <;>
      dsimp only <;> split <;> simp_all

/-- Where the automaton is stuck the decoding ends an ill-formed part. -/
theorem continued_of_stuck {state state' : State} (hrun : state.run? tail = some state')
    (hstate : state' ≠ .start) (hstuck : state'.Stuck rest) (value : Nat) :
    continued value state.count state.lower state.upper (tail ++ rest) = (replacement, rest) := by
  -- After each octet the decoder waits for what the state of the automaton waits for.
  induction tail generalizing state value with
  | nil =>
    obtain rfl : state = state' := Option.some.inj hrun
    obtain ⟨n, hn⟩ : ∃ n, state.count = n + 1 := by
      cases state with
      | start => exact absurd rfl hstate
      | _ => exact ⟨_, rfl⟩
    rw [hn]
    cases rest with
    | nil => rfl
    | cons byte rest =>
      have hnext := hstuck byte rfl
      rw [State.next?_eq hstate] at hnext
      exact if_neg fun hb => by simp [hb] at hnext
  | cons byte tail ih =>
    have hstart : state ≠ .start := by
      rintro rfl
      cases hrun
    rw [State.run?_cons, State.next?_eq hstart] at hrun
    split at hrun
    next hb =>
      have hih := ih hrun (value * 64 + (byte.toNat - 0x80))
      cases state with
      | start => exact absurd rfl hstart
      | _ => exact (continued_cons hb).trans hih
    next => cases hrun

theorem announced?_of_ofLead? {state : State} (h : State.ofLead? byte = some state)
    (hstart : state ≠ .start) :
    0x80 ≤ byte.toNat ∧ ∃ value,
      announced? byte.toNat = some ⟨state.count, state.lower, state.upper, value⟩ := by
  rw [State.ofLead?_eq_some_iff] at h
  generalize byte.toNat = a at *
  cases state with
  | start => exact absurd rfl hstart
  | tail1 =>
    obtain ⟨hlow, hhigh⟩ := h
    exact ⟨by omega, _, announced?_two hlow hhigh⟩
  | tail2 =>
    obtain ⟨hlow, hhigh, hne⟩ := h
    have hne' : a ≠ 0xE0 := by omega
    rw [announced?_three (by omega) hhigh, if_neg hne', if_neg hne]
    exact ⟨by omega, _, rfl⟩
  | tail3 =>
    obtain ⟨hlow, hhigh⟩ := h
    have hne : a ≠ 0xF0 := by omega
    have hne' : a ≠ 0xF4 := by omega
    rw [announced?_four (by omega) (by omega), if_neg hne, if_neg hne']
    exact ⟨by omega, _, rfl⟩
  | _ =>
    cases h
    exact ⟨by decide, _, rfl⟩

theorem announced?_of_ofLead?_none (h : State.ofLead? byte = none) :
    0x80 ≤ byte.toNat ∧ announced? byte.toNat = none := by
  have hled (state : State) : ¬state.Led byte.toNat := fun hled => by
    rw [State.ofLead?_eq_some_iff.mpr hled] at h
    cases h
  generalize byte.toNat = a at *
  have hone := hled .start
  have htwo := hled .tail1
  have hthree := hled .tail2
  have hE0 := hled .afterE0
  have hED := hled .afterED
  have hfour := hled .tail3
  have hF0 := hled .afterF0
  have hF4 := hled .afterF4
  simp only [State.Led] at hone htwo hthree hE0 hED hfour hF0 hF4
  refine ⟨by omega, ?_⟩
  unfold announced?
  by_cases hlow : a < 0xC2
  · rw [if_pos hlow]
  · rw [if_neg hlow, if_neg (by omega), if_neg (by omega), if_neg (by omega)]

/-- A maximal ill-formed part is decoded as one replacement character. -/
theorem decodeOne_of_maximalPart (h : MaximalPart (byte :: tail) rest) :
    decodeOne byte (tail ++ rest) = (replacement, rest) := by
  unfold decodeOne
  obtain ⟨state, hread, hstate, hstuck⟩ | ⟨byte, heq, hlead⟩ := h.stuck
  · obtain ⟨first, hlead, hrun⟩ := Option.bind_eq_some_iff.mp hread
    have hfirst : first ≠ .start := by
      rintro rfl
      have htail := State.eq_nil_of_run?_start hrun
      subst htail
      exact hstate (Option.some.inj hrun).symm
    obtain ⟨hhigh, value, hannounced⟩ := announced?_of_ofLead? hlead hfirst
    rw [if_neg (by omega), hannounced]
    exact continued_of_stuck hrun hstate hstuck value
  · obtain ⟨rfl, rfl⟩ := List.cons.inj heq
    obtain ⟨hhigh, hannounced⟩ := announced?_of_ofLead?_none hlead
    rw [if_neg (by omega), hannounced]
    rfl

end Text

/-- The lossy decoding shows every segment. -/
theorem Utf8.Segmented.decodeLossy_eq {segments : List Segment} (h : Segmented octets segments) :
    Text.decodeLossy octets = segments.map Segment.shown := by
  induction h with
  | nil => exact Text.decodeLossy_nil
  | @char c rest segments h ih =>
    have hspells := Utf8.spells_char c
    obtain ⟨byte, tail, heq⟩ := List.exists_cons_of_ne_nil (String.utf8EncodeChar_ne_nil (c := c))
    rw [heq] at hspells ⊢
    rw [List.cons_append, Text.decodeLossy_cons, Text.decodeOne_of_spells hspells, ih,
      Char.ofNat_toNat]
    rfl
  | @illFormed part rest segments hpart h ih =>
    obtain ⟨byte, tail, rfl⟩ := List.exists_cons_of_ne_nil hpart.ne_nil
    rw [List.cons_append, Text.decodeLossy_cons, Text.decodeOne_of_maximalPart hpart, ih]
    rfl

/-! ## Texts -/

theorem Bytes.toList_ofText (text : String) :
    (Bytes.ofText text).toList = text.toList.flatMap String.utf8EncodeChar := by
  rw [Bytes.ofText, String.toUTF8_eq_toByteArray, ← String.utf8Encode_toList, List.utf8Encode,
    List.data_toByteArray]

theorem Utf8.wellFormed_flatMap (chars : List Char) :
    WellFormed (chars.flatMap String.utf8EncodeChar) := by
  induction chars with
  | nil => exact .nil
  | cons c chars ih =>
    rw [List.flatMap_cons]
    exact .char (spells_char c) ih

theorem Utf8.WellFormed.exists_chars (h : WellFormed octets) :
    ∃ chars : List Char, chars.flatMap String.utf8EncodeChar = octets := by
  induction h with
  | nil => exact ⟨[], rfl⟩
  | char hspells _ ih =>
    obtain ⟨chars, rfl⟩ := ih
    exact ⟨Char.ofNat _ :: chars, by rw [List.flatMap_cons, hspells.encode_eq]⟩

/-- The well-formed octets are those of the texts. -/
theorem Utf8.wellFormed_iff_exists_text {bytes : Bytes} :
    WellFormed bytes.toList ↔ ∃ text, Bytes.ofText text = bytes := by
  constructor
  · intro h
    obtain ⟨chars, hchars⟩ := h.exists_chars
    refine ⟨String.ofList chars, ?_⟩
    rw [← Array.toList_inj, Bytes.toList_ofText, String.toList_ofList, hchars]
  · rintro ⟨text, rfl⟩
    rw [Bytes.toList_ofText]
    exact wellFormed_flatMap text.toList

/-! ## The scan -/

namespace Encoding

variable {bytes : Bytes} {segments : List Segment}

theorem finish_feed_utf8 (h : Segmented bytes.toList segments) :
    (Utf8.Scan.empty.feed bytes).finish =
      ⟨.start, segments.length, segments.any Segment.isIllFormed⟩ := by
  rw [Utf8.Scan.feed_eq_foldl, h.finish_foldl rfl]
  simp [Utf8.Scan.empty]

theorem charLen_scan_utf8 (h : Segmented bytes.toList segments) :
    (utf8.scan bytes).charLen = segments.length :=
  congrArg Utf8.Scan.chars (finish_feed_utf8 h)

theorem scan_utf8_range_eq_broken_iff :
    (utf8.scan bytes).range = .broken ↔ ¬Utf8.WellFormed bytes.toList := by
  obtain ⟨segments, h⟩ := Utf8.exists_segmented bytes.toList
  rw [h.wellFormed_iff]
  simp only [scan, Scanner.new, Scanner.feed, Scanner.finish, finish_feed_utf8 h]
  cases segments.any Segment.isIllFormed with
  | true => simp
  | false => cases bytes.isAscii <;> simp

/-- A scan under UTF-8 tells octets that are ill formed, octets below 0x80 alone, and the others. It
counts the characters and the maximal ill-formed parts, which are the characters of the lossy
decoding. -/
theorem scan_utf8 (bytes : Bytes) :
    ((utf8.scan bytes).range = .broken ↔ ¬Utf8.WellFormed bytes.toList) ∧
      ((utf8.scan bytes).range = .broken ↔ ∀ text, Bytes.ofText text ≠ bytes) ∧
      ((utf8.scan bytes).range = .asciiOnly ↔ ∀ byte ∈ bytes.toList, byte < 0x80) ∧
      ((utf8.scan bytes).range = .valid ↔
        Utf8.WellFormed bytes.toList ∧ ¬∀ byte ∈ bytes.toList, byte < 0x80) ∧
      ∃ segments, Segmented bytes.toList segments ∧
        (∀ segments', Segmented bytes.toList segments' → segments' = segments) ∧
        (utf8.scan bytes).charLen =
          segments.countP Segment.isChar + segments.countP Segment.isIllFormed ∧
        Text.decodeLossy bytes.toList = segments.map Segment.shown ∧
        (utf8.scan bytes).charLen = (Text.decodeLossy bytes.toList).length := by
  have hbroken : (utf8.scan bytes).range = .broken ↔ ¬Utf8.WellFormed bytes.toList :=
    scan_utf8_range_eq_broken_iff
  have hascii : (utf8.scan bytes).range = .asciiOnly ↔ ∀ byte ∈ bytes.toList, byte < 0x80 := by
    rw [scan_range_eq_asciiOnly_iff, Bytes.isAscii_iff]
    exact and_iff_right rfl
  have hknown := scan_range_ne_unknown utf8 bytes
  refine ⟨hbroken, ?_, hascii, ?_, ?_⟩
  · rw [hbroken, Utf8.wellFormed_iff_exists_text, not_exists]
  · rw [← hascii, ← not_not (a := Utf8.WellFormed _), ← hbroken]
    cases h : (utf8.scan bytes).range <;> simp_all
  · obtain ⟨segments, h⟩ := Utf8.exists_segmented bytes.toList
    refine ⟨segments, h, fun segments' h' => h'.unique h, ?_, h.decodeLossy_eq, ?_⟩
    · rw [charLen_scan_utf8 h, Segment.countP_add_countP]
    · rw [charLen_scan_utf8 h, h.decodeLossy_eq, List.length_map]

/-- Four beginnings of characters, each ended by the next, and a letter. -/
example : utf8.scan #[0xE1, 0x80, 0xE2, 0xF0, 0x91, 0x92, 0xF1, 0xBF, 0x41] = ⟨.broken, 5⟩ := by
  decide +kernel

end Encoding

end ByteRope
