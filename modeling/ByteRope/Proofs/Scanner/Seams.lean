import ByteRope.Proofs.Scanner.Cuts
import ByteRope.Proofs.Scanner.Prefix
import ByteRope.Proofs.Scanner.Segments

/-!
# Scanning two contents and their whole

A scan that does not find its octets broken stands between characters, so scanning the whole is
scanning the two parts: the range is the combination and the characters are the sum
(`Encoding.scan_resumes`). Where a UTF-8 content is cut within a character, the octets of it after
the cut count as one character each in the second part. At most three octets follow the first one of
a character, so the parts count at most three characters more than the whole, and never fewer
(`Encoding.charLen_scan_append_le`, `Encoding.charLen_scan_le_append`).
-/

namespace ByteRope

/-! ## Between characters -/

namespace Scanner

variable {encoding : Encoding} {scanner : Scanner}

/-- Nothing that was begun waits for more octets. -/
def Between : Scanner → Prop
  | octets _ _ _ => True
  | utf8 scan _ => scan.state = .start
  | utf16le scan => scan.half = none ∧ scan.surrogate = false

theorem between_of_finish (h : scanner.finish.range ≠ .broken) : scanner.Between := by
  cases scanner with
  | octets => trivial
  | utf8 scan high =>
    rw [Between, Utf8.Scan.eq_behind_of_finish (broken_of_utf8 h)]
    rfl
  | utf16le scan =>
    rw [Between, Utf16.Scan.eq_behind_of_finish (broken_of_utf16le h)]
    exact ⟨rfl, rfl⟩

end Scanner

namespace Encoding

variable {encoding : Encoding} {left : Bytes}

/-- Octets that are not found broken leave every scanner between characters, and a scan of more
octets is the scan of those combined with the scan of the others alone, whatever the others are and
in whatever buffers either of them come. -/
theorem scan_resumes (h : (encoding.scan left).range ≠ .broken) (right : Bytes) :
    (encoding.scan (left ++ right)).range =
        (encoding.scan left).range.combine (encoding.scan right).range ∧
      (encoding.scan (left ++ right)).charLen =
        (encoding.scan left).charLen + (encoding.scan right).charLen ∧
      ∀ scanner, Scanner.HasRead encoding left.toList scanner →
        scanner.Between ∧
          ∀ parts : List Bytes, parts.flatMap Array.toList = right.toList →
            (parts.foldl Scanner.feed scanner).finish = encoding.scan (left ++ right) := by
  have hwhole := scan_append right h
  refine ⟨by rw [hwhole], by rw [hwhole], ?_⟩
  intro scanner hread
  constructor
  · apply Scanner.between_of_finish
    rwa [hread.finish_eq]
  · intro parts hparts
    rw [(hread.foldl parts).finish_eq, hparts, ← Array.toList_append]

/-- After a surrogate pair one octet alone is one ill-formed character. -/
theorem scan_resumes_pair :
    (utf16le.scan #[0x3C, 0xD8, 0x89, 0xDF]).range ≠ .broken ∧
      utf16le.scan (#[0x3C, 0xD8, 0x89, 0xDF] ++ #[0x61]) = ⟨.broken, 2⟩ := by
  have h : (utf16le.scan #[0x3C, 0xD8, 0x89, 0xDF]).range ≠ .broken := by decide +kernel
  obtain ⟨hrange, hchars, -⟩ := scan_resumes h #[0x61]
  exact ⟨h, congrArg₂ ScanResult.mk (hrange.trans (by decide +kernel))
    (hchars.trans (by decide +kernel))⟩

end Encoding

/-! ## Cutting a character -/

namespace Utf8

variable {octets : List UInt8} {byte : UInt8}

namespace State

variable {state state' : State}

theorem count_le (state : State) : state.count ≤ 3 := by
  cases state <;> decide

theorem lower_ge (state : State) : 0x80 ≤ state.lower := by
  cases state <;> decide

theorem upper_le (state : State) : state.upper ≤ 0xBF := by
  cases state <;> decide

/-- An octet that can go on with a character begins none. -/
theorem ofLead?_eq_none_of_tail (h : Tail byte) : ofLead? byte = none := by
  cases hlead : ofLead? byte with
  | none => rfl
  | some state =>
    have hled := ofLead?_eq_some_iff.mp hlead
    cases state <;> simp only [Led] at hled <;> omega

/-- An octet that goes on with a character begun begins none itself, and the character then needs
one octet fewer. -/
theorem of_next? (h : state.next? byte = some state') :
    ofLead? byte = none ∧ state.count = state'.count + 1 := by
  have hstart : state ≠ start := by
    rintro rfl
    cases h
  rw [next?_eq hstart] at h
  split at h
  next hb =>
    cases h
    have htail : Tail byte :=
      ⟨Nat.le_trans state.lower_ge hb.1, Nat.le_trans hb.2 state.upper_le⟩
    refine ⟨ofLead?_eq_none_of_tail htail, ?_⟩
    cases state with
    | start => exact absurd rfl hstart
    | _ => rfl
  next => cases h

end State

namespace Scan

variable {scan scan' fresh : Scan}

theorem begun_reached (h : scan.state ≠ .start) (state : State) :
    (scan.reached state).begun = scan.begun := by
  by_cases hs : state = .start <;> simp [reached, begun, h, hs]

theorem lead_congr (scan scan' : Scan) (byte : UInt8) :
    (scan.lead byte).state = (scan'.lead byte).state ∧
      (scan.lead byte).chars + scan'.chars = (scan'.lead byte).chars + scan.chars := by
  unfold lead
  cases State.ofLead? byte with
  | none => exact ⟨rfl, by simp only; omega⟩
  | some state => cases state <;> exact ⟨rfl, by simp only; omega⟩

/-- The next state, and what an octet adds to the count, depend on the state only. -/
theorem step_congr (h : scan.state = scan'.state) (byte : UInt8) :
    (scan.step byte).state = (scan'.step byte).state ∧
      (scan.step byte).chars + scan'.chars = (scan'.step byte).chars + scan.chars := by
  by_cases hs : scan.state = .start
  · have hs' : scan'.state = .start := h ▸ hs
    simp only [step, hs, hs']
    exact lead_congr scan scan' byte
  · have hs' : scan'.state ≠ .start := h ▸ hs
    cases hnext : scan.state.next? byte with
    | none =>
      rw [step_of_next?_none hs hnext, step_of_next?_none hs' (h ▸ hnext)]
      obtain ⟨hstate, hchars⟩ :=
        lead_congr ⟨.start, scan.chars + 1, true⟩ ⟨.start, scan'.chars + 1, true⟩ byte
      refine ⟨hstate, ?_⟩
      simp only [step] at hchars ⊢
      omega
    | some state =>
      rw [step_of_next? hnext, step_of_next? (h ▸ hnext)]
      exact ⟨rfl, by simp only [reached]; omega⟩

theorem begun_step_congr (h : scan.state = scan'.state) (byte : UInt8) :
    (scan.step byte).begun + scan'.begun = (scan'.step byte).begun + scan.begun := by
  obtain ⟨hstate, hchars⟩ := step_congr h byte
  simp only [begun, h, hstate]
  omega

theorem begun_foldl_congr (h : scan.state = scan'.state) (octets : List UInt8) :
    (octets.foldl step scan).begun + scan'.begun =
      (octets.foldl step scan').begun + scan.begun := by
  induction octets generalizing scan scan' with
  | nil => exact Nat.add_comm ..
  | cons byte rest ih =>
    have hfirst := begun_step_congr h byte
    have hrest := ih (step_congr h byte).1
    simp only [List.foldl_cons]
    omega

/-- A scan within a character and a fresh one read the same octets. Those that go on with the
character count for the fresh one alone, until the two scans are in the same state. -/
theorem begun_foldl_fresh (scan : Scan) (hfresh : fresh.state = .start) (octets : List UInt8) :
    (octets.foldl step scan).begun + fresh.begun ≤
        scan.begun + (octets.foldl step fresh).begun ∧
      scan.begun + (octets.foldl step fresh).begun ≤
        (octets.foldl step scan).begun + fresh.begun + scan.state.count := by
  induction octets generalizing scan fresh with
  | nil => exact ⟨Nat.le_refl _, Nat.le_add_right ..⟩
  | cons byte rest ih =>
    by_cases hs : scan.state = .start
    · have hsame := begun_foldl_congr (hs.trans hfresh.symm) (byte :: rest)
      omega
    · cases hnext : scan.state.next? byte with
      | none =>
        -- The octet ends the character as ill formed, which the scan has counted as begun.
        let ended : Scan := ⟨.start, scan.chars + 1, true⟩
        have hended : ended.begun = scan.begun := by simp [ended, begun, hs]
        have hstate : ended.state = fresh.state := hfresh.symm
        have hsame := begun_foldl_congr hstate (byte :: rest)
        rw [List.foldl_cons, ← step_of_next?_none hs hnext] at hsame
        rw [List.foldl_cons]
        omega
      | some state =>
        -- The octet belongs to the character; alone it is an ill-formed part.
        obtain ⟨hlead, hcount⟩ := State.of_next? hnext
        have hstray : fresh.step byte = ⟨.start, fresh.chars + 1, true⟩ := by
          simp only [step, hfresh, lead, hlead]
        have hbegun : (fresh.step byte).begun = fresh.begun + 1 := by
          simp [hstray, begun, hfresh]
        have hrest := ih (scan.reached state) (congrArg Scan.state hstray)
        rw [begun_reached hs, hbegun] at hrest
        rw [List.foldl_cons, List.foldl_cons, step_of_next? hnext]
        change _ ∧ _ ≤ _ + state.count at hrest
        omega

end Scan

end Utf8

namespace Encoding

theorem charLen_scan_utf8_eq_begun (bytes : Bytes) :
    (utf8.scan bytes).charLen = (bytes.toList.foldl Utf8.Scan.step .empty).begun := by
  rw [← Utf8.Scan.chars_finish, ← Utf8.Scan.feed_eq_foldl]
  rfl

/-- Octets that stand together count no more characters than in two parts. -/
theorem charLen_scan_append_le (left right : Bytes) :
    (utf8.scan (left ++ right)).charLen ≤
      (utf8.scan left).charLen + (utf8.scan right).charLen := by
  let scan := left.toList.foldl Utf8.Scan.step .empty
  have hempty : Utf8.Scan.empty.state = .start := rfl
  have h := (Utf8.Scan.begun_foldl_fresh scan hempty right.toList).1
  simp only [charLen_scan_utf8_eq_begun, Array.toList_append, List.foldl_append]
  exact h

/-- A cut within a character costs three characters at most. -/
theorem charLen_scan_le_append (left right : Bytes) :
    (utf8.scan left).charLen + (utf8.scan right).charLen ≤
      (utf8.scan (left ++ right)).charLen + 3 := by
  let scan := left.toList.foldl Utf8.Scan.step .empty
  have hempty : Utf8.Scan.empty.state = .start := rfl
  have h := (Utf8.Scan.begun_foldl_fresh scan hempty right.toList).2
  have hle := scan.state.count_le
  simp only [charLen_scan_utf8_eq_begun, Array.toList_append, List.foldl_append]
  exact Nat.le_trans h (Nat.add_le_add_left hle _)

example :
    (utf8.scan #[0xF0]).charLen + (utf8.scan #[0x90, 0x80, 0x80]).charLen =
      (utf8.scan (#[0xF0] ++ #[0x90, 0x80, 0x80])).charLen + 3 := by
  decide +kernel

end Encoding

end ByteRope
