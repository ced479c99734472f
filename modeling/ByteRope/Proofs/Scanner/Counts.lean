import ByteRope.Proofs.Scanner.Parts

/-!
# Characters and octets

A scan counts at most one character an octet (`Encoding.charLen_scan_le`), and exactly one an octet
where ASCII octets stand for themselves (`Encoding.scan_of_isAscii`). In UTF-16LE the same octets
make code units of two, none of them a surrogate (`Encoding.charLen_scan_utf16le`).
-/

namespace ByteRope

namespace Utf8.Scan

/-- The characters counted and the one begun. -/
def begun (scan : Scan) : Nat := scan.chars + (if scan.state = .start then 0 else 1)

theorem begun_lead_le (scan : Scan) (byte : UInt8) : (scan.lead byte).begun ≤ scan.chars + 1 := by
  unfold lead begun
  split <;> simp
  split <;> omega

theorem begun_step_le (scan : Scan) (byte : UInt8) : (scan.step byte).begun ≤ scan.begun + 1 := by
  obtain ⟨state, chars, broken⟩ := scan
  have restart := begun_lead_le ⟨.start, chars + 1, true⟩ byte
  cases state with
  | start => exact begun_lead_le ⟨.start, chars, broken⟩ byte
  | _ =>
    simp only [step]
    split <;> simp_all [begun]

theorem begun_foldl_le (scan : Scan) (octets : List UInt8) :
    (octets.foldl step scan).begun ≤ scan.begun + octets.length := by
  induction octets generalizing scan with
  | nil => exact Nat.le_refl _
  | cons byte rest ih =>
    have first := begun_step_le scan byte
    have later := ih (scan.step byte)
    rw [List.foldl_cons, List.length_cons]
    omega

theorem chars_finish (scan : Scan) : scan.finish.chars = scan.begun := by
  obtain ⟨state, chars, broken⟩ := scan
  cases state <;> rfl

end Utf8.Scan

namespace Utf16.Scan

/-- The characters counted, and the surrogate and the octet waiting. -/
def begun (scan : Scan) : Nat :=
  scan.chars + (if scan.surrogate then 1 else 0) + (if scan.half.isSome then 1 else 0)

theorem chars_finish (scan : Scan) : scan.finish.chars = scan.begun := rfl

theorem begun_lead_le (scan : Scan) (hs : scan.surrogate = false) (unit : Nat) :
    (scan.lead unit).begun ≤ scan.begun + 1 := by
  unfold lead begun
  split
  · simp [hs]
    omega
  · split <;> simp [hs] <;> omega

theorem begun_readUnit_le (scan : Scan) (unit : Nat) :
    (scan.readUnit unit).begun ≤ scan.begun + 1 := by
  obtain ⟨half, surrogate, chars, broken⟩ := scan
  cases surrogate with
  | false => exact begun_lead_le _ rfl unit
  | true =>
    have restart := begun_lead_le ⟨half, false, chars + 1, true⟩ rfl unit
    simp only [readUnit, if_true]
    split <;> simp_all [begun]

theorem begun_step_le (scan : Scan) (byte : UInt8) : (scan.step byte).begun ≤ scan.begun + 1 := by
  obtain ⟨half, surrogate, chars, broken⟩ := scan
  cases half with
  | none => exact Nat.le_refl _
  | some low =>
    have unit := begun_readUnit_le ⟨none, surrogate, chars, broken⟩ (codeUnit low byte)
    exact Nat.le_trans unit (by simp [begun])

theorem begun_foldl_le (scan : Scan) (octets : List UInt8) :
    (octets.foldl step scan).begun ≤ scan.begun + octets.length := by
  induction octets generalizing scan with
  | nil => exact Nat.le_refl _
  | cons byte rest ih =>
    have first := begun_step_le scan byte
    have later := ih (scan.step byte)
    rw [List.foldl_cons, List.length_cons]
    omega

/-- A code unit of two ASCII octets is no surrogate. -/
theorem readUnit_of_ascii {low high : UInt8} (hl : low < 0x80) (hh : high < 0x80) (scan : Scan)
    (hs : scan.surrogate = false) :
    scan.readUnit (codeUnit low high) = { scan with chars := scan.chars + 1 } := by
  have hl : low.toNat < 128 := hl
  have hh : high.toNat < 128 := hh
  have hu : codeUnit low high < 0xD800 := by
    unfold codeUnit
    omega
  have hhigh : isHighSurrogate (codeUnit low high) = false := by
    simp only [isHighSurrogate, Bool.and_eq_false_iff, decide_eq_false_iff_not]
    omega
  have hlow : isLowSurrogate (codeUnit low high) = false := by
    simp only [isLowSurrogate, Bool.and_eq_false_iff, decide_eq_false_iff_not]
    omega
  simp [readUnit, lead, hs, hhigh, hlow]

/-- ASCII octets in pairs are one character each, and so is one left over. -/
theorem begun_foldl_of_ascii {octets : List UInt8} (h : ∀ byte ∈ octets, byte < 0x80)
    (scan : Scan) (hs : scan.surrogate = false) (hh : scan.half = none) :
    (octets.foldl step scan).begun = scan.chars + (octets.length + 1) / 2 := by
  match octets with
  | [] => simp [begun, hs, hh]
  | [byte] => simp [step, begun, hs, hh]
  | low :: high :: rest =>
    have hrest : ∀ byte ∈ rest, byte < 0x80 := fun byte hm => h byte (by simp [hm])
    have ih := begun_foldl_of_ascii hrest { scan with chars := scan.chars + 1 } hs hh
    have two : (scan.step low).step high = { scan with chars := scan.chars + 1 } := by
      obtain ⟨half, surrogate, chars, broken⟩ := scan
      cases hh
      exact readUnit_of_ascii (h low (by simp)) (h high (by simp))
        ⟨none, surrogate, chars, broken⟩ hs
    rw [List.foldl_cons, List.foldl_cons, two, ih, List.length_cons, List.length_cons]
    simp only
    omega

end Utf16.Scan

namespace Encoding

variable {encoding : Encoding} {bytes : Bytes}

theorem charLen_scan_le (encoding : Encoding) (bytes : Bytes) :
    (encoding.scan bytes).charLen ≤ bytes.size := by
  cases encoding with
  | usAscii | binary | latin1 => simp [scan, Scanner.new, Scanner.feed, Scanner.finish]
  | utf8 =>
    have h := Utf8.Scan.begun_foldl_le .empty bytes.toList
    rw [← Utf8.Scan.feed_eq_foldl, ← Utf8.Scan.chars_finish, Array.length_toList] at h
    exact Nat.le_trans h (Nat.le_of_eq (Nat.zero_add _))
  | utf16le =>
    have h := Utf16.Scan.begun_foldl_le .empty bytes.toList
    rw [← Utf16.Scan.feed_eq_foldl, ← Utf16.Scan.chars_finish, Array.length_toList] at h
    exact Nat.le_trans h (Nat.le_of_eq (Nat.zero_add _))

theorem scan_of_isAscii (hc : encoding.isAsciiCompatible = true) (h : bytes.isAscii = true) :
    encoding.scan bytes = ⟨.asciiOnly, bytes.size⟩ := by
  cases encoding with
  | usAscii | binary | latin1 => simp [scan, Scanner.new, Scanner.feed, Scanner.finish, h]
  | utf8 =>
    simp [scan, Scanner.new, Scanner.feed, Scanner.finish, h, Utf8.Scan.feed, Utf8.Scan.empty,
      Utf8.Scan.finish]
  | utf16le => simp [isAsciiCompatible] at hc

/-- A scan finds nothing but ASCII exactly where that is all there is and means what it says. -/
theorem scan_range_eq_asciiOnly_iff :
    (encoding.scan bytes).range = .asciiOnly ↔
      encoding.isAsciiCompatible = true ∧ bytes.isAscii = true := by
  constructor
  · intro h
    cases encoding with
    | usAscii | binary | latin1 | utf8 =>
      refine ⟨rfl, ?_⟩
      cases ha : bytes.isAscii with
      | true => rfl
      | false =>
        simp only [scan, Scanner.new, Scanner.feed, Scanner.finish, ha] at h
        split at h <;> simp_all
    | utf16le =>
      simp only [scan, Scanner.new, Scanner.feed, Scanner.finish] at h
      split at h <;> cases h
  · rintro ⟨hc, ha⟩
    rw [scan_of_isAscii hc ha]

theorem scan_range_ne_unknown (encoding : Encoding) (bytes : Bytes) :
    (encoding.scan bytes).range ≠ .unknown := by
  unfold scan
  generalize (Scanner.new encoding).feed bytes = scanner
  cases scanner <;> simp only [Scanner.finish] <;> repeat (first | split | simp)

theorem charLen_scan_utf16le (h : bytes.isAscii = true) :
    (utf16le.scan bytes).charLen = (bytes.size + 1) / 2 := by
  have hc := Utf16.Scan.begun_foldl_of_ascii (Bytes.isAscii_iff.mp h) .empty rfl rfl
  rw [← Utf16.Scan.feed_eq_foldl, ← Utf16.Scan.chars_finish, Array.length_toList] at hc
  exact hc.trans (Nat.zero_add _)

end Encoding

end ByteRope
