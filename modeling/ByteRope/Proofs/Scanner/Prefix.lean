import ByteRope.Proofs.Scanner.Parts

/-!
# Scanning on after well-formed octets

A scan that finds its octets well formed leaves the automaton between characters, so what follows
is classified and counted as if it stood alone (`Encoding.scan_append`).
-/

namespace ByteRope

/-! ## Characters counted before -/

namespace Utf8.Scan

/-- The scan with characters counted before its own. -/
def behind (scan : Scan) (chars : Nat) : Scan := { scan with chars := chars + scan.chars }

theorem lead_behind (scan : Scan) (chars : Nat) (byte : UInt8) :
    (scan.behind chars).lead byte = (scan.lead byte).behind chars := by
  unfold lead behind
  cases State.ofLead? byte with
  | none => rfl
  | some state => cases state <;> rfl

theorem step_behind (scan : Scan) (chars : Nat) (byte : UInt8) :
    (scan.behind chars).step byte = (scan.step byte).behind chars := by
  obtain ⟨state, count, broken⟩ := scan
  have restart := lead_behind ⟨.start, count + 1, true⟩ chars byte
  cases state with
  | start => exact lead_behind ⟨.start, count, broken⟩ chars byte
  | _ =>
    simp only [step, behind] at restart ⊢
    split <;> first | rfl | exact restart

theorem feed_behind (scan : Scan) (chars : Nat) (bytes : Bytes) :
    (scan.behind chars).feed bytes = (scan.feed bytes).behind chars := by
  simp only [feed_eq_foldl]
  induction bytes.toList generalizing scan with
  | nil => rfl
  | cons byte rest ih => rw [List.foldl_cons, List.foldl_cons, step_behind, ih]

theorem finish_behind (scan : Scan) (chars : Nat) :
    (scan.behind chars).finish = scan.finish.behind chars := by
  obtain ⟨state, count, broken⟩ := scan
  cases state <;> rfl

/-- A sequence that ends well formed ends between characters. -/
theorem eq_behind_of_finish {scan : Scan} (h : scan.finish.broken = false) :
    scan = empty.behind scan.finish.chars := by
  obtain ⟨state, chars, broken⟩ := scan
  cases state <;> simp_all [finish, behind, empty]

/-- What follows a well-formed sequence is read as if it stood alone. -/
theorem finish_feed_of_finish {scan : Scan} (h : scan.finish.broken = false) (bytes : Bytes) :
    (scan.feed bytes).finish = (empty.feed bytes).finish.behind scan.finish.chars := by
  rw [← finish_behind, ← feed_behind, ← eq_behind_of_finish h]

end Utf8.Scan

namespace Utf16.Scan

/-- The scan with characters counted before its own. -/
def behind (scan : Scan) (chars : Nat) : Scan := { scan with chars := chars + scan.chars }

theorem lead_behind (scan : Scan) (chars : Nat) (unit : Nat) :
    (scan.behind chars).lead unit = (scan.lead unit).behind chars := by
  unfold lead behind
  split
  · rfl
  · split <;> rfl

theorem readUnit_behind (scan : Scan) (chars : Nat) (unit : Nat) :
    (scan.behind chars).readUnit unit = (scan.readUnit unit).behind chars := by
  obtain ⟨half, surrogate, count, broken⟩ := scan
  have restart := lead_behind ⟨half, false, count + 1, true⟩ chars unit
  cases surrogate with
  | false => exact lead_behind ⟨half, false, count, broken⟩ chars unit
  | true =>
    simp only [readUnit, behind, if_true] at restart ⊢
    split
    · rfl
    · exact restart

theorem step_behind (scan : Scan) (chars : Nat) (byte : UInt8) :
    (scan.behind chars).step byte = (scan.step byte).behind chars := by
  obtain ⟨half, surrogate, count, broken⟩ := scan
  cases half with
  | none => rfl
  | some low => exact readUnit_behind ⟨none, surrogate, count, broken⟩ chars (codeUnit low byte)

theorem feed_behind (scan : Scan) (chars : Nat) (bytes : Bytes) :
    (scan.behind chars).feed bytes = (scan.feed bytes).behind chars := by
  simp only [feed_eq_foldl]
  induction bytes.toList generalizing scan with
  | nil => rfl
  | cons byte rest ih => rw [List.foldl_cons, List.foldl_cons, step_behind, ih]

theorem finish_behind (scan : Scan) (chars : Nat) :
    (scan.behind chars).finish = scan.finish.behind chars := by
  simp only [finish, behind]
  rw [Nat.add_assoc chars, Nat.add_assoc chars]
  rfl

/-- A sequence that ends well formed ends between characters. -/
theorem eq_behind_of_finish {scan : Scan} (h : scan.finish.broken = false) :
    scan = empty.behind scan.finish.chars := by
  obtain ⟨half, surrogate, chars, broken⟩ := scan
  cases half <;> cases surrogate <;> simp_all [finish, behind, empty]

/-- What follows a well-formed sequence is read as if it stood alone. -/
theorem finish_feed_of_finish {scan : Scan} (h : scan.finish.broken = false) (bytes : Bytes) :
    (scan.feed bytes).finish = (empty.feed bytes).finish.behind scan.finish.chars := by
  rw [← finish_behind, ← feed_behind, ← eq_behind_of_finish h]

end Utf16.Scan

namespace Scanner

theorem broken_of_utf8 {scan : Utf8.Scan} {high : Bool}
    (h : (utf8 scan high).finish.range ≠ .broken) : scan.finish.broken = false := by
  simpa [finish, apply_ite (· = CodeRange.broken)] using h

theorem broken_of_utf16le {scan : Utf16.Scan} (h : (utf16le scan).finish.range ≠ .broken) :
    scan.finish.broken = false := by
  simpa [finish, apply_ite (· = CodeRange.broken)] using h

end Scanner

namespace Encoding

/-- After well-formed octets a scan goes on as if it began. -/
theorem scan_append {encoding : Encoding} {left : Bytes} (right : Bytes)
    (h : (encoding.scan left).range ≠ .broken) :
    encoding.scan (left ++ right) =
      ⟨(encoding.scan left).range.combine (encoding.scan right).range,
        (encoding.scan left).charLen + (encoding.scan right).charLen⟩ := by
  simp only [scan, Scanner.feed_append] at h ⊢
  cases encoding with
  | usAscii =>
    cases hl : left.isAscii <;> cases hr : right.isAscii <;>
      simp_all [Scanner.new, Scanner.feed, Scanner.finish, CodeRange.combine]
  | binary | latin1 =>
    cases hl : left.isAscii <;> cases hr : right.isAscii <;>
      simp [Scanner.new, Scanner.feed, Scanner.finish, CodeRange.combine, hl, hr]
  | utf8 =>
    have hb := Scanner.broken_of_utf8 h
    simp only [Scanner.new, Scanner.feed, Scanner.finish, hb, Utf8.Scan.finish_feed_of_finish hb]
    obtain ⟨_, count, broken⟩ := (Utf8.Scan.empty.feed right).finish
    cases broken <;> cases left.isAscii <;> cases right.isAscii <;>
      simp [Utf8.Scan.behind, CodeRange.combine]
  | utf16le =>
    have hb := Scanner.broken_of_utf16le h
    simp only [Scanner.new, Scanner.feed, Scanner.finish, hb, Utf16.Scan.finish_feed_of_finish hb]
    obtain ⟨_, _, count, broken⟩ := (Utf16.Scan.empty.feed right).finish
    cases broken <;> simp [Utf16.Scan.behind, CodeRange.combine]

end Encoding

end ByteRope
