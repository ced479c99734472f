import ByteRope.Scanner

/-!
# Scanning in parts

A scanner does not see where its input is cut: reading two buffers one after the other is reading
them as one (`Scanner.feed_append`). The automata read octet by octet, so this is `foldl` over an
append once the shortcut for ASCII buffers is shown to agree with the steps.
-/

namespace ByteRope

namespace Bytes

variable {left right bytes : Bytes}

theorem isAscii_iff : bytes.isAscii = true ↔ ∀ byte ∈ bytes.toList, byte < 0x80 := by
  rw [isAscii, Array.all_eq_true_iff_forall_mem]
  simp

theorem isAscii_append : isAscii (left ++ right) = (left.isAscii && right.isAscii) := by
  simp [isAscii]

end Bytes

namespace Utf8.Scan

theorem step_of_ascii {scan : Scan} {byte : UInt8} (hs : scan.state = .start)
    (hb : byte < 0x80) : scan.step byte = { scan with chars := scan.chars + 1 } := by
  obtain ⟨state, chars, broken⟩ := scan
  cases hs
  simp [step, lead, State.ofLead?, hb]

theorem foldl_step_of_ascii {octets : List UInt8} (h : ∀ byte ∈ octets, byte < 0x80)
    {scan : Scan} (hs : scan.state = .start) :
    octets.foldl step scan = { scan with chars := scan.chars + octets.length } := by
  induction octets generalizing scan with
  | nil => rfl
  | cons byte rest ih =>
    have hb := h byte (List.mem_cons_self ..)
    have ih := @ih (fun b hm => h b (List.mem_cons_of_mem _ hm)) (scan.step byte)
    rw [step_of_ascii hs hb] at ih
    rw [List.foldl_cons, step_of_ascii hs hb, ih hs, List.length_cons, Nat.add_right_comm,
      Nat.add_assoc]

/-- The shortcut for ASCII buffers counts what the steps count. -/
theorem feed_eq_foldl (scan : Scan) (bytes : Bytes) :
    scan.feed bytes = bytes.toList.foldl step scan := by
  unfold feed
  split
  next h => rw [foldl_step_of_ascii (Bytes.isAscii_iff.mp h.2) h.1, Array.length_toList]
  next => rw [Array.foldl_toList]

theorem feed_append (scan : Scan) (left right : Bytes) :
    scan.feed (left ++ right) = (scan.feed left).feed right := by
  simp only [feed_eq_foldl, Array.toList_append, List.foldl_append]

end Utf8.Scan

namespace Utf16.Scan

theorem feed_eq_foldl (scan : Scan) (bytes : Bytes) :
    scan.feed bytes = bytes.toList.foldl step scan :=
  (Array.foldl_toList ..).symm

theorem feed_append (scan : Scan) (left right : Bytes) :
    scan.feed (left ++ right) = (scan.feed left).feed right := by
  simp only [feed_eq_foldl, Array.toList_append, List.foldl_append]

end Utf16.Scan

namespace Scanner

/-- A scanner does not see a cut. -/
theorem feed_append (scanner : Scanner) (left right : Bytes) :
    scanner.feed (left ++ right) = (scanner.feed left).feed right := by
  cases scanner with
  | octets strict chars high =>
    simp only [feed, Bytes.isAscii_append, Array.size_append, Bool.not_and, Bool.or_assoc,
      Nat.add_assoc]
  | utf8 scan high =>
    simp only [feed, Utf8.Scan.feed_append, Bytes.isAscii_append, Bool.not_and, Bool.or_assoc]
  | utf16le scan => simp only [feed, Utf16.Scan.feed_append]

theorem feed_empty (scanner : Scanner) : scanner.feed #[] = scanner := by
  cases scanner with
  | octets strict chars high => simp [feed, Bytes.isAscii]
  | utf8 scan high => simp [feed, Bytes.isAscii, Utf8.Scan.feed_eq_foldl]
  | utf16le scan => simp [feed, Utf16.Scan.feed_eq_foldl]

/-- Reading parts in order is reading their concatenation. -/
theorem foldl_feed (scanner : Scanner) (parts : List Bytes) :
    parts.foldl feed scanner = scanner.feed (parts.flatMap Array.toList).toArray := by
  induction parts generalizing scanner with
  | nil => exact (feed_empty scanner).symm
  | cons part rest ih =>
    rw [List.foldl_cons, ih, ← feed_append, List.flatMap_cons, ← List.append_toArray,
      Array.toArray_toList]

end Scanner

end ByteRope
