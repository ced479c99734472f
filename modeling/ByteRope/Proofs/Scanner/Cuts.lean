import ByteRope.Proofs.Scanner.Counts

/-!
# Cutting the input of a scanner

A scanner that has read some octets, in whatever buffers they came, is the scanner that has read
them at once (`Scanner.HasRead.eq_feed`). So reading on does not depend on how the input is cut, not
even within a character, a surrogate pair or a code unit, and the outcome is the scan of all octets
read since the scanner was new (`Scanner.HasRead.finish_foldl_feed`).
-/

namespace ByteRope.Scanner

variable {encoding : Encoding} {octets : List UInt8} {scanner : Scanner}

/-- The characters counted so far. -/
def chars : Scanner → Nat
  | .octets _ chars _ => chars
  | .utf8 scan _ => scan.chars
  | .utf16le scan => scan.chars

theorem chars_le_finish (scanner : Scanner) : scanner.chars ≤ scanner.finish.charLen := by
  cases scanner with
  | octets => exact Nat.le_refl _
  | utf8 scan =>
    rw [finish, scan.chars_finish]
    exact Nat.le_add_right ..
  | utf16le scan =>
    rw [finish, scan.chars_finish, chars, Utf16.Scan.begun, Nat.add_assoc]
    exact Nat.le_add_right ..

/-- The scanner began under the encoding and has read these octets, in buffers of any lengths. -/
inductive HasRead (encoding : Encoding) : List UInt8 → Scanner → Prop
  | new : HasRead encoding [] (new encoding)
  | feed {octets : List UInt8} {scanner : Scanner} (bytes : Bytes) :
    HasRead encoding octets scanner → HasRead encoding (octets ++ bytes.toList) (scanner.feed bytes)

namespace HasRead

theorem eq_feed (h : HasRead encoding octets scanner) :
    scanner = (Scanner.new encoding).feed octets.toArray := by
  induction h with
  | new => exact (feed_empty _).symm
  | feed bytes _ ih =>
    rw [ih, ← feed_append, ← List.append_toArray, Array.toArray_toList]

theorem finish_eq (h : HasRead encoding octets scanner) :
    scanner.finish = encoding.scan octets.toArray :=
  congrArg Scanner.finish h.eq_feed

theorem foldl (h : HasRead encoding octets scanner) (parts : List Bytes) :
    HasRead encoding (octets ++ parts.flatMap Array.toList) (parts.foldl Scanner.feed scanner) := by
  induction parts generalizing octets scanner with
  | nil => rwa [List.flatMap_nil, List.append_nil]
  | cons part rest ih =>
    rw [List.flatMap_cons, ← List.append_assoc]
    exact ih (h.feed part)

/-- A scanner never counts more characters than it has read octets, not even when it ends. -/
theorem finish_le (h : HasRead encoding octets scanner) :
    scanner.finish.charLen ≤ octets.length := by
  rw [h.finish_eq, ← List.size_toArray]
  exact Encoding.charLen_scan_le encoding octets.toArray

/-- From every state of a scanner, reading parts in order and finishing is reading at once what they
are parts of and finishing. The outcome is the scan of all octets read since the scanner was new,
with no more characters than octets. -/
theorem finish_foldl_feed {parts : List Bytes} {whole : Bytes}
    (h : HasRead encoding octets scanner) (hcut : parts.flatMap Array.toList = whole.toList) :
    (parts.foldl Scanner.feed scanner).finish = (scanner.feed whole).finish ∧
      (scanner.feed whole).finish = encoding.scan (octets ++ whole.toList).toArray ∧
      (scanner.feed whole).finish.charLen ≤ octets.length + whole.size := by
  have hwhole : (scanner.feed whole).finish = encoding.scan (octets ++ whole.toList).toArray :=
    (h.feed whole).finish_eq
  refine ⟨?_, hwhole, ?_⟩
  · rw [hwhole, ← hcut]
    exact (h.foldl parts).finish_eq
  · have hle := Encoding.charLen_scan_le encoding (octets ++ whole.toList).toArray
    rw [hwhole]
    simpa using hle

/-- After the first octet of é a scanner reads the other one, nothing, and the octets of 🎉 cut in
the middle. -/
theorem finish_foldl_feed_halves :
    ∃ scanner : Scanner, HasRead .utf8 [0xC3] scanner ∧
      [#[0xA9], #[], #[0xF0, 0x9F], #[0x8E, 0x89]].flatMap Array.toList =
        (#[0xA9, 0xF0, 0x9F, 0x8E, 0x89] : Bytes).toList ∧
      ([#[0xA9], #[], #[0xF0, 0x9F], #[0x8E, 0x89]].foldl Scanner.feed scanner).finish =
        (scanner.feed #[0xA9, 0xF0, 0x9F, 0x8E, 0x89]).finish ∧
      (scanner.feed #[0xA9, 0xF0, 0x9F, 0x8E, 0x89]).finish = ⟨.valid, 2⟩ := by
  have h : HasRead .utf8 [0xC3] ((Scanner.new .utf8).feed #[0xC3]) := HasRead.new.feed #[0xC3]
  have hcut : [#[0xA9], #[], #[0xF0, 0x9F], #[0x8E, 0x89]].flatMap Array.toList =
      (#[0xA9, 0xF0, 0x9F, 0x8E, 0x89] : Bytes).toList := rfl
  obtain ⟨hparts, hscan, -⟩ := h.finish_foldl_feed hcut
  exact ⟨_, h, hcut, hparts, hscan.trans (by decide +kernel)⟩

end HasRead

end ByteRope.Scanner
