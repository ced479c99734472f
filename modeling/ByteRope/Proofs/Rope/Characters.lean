import ByteRope.Proofs.Rope.Soundness

/-!
# Numbers of characters

As long as no caller says how many characters there are, no rope has more characters than octets
(`Rope.passes_charLen_le`). A join adds up the characters of its sides, which need not be those of
its content; every other node has the characters that a scan of its content finds, unless it was
copied from a join (`Rope.passes_charLen_eq`). So whether an ASCII-only rope can be rebuilt is a
question about the pieces under UTF-16LE (`Rope.Regroupable`).
-/

namespace ByteRope.Rope

variable {may : Deed → Prop} {rope piece : Rope}

/-! ## No more than octets -/

theorem Scanned.charLen_le {encoding : Encoding} {bytes : Bytes}
    (h : Scanned encoding bytes rope) : rope.charLen ≤ rope.byteLen := by
  cases h with
  | leaf => exact Encoding.charLen_scan_le encoding bytes

theorem WF.charLen_scanned_le (h : rope.WF) : rope.scanned.charLen ≤ rope.byteLen :=
  h.length_content ▸ Encoding.charLen_scan_le rope.encoding rope.content.toArray

theorem WF.charLen_stretchTags_le (h : rope.WF) {offset len : Nat}
    (hr : offset + len ≤ rope.byteLen) : (rope.stretchTags offset len).charLen ≤ len := by
  unfold stretchTags
  split
  · exact Nat.le_refl len
  · have hscan := Encoding.charLen_scan_le rope.encoding (rope.stretch offset len).toArray
    rwa [List.size_toArray, h.length_stretch hr] at hscan

theorem passes_charLen_le (htag : ¬may .tag) (hcount : ∀ encoding, ¬may (.count encoding)) :
    Made.Passes may fun rope => rope.charLen ≤ rope.byteLen where
  scanned _ h := h.charLen_le
  claimed _ h := by
    cases h with
    | asciiOnly => exact Nat.le_refl _
    | valid => exact Encoding.charLen_scan_le ..
  counted h := absurd h (hcount _)
  concatenated _ _ _ hl hr _ _ hjoined := by
    rw [adds_charLen _ _ _ _ _ _ hjoined, adds_byteLen _ _ _ _ _ _ hjoined]
    exact Nat.add_le_add hl hr
  sliced _ hrope _ _ hrange _ _ _ hshown := by
    cases hshown with
    | view => exact hrope.wf.charLen_stretchTags_le hrange
  emptied _ _ _ h := h.charLen_le
  transitioned _ _ hle h := by
    cases h with
    | sevenBit _ _ hretagged => rwa [hretagged.charLen_eq, hretagged.byteLen_eq]
    | binary _ hretagged =>
      rw [hretagged.charLen_eq, hretagged.byteLen_eq]
  resolved _ hrope _ _ h := by
    rw [h.charLen_eq, h.byteLen_eq]
    exact hrope.wf.charLen_scanned_le
  leafed _ hrope hle h := by
    rw [h.charLen_eq, h.byteLen_eq hrope.wf]
    split
    · exact hrope.wf.charLen_scanned_le
    · exact hle
  rebuilt _ hrope hl hr hle _ _ h := by
    rw [hrope.wf.byteLen_eq (h.wf hrope.wf hl.wf hr.wf) h.content_eq, charLen, h.tags_eq]
    exact hle
  joined h := absurd h htag
  shown h := absurd h htag

/-! ## What a scan finds -/

theorem SoundTags.charLen_eq (h : SoundTags rope) (hwf : rope.WF)
    (hgood : rope.range.isGood = true) : rope.charLen = rope.scanned.charLen :=
  (h.scan_under hwf hgood (.inl rfl)).2.symm

theorem Scanned.charLen_eq_scanned {encoding : Encoding} {bytes : Bytes}
    (h : Scanned encoding bytes rope) : rope.charLen = rope.scanned.charLen := by
  cases h
  rfl

theorem passes_charLen_eq (htag : ¬may .tag) (hcount : ∀ encoding, ¬may (.count encoding))
    (hrebuild : ¬may .rebuild) :
    Made.Passes may fun rope => rope.isJoin = false → rope.charLen = rope.scanned.charLen where
  scanned _ h _ := h.charLen_eq_scanned
  claimed hmay h _ := by
    have hmade := Made.claimed hmay h
    apply (hmade.induct (passes_soundTags htag)).charLen_eq hmade.wf
    cases h <;> rfl
  counted h := absurd h (hcount _)
  concatenated _ _ _ _ _ _ _ hjoined := by
    cases hjoined
    nofun
  sliced {rope child slice offset start len} hmay hrope _ _ hrange hlen hwithin hshows hshown
      _ := by
    by_cases hascii : rope.range = .asciiOnly
    · have hmade := Made.sliced hmay hrope hrange (.view hlen hwithin hshows hshown)
      apply (hmade.induct (passes_soundTags htag)).charLen_eq hmade.wf
      cases hshown with
      | view =>
        change (rope.stretchTags offset len).range.isGood = true
        rw [stretchTags_of_ascii hascii]
        rfl
    · cases hshown with
      | view =>
        change (rope.stretchTags offset len).charLen =
          (Encoding.scan (rope.stretchTags offset len).encoding
            (child.stretch start len).toArray).charLen
        rw [stretchTags_of_ne hascii, hshows]
  emptied _ _ _ h _ := h.charLen_eq_scanned
  transitioned hmay hrope _ h _ := by
    have hmade := Made.transitioned hmay hrope h
    apply (hmade.induct (passes_soundTags htag)).charLen_eq hmade.wf
    cases h with
    | sevenBit _ _ hretagged | binary _ hretagged =>
      rw [hretagged.range_eq]
      rfl
  resolved {rope rope'} _ _ _ _ h _ := by
    rw [h.charLen_eq, scanned, scanned, h.encoding_eq, h.content_eq]
  leafed h := absurd h hrebuild
  rebuilt h := absurd h hrebuild
  joined h := absurd h htag
  shown h := absurd h htag

/-! ## Rebuilding -/

/-- Octets below 0x80 are a character each, but two are one under UTF-16LE. -/
theorem charLen_scanned_eq_iff (hwf : rope.WF) (hne : rope.byteLen ≠ 0)
    (hascii : ∀ byte ∈ rope.content, byte < 0x80) :
    rope.scanned.charLen = rope.byteLen ↔ (rope.encoding = .utf16le → rope.byteLen = 1) := by
  have hbytes : Bytes.isAscii rope.content.toArray = true := Bytes.isAscii_iff.mpr hascii
  by_cases hencoding : rope.encoding = .utf16le
  · rw [scanned, hencoding, Encoding.charLen_scan_utf16le hbytes, List.size_toArray,
      hwf.length_content]
    simp only [true_imp_iff]
    omega
  · have hc : rope.encoding.isAsciiCompatible = true := by
      revert hencoding
      cases rope.encoding <;> simp [Encoding.isAsciiCompatible]
    rw [scanned, Encoding.scan_of_isAscii hc hbytes, List.size_toArray, hwf.length_content]
    exact ⟨fun _ h => absurd h hencoding, fun _ => rfl⟩

theorem sum_map_eq_iff {α : Type} {f g : α → Nat} {as : List α} (h : ∀ a ∈ as, f a ≤ g a) :
    (as.map f).sum = (as.map g).sum ↔ ∀ a ∈ as, f a = g a := by
  induction as with
  | nil => simp
  | cons a as ih =>
    have ha := h a (List.mem_cons_self ..)
    have has := fun a' ha' => h a' (List.mem_cons_of_mem _ ha')
    have hle := List.sum_le_sum has
    rw [List.map_cons, List.sum_cons, List.map_cons, List.sum_cons, List.forall_mem_cons, ← ih has]
    omega

theorem settledCharLen_eq (h : piece.charLen = piece.scanned.charLen) :
    piece.settledCharLen = piece.scanned.charLen := by
  unfold settledCharLen
  split
  · rfl
  · exact h

/-- The views to be copied are short enough, and if the root is to be made anew with an ASCII-only
range, then no piece of more than one octet is under UTF-16LE. -/
structure Regroupable (rope : Rope) : Prop where
  fits : ∀ piece ∈ rope.parts, piece.isLoose = true → piece.byteLen ≤ Size.maxBuffer
  narrow : rope.pairedDepth < rope.depth → rope.range = .asciiOnly →
    ∀ piece ∈ rope.parts, piece.encoding = .utf16le → piece.byteLen = 1

theorem rebuildable_iff_regroupable (hwf : rope.WF) (hsound : SoundTags rope)
    (hchars : ∀ piece ∈ rope.parts, piece.charLen = piece.scanned.charLen) :
    rope.Rebuildable ↔ rope.Regroupable := by
  have hpiece {piece : Rope} (hmem : piece ∈ rope.parts) : piece.WF :=
    hwf.of_within (mem_parts hmem).1
  have hsettled : rope.pairedCharLen = (rope.parts.map (·.scanned.charLen)).sum :=
    congrArg List.sum (List.map_congr_left fun piece hmem => settledCharLen_eq (hchars piece hmem))
  have hlengths (hascii : rope.range = .asciiOnly) : rope.pairedCharLen = rope.byteLen ↔
      ∀ piece ∈ rope.parts, piece.encoding = .utf16le → piece.byteLen = 1 := by
    rw [hsettled, ← hwf.sum_byteLen_parts,
      sum_map_eq_iff fun piece hmem => (hpiece hmem).charLen_scanned_le]
    refine forall₂_congr fun piece hmem => ?_
    refine charLen_scanned_eq_iff (hpiece hmem) (mem_parts hmem).2 fun byte hbyte => ?_
    apply (hsound.ascii hascii).2.1 byte
    rw [← hwf.content_parts]
    exact List.mem_flatMap.mpr ⟨piece, hmem, hbyte⟩
  constructor
  · exact fun h => ⟨h.fits, fun hgain hascii => (hlengths hascii).mp (h.ascii hgain hascii)⟩
  · exact fun h => ⟨h.fits, fun hgain hascii => (hlengths hascii).mpr (h.narrow hgain hascii)⟩

end ByteRope.Rope
