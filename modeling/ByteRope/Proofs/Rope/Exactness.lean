import ByteRope.Proofs.Rope.Anchoring
import ByteRope.Proofs.Rope.Soundness

/-!
# Exact tags

The tags of a rope are exact if they are what a scan of its content finds. Tags that scans have made
are exact, but those handed on need not be: a join of sides that cannot share an encoding, or that
halve a character between them, is broken whatever its octets are together, and valid octets under
another encoding become valid ones under ASCII-8BIT even where they are ASCII
(`Rope.SoundTags.exact_cases`). A slice is either tagged by a scan of what it shows, or is a node
that is there already (`Rope.Cut`), so its tags are exact unless those of such a node are not
(`Rope.Cut.exact_iff`).
-/

namespace ByteRope

/-- The deeds for which no caller says tags or numbers. -/
def Deed.Derived : Deed → Prop
  | scan _ | concat | slice | transition | resolve | rebuild => True
  | claim _ | count _ | tag => False

namespace Rope

variable {may : Deed → Prop} {c : Census} {rope rope' left right node slice : Rope}
  {offset len : Nat}

/-- The tags are what a scan of the content finds. -/
structure Exact (rope : Rope) : Prop where
  range_eq : rope.range = rope.scanned.range
  charLen_eq : rope.charLen = rope.scanned.charLen

theorem Scanned.exact {encoding : Encoding} {bytes : Bytes} (h : Scanned encoding bytes rope) :
    rope.Exact := by
  cases h with
  | leaf _ hkind => exact ⟨hkind, rfl⟩

/-! ## Valid content -/

/-- Content that is marked valid is not ASCII, unless it is no text. -/
def ProperlyValid (rope : Rope) : Prop :=
  rope.range = .valid → rope.encoding ≠ .binary → rope.scanned.range ≠ .asciiOnly

namespace ProperlyValid

theorem of_scanned (h : rope.range = rope.scanned.range) : rope.ProperlyValid := by
  intro hvalid _ hascii
  rw [h, hascii] at hvalid
  cases hvalid

theorem of_eq (h : rope.ProperlyValid) (htags : rope'.tags = rope.tags)
    (hcontent : rope'.content = rope.content) : rope'.ProperlyValid := by
  unfold ProperlyValid scanned encoding range at h ⊢
  rwa [htags, hcontent]

/-- A side that keeps its encoding in an ASCII join is ASCII by itself. -/
theorem joined {balanced : Bool} (hl : left.ProperlyValid) (hr : right.ProperlyValid)
    (h : Joined left right (joinedTags left right).1 (joinedTags left right).2 balanced rope) :
    rope.ProperlyValid := by
  intro hvalid hbinary hascii
  rw [h.range_eq] at hvalid
  obtain ⟨hc, hall⟩ := Encoding.scan_range_eq_asciiOnly_iff.mp hascii
  rw [h.encoding_eq] at hbinary hc
  have hcontent : rope.content = left.content ++ right.content := by cases h; rfl
  rw [hcontent, Bytes.isAscii_iff] at hall
  have side {part : Rope} (hpart : part.ProperlyValid) (hrange : part.range = .valid)
      (hencoding : part.encoding = (joinedTags left right).1 ∨
        part.range = .asciiOnly ∧ (joinedTags left right).1.isAsciiCompatible = true)
      (hmem : ∀ byte ∈ part.content, byte < 0x80) : False := by
    rcases hencoding with hencoding | ⟨hascii, -⟩
    · refine hpart hrange (hencoding ▸ hbinary) (Encoding.scan_range_eq_asciiOnly_iff.mpr ⟨?_, ?_⟩)
      · rw [hencoding]
        exact hc
      · exact Bytes.isAscii_iff.mpr hmem
    · rw [hrange] at hascii
      cases hascii
  rcases joinedTags_cases left right with hbroken | ⟨hcombine, hencodingl, hencodingr⟩
  · rw [hvalid] at hbroken
    cases hbroken
  · have hone : left.range = .valid ∨ right.range = .valid := by
      rw [hvalid] at hcombine
      revert hcombine
      cases left.range <;> cases right.range <;> simp [CodeRange.combine]
    rcases hone with hrange | hrange
    · exact side hl hrange hencodingl fun byte hmem => hall byte (List.mem_append_left _ hmem)
    · exact side hr hrange hencodingr fun byte hmem => hall byte (List.mem_append_right _ hmem)

end ProperlyValid

theorem passes_properlyValid : Made.Passes Deed.Derived ProperlyValid where
  scanned _ h := by
    cases h with
    | leaf _ hkind => exact .of_scanned hkind
  claimed h := h.elim
  counted h := h.elim
  concatenated _ _ _ hl hr _ _ hjoined := hl.joined hr hjoined
  sliced {rope _ slice offset _ len} _ _ _ _ _ _ _ hshows hshown := by
    cases hshown with
    | view =>
      by_cases hascii : rope.range = .asciiOnly
      · rw [stretchTags_of_ascii hascii]
        exact nofun
      · rw [stretchTags_of_ne hascii, ← hshows]
        exact .of_scanned rfl
  emptied _ _ _ h := by
    cases h with
    | leaf _ hkind => exact .of_scanned hkind
  transitioned _ _ _ h := by
    cases h with
    | sevenBit _ _ hretagged =>
      intro hvalid
      rw [hretagged.range_eq] at hvalid
      cases hvalid
    | binary _ hretagged => exact fun _ hbinary => absurd hretagged.encoding_eq hbinary
  resolved {rope rope'} _ _ _ _ h := by
    have hscanned : rope'.scanned = rope.scanned := by
      rw [scanned, h.encoding_eq, h.content_eq, scanned]
    exact .of_scanned (h.range_eq.trans (congrArg ScanResult.range hscanned).symm)
  leafed _ _ hs hleafed := by
    have hcontent := hleafed.content_eq
    cases hleafed with
    | same => exact hs
    | copied _ hkind => exact hs.of_eq (congrArg (Tags.mk _ · _) hkind) hcontent
    | scanned _ _ hscanned =>
      cases hscanned with
      | leaf _ hkind => exact .of_scanned hkind
  rebuilt _ _ _ _ hs _ _ h := hs.of_eq h.tags_eq h.content_eq
  joined h := h.elim
  shown h := h.elim

/-- Tags that are known and not exact are those of a rope that was marked broken as a precaution, or
of ASCII octets that became octets of ASCII-8BIT as valid content. -/
theorem SoundTags.exact_cases (h : rope.SoundTags) (hwf : rope.WF) (hproper : rope.ProperlyValid)
    (hresolved : rope.range.isResolved = true) :
    rope.Exact ∨ rope.range = .broken ∨
      rope.range = .valid ∧ rope.encoding = .binary ∧ rope.scanned.range = .asciiOnly ∧
        rope.charLen = rope.scanned.charLen := by
  cases hrange : rope.range with
  | unknown =>
    rw [hrange] at hresolved
    cases hresolved
  | broken => exact .inr (.inl rfl)
  | asciiOnly =>
    obtain ⟨hc, hbytes, -⟩ := h.ascii hrange
    have hscanned : rope.scanned = ⟨.asciiOnly, rope.charLen⟩ := by
      rw [scanned, Encoding.scan_of_isAscii hc (Bytes.isAscii_iff.mpr hbytes),
        hwf.charLen_eq hrange, ← hwf.length_content]
      rfl
    exact .inl ⟨by rw [hrange, hscanned], by rw [hscanned]⟩
  | valid =>
    obtain ⟨hbroken, hchars⟩ := h.valid hrange
    by_cases hascii : rope.scanned.range = .asciiOnly
    · by_cases hbinary : rope.encoding = .binary
      · exact .inr (.inr ⟨rfl, hbinary, hascii, hchars⟩)
      · exact absurd hascii (hproper hrange hbinary)
    · refine .inl ⟨?_, hchars⟩
      have hunknown := Encoding.scan_range_ne_unknown rope.encoding rope.content.toArray
      rw [hrange]
      change rope.scanned.range ≠ .unknown at hunknown
      revert hbroken hascii hunknown
      cases rope.scanned.range <;> simp

/-! ## Slices -/

/-- The slice is this node, which is there already: the smallest node that covers the range is all
of the range, under the encoding of the rope and with a range that is known. -/
structure Reuses (rope : Rope) (offset len : Nat) (node : Rope) : Prop where
  len_ne : len ≠ 0
  proper : ¬(offset = 0 ∧ len = rope.byteLen)
  covering_eq : rope.covering len offset = .ok (node, 0)
  byteLen_eq : node.byteLen = len
  encoding_eq : node.encoding = rope.encoding
  isResolved : node.range.isResolved = true

/-- A slice of a part of a rope: an empty leaf, a node that is there already, or a new view with the
tags of the stretch. -/
inductive Cut (rope : Rope) (offset len : Nat) : Rope → Prop
  | empty {slice : Rope} : len = 0 → Scanned rope.encoding #[] slice → Cut rope offset len slice
  | node {node : Rope} : rope.Reuses offset len node → Cut rope offset len node
  | view {slice : Rope} : len ≠ 0 → (∀ node, ¬rope.Reuses offset len node) →
    slice.tags = rope.stretchTags offset len → Cut rope offset len slice

theorem Reuses.eq (h : rope.Reuses offset len node) (h' : rope.Reuses offset len rope') :
    rope' = node := by
  have heq := h.covering_eq.symm.trans h'.covering_eq
  cases heq
  rfl

theorem Reuses.within (h : rope.Reuses offset len node) (hwf : rope.WF)
    (hr : offset + len ≤ rope.byteLen) : node.Within rope := by
  obtain ⟨target, start, hok, hwithin, -⟩ := Rope.covering_eq hwf hr
  rw [h.covering_eq] at hok
  cases hok
  exact hwithin

/-- What a slice is made of tells how it got its tags. -/
theorem Anchored.cut {store : Store} (h : Anchored rope offset len store slice) (hwf : rope.WF)
    (hr : offset + len ≤ rope.byteLen) (hproper : ¬(offset = 0 ∧ len = rope.byteLen)) :
    Cut rope offset len slice := by
  cases h with
  | whole hwhole => exact absurd hwhole hproper
  | empty _ hzero _ hscanned => exact .empty hzero hscanned
  | node _ hlen _ hsmallest hserves =>
    obtain ⟨target, start, hok, hsmallest'⟩ := covering_smallest hwf hr hlen
    obtain ⟨rfl, rfl⟩ := hsmallest.unique hsmallest'
    obtain ⟨-, hbytes, hencoding, hresolved⟩ := hserves
    exact .node ⟨hlen, hproper, hok, hbytes.symm, hencoding, hresolved⟩
  | view _ hlen _ hsmallest hserves =>
    refine .view hlen (fun node hnode => hserves ?_) rfl
    obtain ⟨target, start, hok, hsmallest'⟩ := covering_smallest hwf hr hlen
    obtain ⟨rfl, rfl⟩ := hsmallest.unique hsmallest'
    cases hok.symm.trans hnode.covering_eq
    exact ⟨rfl, hnode.byteLen_eq.symm, hnode.encoding_eq, hnode.isResolved⟩

theorem wf_slice_cut (h : c.live rope) (hr : offset + len ≤ rope.byteLen)
    (hproper : ¬(offset = 0 ∧ len = rope.byteLen)) :
    RopeM.WF c (rope.slice offset len) (fun slice _ => Cut rope offset len slice)
      fun _ => False := by
  obtain ⟨slice, store, hrun, hanchored⟩ := slice_anchored h hr
  obtain ⟨c', hstore, hle, -⟩ := (wf_slice h).of_run hrun
  rw [RopeM.WF, hrun]
  exact ⟨c', hstore, hle, hanchored.cut (c.wf h) hr hproper⟩

/-- The tags that a slice gets without a scan are those that a scan would find. -/
theorem SoundTags.stretchTags_eq (h : rope.SoundTags) (hwf : rope.WF)
    (hr : offset + len ≤ rope.byteLen) :
    rope.stretchTags offset len = ⟨rope.encoding,
      (rope.encoding.scan (rope.stretch offset len).toArray).range,
      (rope.encoding.scan (rope.stretch offset len).toArray).charLen⟩ := by
  by_cases hascii : rope.range = .asciiOnly
  · obtain ⟨hc, hbytes, -⟩ := h.ascii hascii
    have hstretch : Bytes.isAscii (rope.stretch offset len).toArray = true :=
      Bytes.isAscii_iff.mpr fun byte hmem =>
        hbytes byte (List.mem_of_mem_drop (List.mem_of_mem_take hmem))
    rw [stretchTags_of_ascii hascii, Encoding.scan_of_isAscii hc hstretch]
    exact congrArg (Tags.mk rope.encoding .asciiOnly) (hwf.length_stretch hr).symm
  · exact stretchTags_of_ne hascii offset len

/-- The tags of a slice are exact, unless the slice is a node that is there already and whose tags
are not. -/
theorem Cut.exact_iff (h : Cut rope offset len slice) (hs : Sliced rope offset len slice)
    (hsound : rope.SoundTags) (hwf : rope.WF) (hr : offset + len ≤ rope.byteLen) :
    slice.Exact ↔ ∀ node, rope.Reuses offset len node → node.Exact := by
  have hscanned : slice.scanned = rope.encoding.scan (rope.stretch offset len).toArray := by
    rw [scanned, hs.encoding_eq, hs.content_eq hwf]
  cases h with
  | empty hzero hempty =>
    exact iff_of_true hempty.exact fun node hnode => absurd hzero hnode.len_ne
  | node hreuse => exact ⟨fun hexact node hnode => hreuse.eq hnode ▸ hexact, fun h => h _ hreuse⟩
  | view hlen hnone htags =>
    rw [hsound.stretchTags_eq hwf hr] at htags
    refine iff_of_true ⟨?_, ?_⟩ fun node hnode => absurd hnode (hnone node)
    · rw [hscanned]
      exact congrArg Tags.range htags
    · rw [hscanned]
      exact congrArg Tags.charLen htags

end Rope

end ByteRope
