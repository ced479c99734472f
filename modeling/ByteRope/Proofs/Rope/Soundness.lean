import ByteRope.Proofs.Rope.Made
import ByteRope.Proofs.Scanner.Prefix

/-!
# Sound tags

The good ranges say the truth as long as no caller gives tags to joins or views: ASCII-only content
is ASCII under an encoding that allows it, valid content is well formed, and in both cases the
number of characters is that of a scan (`Rope.Made.soundTags`). Every node is made with tags for
which nobody looks at its octets, but each maker hands on what its operands say in a way that
`Encoding.scan_append` bears out.
-/

namespace ByteRope.Rope

variable {may : Deed → Prop} {rope rope' left right : Rope} {encoding : Encoding}

/-- What the good ranges say of the content is so. -/
structure SoundTags (rope : Rope) : Prop where
  ascii : rope.range = .asciiOnly → rope.encoding.isAsciiCompatible = true ∧
    (∀ byte ∈ rope.content, byte < 0x80) ∧ rope.charLen = rope.byteLen
  valid : rope.range = .valid →
    rope.scanned.range ≠ .broken ∧ rope.charLen = rope.scanned.charLen

namespace SoundTags

/-- Tags that a scan finds are sound. -/
theorem of_scanned (hwf : rope.WF) (hrange : rope.range = rope.scanned.range)
    (hchars : rope.charLen = rope.scanned.charLen) : SoundTags rope := by
  refine ⟨fun hascii => ?_, fun hvalid => ⟨?_, hchars⟩⟩
  · obtain ⟨hc, hbytes⟩ := Encoding.scan_range_eq_asciiOnly_iff.mp (hrange ▸ hascii)
    exact ⟨hc, Bytes.isAscii_iff.mp hbytes, hwf.charLen_eq hascii⟩
  · rw [← hrange, hvalid]
    nofun

/-- Sound tags stay sound on another tree of the same content. -/
theorem of_eq (h : SoundTags rope) (htags : rope'.tags = rope.tags)
    (hcontent : rope'.content = rope.content) (hwf : rope.WF) (hwf' : rope'.WF) :
    SoundTags rope' := by
  have hlen := hwf.byteLen_eq hwf' hcontent
  have hencoding : rope'.encoding = rope.encoding := congrArg Tags.encoding htags
  have hrange : rope'.range = rope.range := congrArg Tags.range htags
  have hchars : rope'.charLen = rope.charLen := congrArg Tags.charLen htags
  have hscanned : rope'.scanned = rope.scanned := by rw [scanned, hencoding, hcontent, scanned]
  constructor
  · rw [hrange, hencoding, hcontent, hchars, hlen]
    exact h.ascii
  · rw [hrange, hscanned, hchars]
    exact h.valid

/-- A rope of a good range is scanned well under the encoding that a join takes from it, or that an
ASCII-only rope gets from its neighbour. -/
theorem scan_under (h : SoundTags rope) (hwf : rope.WF) (hgood : rope.range.isGood = true)
    (hencoding : rope.encoding = encoding ∨
      rope.range = .asciiOnly ∧ encoding.isAsciiCompatible = true) :
    (encoding.scan rope.content.toArray).range ≠ .broken ∧
      (encoding.scan rope.content.toArray).charLen = rope.charLen := by
  have hascii (ha : rope.range = .asciiOnly) (hc : encoding.isAsciiCompatible = true) :
      encoding.scan rope.content.toArray = ⟨.asciiOnly, rope.charLen⟩ := by
    obtain ⟨-, hbytes, hchars⟩ := h.ascii ha
    rw [Encoding.scan_of_isAscii hc (Bytes.isAscii_iff.mpr hbytes), hchars, ← hwf.length_content]
    rfl
  rcases hencoding with rfl | ⟨ha, hc⟩
  · cases hrange : rope.range with
    | unknown | broken => rw [hrange] at hgood; cases hgood
    | asciiOnly =>
      rw [hascii hrange (h.ascii hrange).1]
      exact ⟨nofun, rfl⟩
    | valid =>
      obtain ⟨hbroken, hchars⟩ := h.valid hrange
      exact ⟨hbroken, hchars.symm⟩
  · rw [hascii ha hc]
    exact ⟨nofun, rfl⟩

end SoundTags

/-- The encoding that a join gets suits both of its sides, unless it is broken. -/
theorem joinedTags_cases (left right : Rope) : (joinedTags left right).2 = .broken ∨
    (joinedTags left right).2 = left.range.combine right.range ∧
      (left.encoding = (joinedTags left right).1 ∨
        left.range = .asciiOnly ∧ (joinedTags left right).1.isAsciiCompatible = true) ∧
      (right.encoding = (joinedTags left right).1 ∨
        right.range = .asciiOnly ∧ (joinedTags left right).1.isAsciiCompatible = true) := by
  unfold joinedTags
  split
  next encoding hcompatible =>
    refine .inr ⟨rfl, ?_⟩
    unfold Encoding.compatible at hcompatible
    grind
  next => exact .inl rfl

namespace SoundTags

theorem joined {balanced : Bool} (hl : SoundTags left) (hr : SoundTags right) (hlwf : left.WF)
    (hrwf : right.WF)
    (h : Joined left right (joinedTags left right).1 (joinedTags left right).2 balanced rope) :
    SoundTags rope := by
  have hwf := h.wf hlwf hrwf
  cases h with
  | join =>
    constructor
    · intro (hascii : (joinedTags left right).2 = .asciiOnly)
      obtain ⟨hal, har⟩ := asciiOnly_of_joinedTags hascii
      obtain ⟨hcl, hbl, -⟩ := hl.ascii hal
      obtain ⟨hcr, hbr, -⟩ := hr.ascii har
      refine ⟨?_, fun byte hmem => (List.mem_append.mp hmem).elim (hbl byte) (hbr byte),
        hwf.charLen_eq hascii⟩
      rcases joinedTags_cases left right with hbroken | ⟨-, hencoding | hencoding, -⟩
      · rw [hascii] at hbroken
        cases hbroken
      · exact hencoding ▸ hcl
      · exact hencoding.2
    · intro (hvalid : (joinedTags left right).2 = .valid)
      rcases joinedTags_cases left right with hbroken | ⟨hrange, hencodingl, hencodingr⟩
      · rw [hvalid] at hbroken
        cases hbroken
      have hgood : left.range.isGood = true ∧ right.range.isGood = true := by
        rw [hvalid] at hrange
        revert hrange
        cases left.range <;> cases right.range <;> simp [CodeRange.combine, CodeRange.isGood]
      obtain ⟨hbl, hcl⟩ := hl.scan_under hlwf hgood.1 hencodingl
      obtain ⟨hbr, hcr⟩ := hr.scan_under hrwf hgood.2 hencodingr
      have hscan := Encoding.scan_append right.content.toArray hbl
      rw [List.append_toArray] at hscan
      constructor
      · intro (hbroken : (Encoding.scan (joinedTags left right).1
          (left.content ++ right.content).toArray).range = .broken)
        rw [hscan] at hbroken
        revert hbroken hbl hbr
        cases (Encoding.scan (joinedTags left right).1 left.content.toArray).range <;>
          cases (Encoding.scan (joinedTags left right).1 right.content.toArray).range <;>
          simp [CodeRange.combine]
      · change left.charLen + right.charLen = (Encoding.scan (joinedTags left right).1
          (left.content ++ right.content).toArray).charLen
        rw [hscan, hcl, hcr]

theorem shown {child slice : Rope} {offset start len : Nat} (h : SoundTags rope)
    (hchild : child.WF) (hshows : child.stretch start len = rope.stretch offset len)
    (hshown : Shown child (rope.stretchTags offset len) start len slice) : SoundTags slice := by
  have hslice := hshown.wf hchild
  cases hshown with
  | view =>
    by_cases hascii : rope.range = .asciiOnly
    · rw [stretchTags_of_ascii hascii] at hslice ⊢
      obtain ⟨hc, hbytes, -⟩ := h.ascii hascii
      refine ⟨fun _ => ⟨hc, fun byte hmem => ?_, rfl⟩, nofun⟩
      have hmem : byte ∈ rope.stretch offset len := hshows ▸ hmem
      exact hbytes byte (List.mem_of_mem_drop (List.mem_of_mem_take hmem))
    · rw [stretchTags_of_ne hascii, ← hshows] at hslice ⊢
      exact of_scanned hslice rfl rfl

theorem transitioned (h : SoundTags rope) (hwf : rope.WF)
    (htransitioned : Transitioned rope rope') :
    SoundTags rope' := by
  obtain ⟨_, hretagged⟩ := htransitioned.retagged
  have hwf' := hretagged.wf hwf
  cases htransitioned with
  | sevenBit hascii hc hretagged =>
    obtain ⟨-, hbytes, -⟩ := h.ascii hascii
    refine ⟨fun _ => ⟨?_, ?_, hwf'.charLen_eq hretagged.range_eq⟩, fun hvalid => ?_⟩
    · rw [hretagged.encoding_eq]
      exact hc
    · rw [hretagged.content_eq]
      exact hbytes
    · rw [hretagged.range_eq] at hvalid
      cases hvalid
  | binary hvalid hretagged =>
    have hscan : rope'.scanned.range ≠ .broken ∧ rope'.scanned.charLen = rope'.content.length := by
      rw [scanned, hretagged.encoding_eq]
      simp only [Encoding.scan, Scanner.new, Scanner.feed, Scanner.finish]
      refine ⟨?_, Nat.zero_add _⟩
      split <;> simp
    refine ⟨fun hascii => ?_, fun _ => ⟨hscan.1, ?_⟩⟩
    · rw [hretagged.range_eq] at hascii
      cases hascii
    · rw [hscan.2, hwf'.length_content, hretagged.byteLen_eq, hretagged.charLen_eq]

theorem leafed {leaf : Rope} (h : SoundTags rope) (hwf : rope.WF) (hleafed : Leafed rope leaf) :
    SoundTags leaf := by
  have hleaf := hleafed.wf hwf
  have hcontent := hleafed.content_eq
  cases hleafed with
  | same => exact h
  | copied _ hkind => exact h.of_eq (congrArg (Tags.mk _ · _) hkind) hcontent hwf hleaf
  | scanned _ _ hscanned =>
    cases hscanned with
    | leaf _ hkind => exact of_scanned hleaf hkind rfl

end SoundTags

/-- Sound tags are handed on as long as no caller gives tags to joins or views. -/
theorem passes_soundTags (hmay : ¬may .tag) : Made.Passes may SoundTags where
  scanned _ h := by
    have hwf := h.wf
    cases h with
    | leaf _ hkind => exact .of_scanned hwf hkind rfl
  claimed _ h := by
    have hwf := h.wf
    cases h with
    | asciiOnly _ hascii =>
      obtain ⟨hc, hbytes⟩ := (Bool.and_eq_true ..).mp hascii
      exact ⟨fun _ => ⟨hc, Bytes.isAscii_iff.mp hbytes, rfl⟩, nofun⟩
    | valid _ hbroken => exact ⟨nofun, fun _ => ⟨hbroken, rfl⟩⟩
  counted _ h := by
    cases h with
    | leaf => exact ⟨nofun, nofun⟩
  concatenated _ hl hr hsl hsr _ _ hjoined := hsl.joined hsr hl.wf hr.wf hjoined
  sliced _ hrope hs _ _ _ hwithin hshows hshown :=
    hs.shown (hrope.wf.of_within hwithin) hshows hshown
  emptied _ _ _ h := by
    have hwf := h.wf
    cases h with
    | leaf _ hkind => exact .of_scanned hwf hkind rfl
  transitioned _ hrope hs h := hs.transitioned hrope.wf h
  resolved {rope rope'} _ hrope _ _ h := by
    have hscanned : rope'.scanned = rope.scanned := by
      rw [scanned, h.encoding_eq, h.content_eq, scanned]
    refine .of_scanned (h.wf hrope.wf) ?_ ?_ <;> rw [hscanned]
    · exact h.range_eq
    · exact h.charLen_eq
  leafed _ hrope hs h := hs.leafed hrope.wf h
  rebuilt _ hrope hl hr hs _ _ h :=
    hs.of_eq h.tags_eq h.content_eq hrope.wf (h.wf hrope.wf hl.wf hr.wf)
  joined h := absurd h hmay
  shown h := absurd h hmay

end ByteRope.Rope
