import ByteRope.Proofs.Rope.Characters
import ByteRope.Proofs.Scanner.Lossy

/-!
# What resolving keeps

Resolving leaves a rope of a good range as it is, and one that says what a scan finds. In place of
every other rope it puts a new root, which differs from the old one in nothing but its name and its
tags (`Rope.Alike`), and the only change to the cells of the store is one more for it. What comes of
it says what a scan finds (`Rope.Accurate`), so resolving again changes nothing.
-/

namespace ByteRope.Rope

open RopeM

variable {c : Census} {rope new : Rope} {tags : Tags} {store store' : Store}

/-! ## The shape of a rope -/

/-- The two ropes differ at most in the name and the tags of the root. -/
inductive Alike : Rope → Rope → Prop
  | leaf {id id' : NodeId} {kind kind' : LeafKind} {encoding encoding' : Encoding}
    {charLen charLen' : Nat} {bytes : Bytes} :
    Alike (.leaf id kind encoding charLen bytes) (.leaf id' kind' encoding' charLen' bytes)
  | join {id id' : NodeId} {tags tags' : Tags} {byteLen depth : Nat} {balanced : Bool}
    {left right : Rope} :
    Alike (.join id tags byteLen depth balanced left right)
      (.join id' tags' byteLen depth balanced left right)
  | view {id id' : NodeId} {tags tags' : Tags} {byteLen depth offset : Nat} {child : Rope} :
    Alike (.view id tags byteLen depth offset child) (.view id' tags' byteLen depth offset child)

theorem Alike.refl (rope : Rope) : Alike rope rope := by
  cases rope
  exacts [.leaf, .join, .view]

theorem Retagged.alike (h : Retagged tags rope new) : Alike rope new := by
  cases h
  exacts [.leaf, .join, .view]

theorem Alike.content_eq (h : Alike rope new) : new.content = rope.content := by
  cases h <;> rfl

theorem Alike.depth_eq (h : Alike rope new) : new.depth = rope.depth := by
  cases h <;> rfl

theorem Alike.isBalanced_eq (h : Alike rope new) : new.isBalanced = rope.isBalanced := by
  cases h <;> rfl

theorem Alike.children_eq (h : Alike rope new) : new.children = rope.children := by
  cases h <;> rfl

/-! ## How resolving ends -/

/-- The rope has nothing that resolving would change. -/
def Accurate (rope : Rope) : Prop :=
  rope.range.isGood = true ∨ rope.scanned = ⟨rope.range, rope.charLen⟩

namespace Resolution

theorem alike (h : Resolution rope store new store') : Alike rope new := by
  cases h with
  | good | right => exact .refl rope
  | retagged _ _ hretagged => exact hretagged.alike

theorem encoding_eq (h : Resolution rope store new store') : new.encoding = rope.encoding := by
  cases h with
  | good | right => rfl
  | retagged _ _ hretagged => exact hretagged.encoding_eq

theorem scanned_eq (h : Resolution rope store new store') : new.scanned = rope.scanned := by
  rw [scanned, scanned, h.encoding_eq, h.alike.content_eq]

theorem eq_of_good (h : Resolution rope store new store') (hgood : rope.range.isGood = true) :
    new = rope := by
  cases h with
  | good | right => rfl
  | retagged hbad =>
    rw [hgood] at hbad
    cases hbad

theorem tags_of_bad (h : Resolution rope store new store') (hbad : rope.range.isGood = false) :
    new.range = rope.scanned.range ∧ new.charLen = rope.scanned.charLen := by
  cases h with
  | good hgood =>
    rw [hgood] at hbad
    cases hbad
  | right _ hscanned =>
    rw [hscanned]
    exact ⟨rfl, rfl⟩
  | retagged _ _ hretagged => exact ⟨hretagged.range_eq, hretagged.charLen_eq⟩

/-- What resolving has made is accurate. -/
theorem accurate (h : Resolution rope store new store') : new.Accurate := by
  cases hrange : rope.range.isGood with
  | true =>
    rw [h.eq_of_good hrange]
    exact .inl hrange
  | false =>
    obtain ⟨hnew, hchars⟩ := h.tags_of_bad hrange
    rw [Accurate, h.scanned_eq, hnew, hchars]
    exact .inr rfl

/-- The cells of all nodes that there were stay as they are. -/
theorem cell_eq (h : Resolution rope store new store') {id : NodeId}
    (hid : id < store.cells.size) : store'.cell id = store.cell id := by
  cases h with
  | good | right => rfl
  | retagged =>
    have hne : id ≠ (store.record rope.resolvedEvent).cells.size := Nat.ne_of_lt hid
    rw [Store.cell_allocate, if_neg hne]
    rfl

/-- The new root starts with the buffer of the old one. -/
theorem raw?_eq (h : Resolution rope store new store') : store'.raw? new = store.raw? rope := by
  cases h with
  | good | right => rfl
  | retagged _ _ hretagged hid => exact hretagged.raw?_eq hid

end Resolution

/-- An accurate rope is left as it is. -/
theorem resolve_of_accurate (h : c.live rope) (haccurate : rope.Accurate) :
    rope.resolve.outcome c.store = .ok rope := by
  obtain ⟨new, c', -, -, hrun, hresolution⟩ := exists_resolution h
  generalize c'.store = store' at hrun hresolution
  have hnew : new = rope := by
    cases hresolution with
    | good | right => rfl
    | retagged hbad hwrong =>
      rcases haccurate with hgood | hright
      · rw [hbad] at hgood
        cases hgood
      · exact absurd hright hwrong
  rw [outcome, hrun, hnew]

/-! ## Characters -/

theorem Resolution.charLen_eq (h : Resolution rope store new store') (hsound : rope.SoundTags)
    (hwf : rope.WF) : new.charLen = rope.scanned.charLen := by
  cases hrange : rope.range.isGood with
  | true =>
    rw [h.eq_of_good hrange]
    exact hsound.charLen_eq hwf hrange
  | false => exact (h.tags_of_bad hrange).2

theorem charLen_scanned_utf8 (h : rope.encoding = .utf8) :
    rope.scanned.charLen = (Text.decodeLossy rope.content).length := by
  obtain ⟨segments, hsegments⟩ := Utf8.exists_segmented rope.content
  have hchars : (Encoding.utf8.scan rope.content.toArray).charLen = segments.length :=
    Encoding.charLen_scan_utf8 hsegments
  rw [scanned, h, hchars, hsegments.decodeLossy_eq, List.length_map]

/-- The lossy text shows the content, and can be had if the content fits a buffer. -/
theorem wf_toLossyText (h : c.live rope) :
    RopeM.WF c rope.toLossyText
      (fun text _ => text = String.ofList (Text.decodeLossy rope.content))
      (Overlong rope.byteLen) := by
  refine (wf_flatten h).bind fun bytes c' _ hbytes => WF.pure ?_
  rw [hbytes.1]

end ByteRope.Rope
