import ByteRope.Size
import ByteRope.Rope.Basic

/-!
# Well-formed ropes

A rope is well formed if what its nodes state of lengths and depths is true of the tree: then its
byte length is the length of its content (`Rope.WF.length_content`), and a stretch of it is made up
of stretches of its children (`Rope.stretch_join`, `Rope.stretch_view`).
-/

namespace ByteRope.Rope

/-- The ropes right under the root. -/
def children : Rope → List Rope
  | leaf .. => []
  | join _ _ _ _ _ left right => [left, right]
  | view _ _ _ _ _ child => [child]

/-- One of the nodes of a tree, with all that is under it. -/
inductive Within : Rope → Rope → Prop
  | refl {rope : Rope} : Within rope rope
  | child {node child rope : Rope} : child ∈ rope.children → Within node child → Within node rope

/-- What the nodes state of lengths and depths is true of the tree. -/
inductive WF : Rope → Prop
  | leaf {id : NodeId} {kind : LeafKind} {encoding : Encoding} {charLen : Nat} {bytes : Bytes} :
    bytes.size ≤ Size.maxBuffer → (kind.range = .asciiOnly → charLen = bytes.size) →
    WF (.leaf id kind encoding charLen bytes)
  | join {id : NodeId} {tags : Tags} {byteLen depth : Nat} {balanced : Bool} {left right : Rope} :
    left.WF → right.WF → byteLen = left.byteLen + right.byteLen → byteLen ≤ Size.max →
    depth = max left.depth right.depth + 1 → (tags.range = .asciiOnly → tags.charLen = byteLen) →
    WF (.join id tags byteLen depth balanced left right)
  | view {id : NodeId} {tags : Tags} {byteLen depth offset : Nat} {child : Rope} :
    child.WF → offset + byteLen ≤ child.byteLen → depth = child.depth + 1 →
    (tags.range = .asciiOnly → tags.charLen = byteLen) →
    WF (.view id tags byteLen depth offset child)

/-- The buffer holds the content, and is no longer than a buffer can be. -/
def HeldBy (rope : Rope) (bytes : Bytes) : Prop :=
  bytes.toList = rope.content ∧ bytes.size ≤ Size.maxBuffer

variable {rope node child : Rope}

/-! ## Trees -/

theorem Within.trans {outer : Rope} (h : node.Within rope) (h' : rope.Within outer) :
    node.Within outer := by
  induction h' with
  | refl => exact h
  | child hc _ ih => exact .child hc ih

theorem Within.of_child (h : child ∈ rope.children) : child.Within rope := .child h .refl

theorem Within.cases (h : node.Within rope) :
    node = rope ∨ ∃ child ∈ rope.children, node.Within child := by
  cases h with
  | refl => exact .inl rfl
  | child hc hn => exact .inr ⟨_, hc, hn⟩

theorem WF.of_child (h : rope.WF) (hc : child ∈ rope.children) : child.WF := by
  cases h with
  | leaf => cases hc
  | join hl hr =>
    simp only [children, List.mem_cons, List.not_mem_nil, or_false] at hc
    rcases hc with rfl | rfl
    · exact hl
    · exact hr
  | view hchild =>
    simp only [children, List.mem_cons, List.not_mem_nil, or_false] at hc
    exact hc ▸ hchild

theorem WF.of_within (h : rope.WF) (hn : node.Within rope) : node.WF := by
  induction hn with
  | refl => exact h
  | child hc _ ih => exact ih (h.of_child hc)

/-! ## Lengths -/

theorem WF.length_content (h : rope.WF) : rope.content.length = rope.byteLen := by
  induction h with
  | leaf => exact Array.length_toList
  | join _ _ hlen _ _ _ ihl ihr => rw [content, List.length_append, ihl, ihr, byteLen, hlen]
  | view _ hrange _ _ ih =>
    rw [content, List.length_take, List.length_drop, ih, byteLen]
    omega

theorem WF.byteLen_le (h : rope.WF) : rope.byteLen ≤ Size.max := by
  induction h with
  | leaf hsize => exact Nat.le_trans hsize (by decide)
  | join _ _ _ hmax => exact hmax
  | view _ hrange _ _ ih => exact Nat.le_trans (Nat.le_trans (Nat.le_add_left ..) hrange) ih

/-- Ropes of the same content are equally long. -/
theorem WF.byteLen_eq (h : rope.WF) {rope' : Rope} (h' : rope'.WF)
    (hcontent : rope'.content = rope.content) : rope'.byteLen = rope.byteLen := by
  rw [← h.length_content, ← h'.length_content, hcontent]

theorem WF.charLen_eq (h : rope.WF) (ha : rope.range = .asciiOnly) :
    rope.charLen = rope.byteLen := by
  cases h with
  | leaf _ hlen => exact hlen ha
  | join _ _ _ _ _ hlen => exact hlen ha
  | view _ _ _ hlen => exact hlen ha

theorem isEmpty_iff : rope.isEmpty = true ↔ rope.byteLen = 0 := decide_eq_true_iff

theorem WF.isEmpty_iff_content (h : rope.WF) : rope.isEmpty = true ↔ rope.content = [] := by
  rw [isEmpty_iff, ← h.length_content, List.length_eq_zero_iff]

theorem WF.size_of_heldBy (h : rope.WF) {bytes : Bytes} (hb : rope.HeldBy bytes) :
    bytes.size = rope.byteLen := by
  rw [← h.length_content, ← hb.1, Array.length_toList]

/-! ## Stretches -/

/-- The octets of a stretch of the content. -/
def stretch (rope : Rope) (offset len : Nat) : List UInt8 := (rope.content.drop offset).take len

theorem WF.length_stretch (h : rope.WF) {offset len : Nat} (hr : offset + len ≤ rope.byteLen) :
    (rope.stretch offset len).length = len := by
  rw [stretch, List.length_take, List.length_drop, h.length_content]
  omega

theorem WF.stretch_all (h : rope.WF) : rope.stretch 0 rope.byteLen = rope.content := by
  rw [stretch, List.drop_zero, ← h.length_content, List.take_length]

theorem stretch_zero (rope : Rope) (offset : Nat) : rope.stretch offset 0 = [] := by
  rw [stretch, List.take_zero]

/-- A stretch of a join is a stretch of its left side and one of its right side. -/
theorem stretch_join {id : NodeId} {tags : Tags} {byteLen depth : Nat} {balanced : Bool}
    {left right : Rope} (hl : left.WF) {offset len : Nat} :
    (join id tags byteLen depth balanced left right).stretch offset len =
      left.stretch offset (min left.byteLen (offset + len) - offset) ++
        right.stretch (max offset left.byteLen - left.byteLen)
          (offset + len - max offset left.byteLen) := by
  have hc := hl.length_content
  simp only [stretch, content, List.drop_append, List.take_append, List.length_drop, hc]
  congr 1
  · rw [List.take_eq_take_iff, List.length_drop, hc]
    omega
  · have ho : max offset left.byteLen - left.byteLen = offset - left.byteLen := by omega
    have hn : offset + len - max offset left.byteLen = len - (left.byteLen - offset) := by omega
    rw [ho, hn]

section

variable {id : NodeId} {tags : Tags} {byteLen depth : Nat} {balanced : Bool} {left right : Rope}
  {offset len : Nat}

theorem stretch_join_left (hl : left.WF) (h : offset + len ≤ left.byteLen) :
    (join id tags byteLen depth balanced left right).stretch offset len =
      left.stretch offset len := by
  have hlen : min left.byteLen (offset + len) - offset = len := by omega
  have hnone : offset + len - max offset left.byteLen = 0 := by omega
  rw [stretch_join hl, hlen, hnone, stretch_zero, List.append_nil]

theorem stretch_join_right (hl : left.WF) (h : left.byteLen ≤ offset) :
    (join id tags byteLen depth balanced left right).stretch offset len =
      right.stretch (offset - left.byteLen) len := by
  have hnone : min left.byteLen (offset + len) - offset = 0 := by omega
  have hstart : max offset left.byteLen - left.byteLen = offset - left.byteLen := by omega
  have hlen : offset + len - max offset left.byteLen = len := by omega
  rw [stretch_join hl, hnone, stretch_zero, List.nil_append, hstart, hlen]

end

/-- A stretch of what shows a stretch is a stretch of what is shown. -/
theorem stretch_of_content_eq {slice : Rope} {start len offset len' : Nat}
    (h : slice.content = rope.stretch start len) (hr : offset + len' ≤ len) :
    slice.stretch offset len' = rope.stretch (start + offset) len' := by
  simp only [stretch, h, List.drop_take, List.take_take, List.drop_drop]
  congr 1
  omega

/-- A stretch of a view is a stretch of what it shows. -/
theorem stretch_view {id : NodeId} {tags : Tags} {byteLen depth start : Nat}
    {offset len : Nat} (hr : offset + len ≤ byteLen) :
    (view id tags byteLen depth start child).stretch offset len =
      child.stretch (offset + start) len := by
  rw [Nat.add_comm]
  exact stretch_of_content_eq rfl hr

end ByteRope.Rope
