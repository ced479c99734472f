import ByteRope.Proofs.Rope.Slicing

/-!
# Where slices are anchored

A slice is the rope itself, an empty leaf, a node that is there already, or a new view of the
smallest node that covers the range (`Rope.slice_anchored`). So views do not pile up: a slice of a
rope is deeper than the rope by one at most, and a slice of a view is no deeper than the view
(`Rope.Anchored.depth_le_of_view`).
-/

namespace ByteRope.Rope

variable {c : Census} {rope node child target slice : Rope} {tags : Tags} {store : Store}
  {offset len start : Nat}

/-- The range is all of the rope. -/
def IsWhole (rope : Rope) (offset len : Nat) : Prop := offset = 0 ∧ len = rope.byteLen

/-- The node can stand for its range in a slice of the rope: it has no other octets, the encoding of
the rope, and a range that is known. -/
def Serves (rope node : Rope) (start len : Nat) : Prop :=
  start = 0 ∧ len = node.byteLen ∧ node.encoding = rope.encoding ∧ node.range.isResolved = true

/-- What a slice is made of. What is new has the name that the store gives out next. -/
inductive Anchored (rope : Rope) (offset len : Nat) (store : Store) : Rope → Prop
  | whole : rope.IsWhole offset len → Anchored rope offset len store rope
  | empty {slice : Rope} : ¬rope.IsWhole offset len → len = 0 → slice.id = store.cells.size →
    Scanned rope.encoding #[] slice → Anchored rope offset len store slice
  | node {node : Rope} : ¬rope.IsWhole offset len → len ≠ 0 → node.Within rope →
    Smallest len rope offset node 0 → rope.Serves node 0 len → Anchored rope offset len store node
  | view {target : Rope} {start : Nat} : ¬rope.IsWhole offset len → len ≠ 0 →
    target.Within rope → Smallest len rope offset target start → ¬rope.Serves target start len →
    Anchored rope offset len store
      (.view store.cells.size (rope.stretchTags offset len) len (target.depth + 1) start target)

/-! ## Depths -/

theorem WF.depth_lt_of_child (h : rope.WF) (hc : child ∈ rope.children) :
    child.depth < rope.depth := by
  cases h with
  | leaf => cases hc
  | join _ _ _ _ hdepth =>
    simp only [children, List.mem_cons, List.not_mem_nil, or_false] at hc
    rw [depth, hdepth]
    obtain rfl | rfl := hc
    · omega
    · omega
  | view _ _ hdepth =>
    simp only [children, List.mem_cons, List.not_mem_nil, or_false] at hc
    rw [depth, hdepth, hc]
    exact Nat.lt_succ_self _

theorem WF.depth_le_of_within (h : rope.WF) (hn : node.Within rope) : node.depth ≤ rope.depth := by
  induction hn with
  | refl => exact Nat.le_refl _
  | child hc _ ih => exact Nat.le_trans (ih (h.of_child hc)) (Nat.le_of_lt (h.depth_lt_of_child hc))

/-- What is under a view and no view is under its child. -/
theorem WF.depth_lt_of_view (h : rope.WF) (hview : rope.isView = true) (hn : node.Within rope)
    (hnode : node.isView = false) : node.depth < rope.depth := by
  obtain rfl | ⟨child, hc, hn⟩ := hn.cases
  · rw [hview] at hnode
    cases hnode
  · exact Nat.lt_of_le_of_lt ((h.of_child hc).depth_le_of_within hn) (h.depth_lt_of_child hc)

theorem Scanned.depth_eq {encoding : Encoding} {bytes : Bytes} (h : Scanned encoding bytes rope) :
    rope.depth = 0 := by
  cases h
  rfl

namespace Anchored

theorem depth_le (h : Anchored rope offset len store slice) (hwf : rope.WF) :
    slice.depth ≤ rope.depth + 1 := by
  cases h with
  | whole => exact Nat.le_succ _
  | empty _ _ _ hscanned => exact hscanned.depth_eq ▸ Nat.zero_le _
  | node _ _ hwithin => exact Nat.le_succ_of_le (hwf.depth_le_of_within hwithin)
  | view _ _ hwithin => exact Nat.succ_le_succ (hwf.depth_le_of_within hwithin)

theorem depth_le_of_view (h : Anchored rope offset len store slice) (hwf : rope.WF)
    (hview : rope.isView = true) : slice.depth ≤ rope.depth := by
  cases h with
  | whole => exact Nat.le_refl _
  | empty _ _ _ hscanned => exact hscanned.depth_eq ▸ Nat.zero_le _
  | node _ _ hwithin => exact hwf.depth_le_of_within hwithin
  | view _ _ hwithin hsmallest => exact hwf.depth_lt_of_view hview hwithin hsmallest.not_view

end Anchored

/-! ## Slicing -/

theorem empty_eq (encoding : Encoding) (store : Store) :
    ∃ slice, empty encoding store = .ok slice (store.allocate none).2 ∧
      slice.id = store.cells.size ∧ Scanned encoding #[] slice := by
  cases hkind : LeafKind.ofRange? (encoding.scan #[]).range with
  | none =>
    exact absurd (LeafKind.ofRange?_eq_none hkind) (Encoding.scan_range_ne_unknown encoding #[])
  | some kind =>
    have hrange := LeafKind.range_of_ofRange? hkind
    have hchars : (encoding.scan #[]).charLen = 0 :=
      Nat.le_zero.mp (Encoding.charLen_scan_le encoding #[])
    have hcheck : checkNode ⟨encoding, kind.range, (encoding.scan #[]).charLen⟩ 0 none = .ok () :=
      if_neg fun h => h.2 hchars.symm
    have hempty : empty encoding = newLeaf kind encoding (encoding.scan #[]).charLen #[] := by
      unfold empty ofBytes
      simp only [hkind]
    refine ⟨.leaf store.cells.size kind encoding (encoding.scan #[]).charLen #[], ?_, rfl,
      .leaf (Nat.zero_le _) hrange⟩
    rw [hempty]
    change ((liftM (checkNode _ 0 none) : RopeM Unit) >>= _) store = _
    rw [hcheck]
    rfl

theorem taggedView_eq (hr : offset + len ≤ child.byteLen)
    (hascii : tags.range = .asciiOnly → tags.charLen = len) (store : Store) :
    child.taggedView tags offset len store =
      .ok (.view store.cells.size tags len (child.depth + 1) offset child)
        (store.allocate none).2 := by
  have hcheck : checkNode tags len none = .ok () := by
    unfold checkNode
    rw [if_neg fun h => h.2 (hascii h.1).symm]
  unfold taggedView checkRange newView
  rw [if_pos hr, hcheck]
  rfl

theorem slice?_anchored (h : c.live rope) (hr : offset + len ≤ rope.byteLen) :
    ∃ slice store, rope.slice? offset len c.store = .ok (.ok slice) store ∧
      Anchored rope offset len c.store slice := by
  unfold slice? checkRange
  rw [if_pos hr]
  dsimp only
  by_cases hwhole : offset = 0 ∧ len = rope.byteLen
  · rw [if_pos hwhole]
    exact ⟨_, _, rfl, .whole hwhole⟩
  · rw [if_neg hwhole]
    by_cases hzero : len = 0
    · obtain ⟨slice, hempty, hid, hscanned⟩ := empty_eq rope.encoding c.store
      rw [if_pos hzero, RopeM.run_bind hempty]
      exact ⟨slice, _, rfl, .empty hwhole hzero hid hscanned⟩
    · obtain ⟨target, start, hok, hsmallest⟩ := covering_smallest (c.wf h) hr hzero
      have hwithin := hsmallest.covers.within
      rw [if_neg hzero, hok, RopeM.run_lift_bind]
      dsimp only
      by_cases hserves : start = 0 ∧ len = target.byteLen ∧ target.encoding = rope.encoding ∧
          target.range.isResolved = true
      · rw [if_pos hserves]
        obtain rfl := hserves.1
        exact ⟨_, _, rfl, .node hwhole hzero hwithin hsmallest hserves⟩
      · have hrange := (hsmallest.covers.shows (c.wf h)).1
        have hascii := charLen_stretchTags (c.wf h) hr
        rw [if_neg hserves, RopeM.run_bind (sliceTags_eq h hr),
          RopeM.run_bind (taggedView_eq hrange hascii c.store)]
        exact ⟨_, _, rfl, .view hwhole hzero hwithin hsmallest hserves⟩

/-- A slice is made of every range that the rope has. -/
theorem slice_anchored (h : c.live rope) (hr : offset + len ≤ rope.byteLen) :
    ∃ slice store, rope.slice offset len c.store = .ok slice store ∧
      Anchored rope offset len c.store slice := by
  obtain ⟨found, store, hrun, hanchored⟩ := slice?_anchored h hr
  refine ⟨found, store, ?_, hanchored⟩
  rw [slice, RopeM.insist, RopeM.run_bind hrun]
  rfl

end ByteRope.Rope
