import ByteRope.Proofs.Rope.Exactness
import ByteRope.Rope.Describe

/-!
# Slices of slices

What is a range of a slice is a range of the rope, and the ways down to it from both meet at the
node that the slice is anchored at (`Rope.Anchored.covers`). So a slice of a slice is anchored where
the slice of the rope is that shows the same octets (`Rope.Anchored.trans`), and two slices anchored
at one place differ in the names of their roots at most (`Rope.Anchored.resembles`). Nested ranges
come down to one range this way, however many they are (`Rope.exists_slices`).
-/

namespace ByteRope.Rope

variable {may : Deed → Prop} {c : Census} {rope other node target slice slice' : Rope}
  {store store' : Store} {ranges : List (Nat × Nat)} {offset len start begin inner len' : Nat}

/-! ## Ways down -/

namespace Covers

/-- A node that covers a range covers the ranges within it. -/
theorem narrow (h : Covers len rope offset node start) (hr : inner + len' ≤ len) :
    Covers len' rope (offset + inner) node (start + inner) := by
  induction h with
  | here hrange => exact .here (by omega)
  | left hleft _ ih => exact .left (by omega) ih
  | right hright _ ih =>
    refine .right (by omega) ?_
    rwa [Nat.sub_add_comm hright]
  | view hrange _ ih =>
    refine .view (by omega) ?_
    rwa [Nat.add_right_comm]

theorem trans (h : Covers len rope offset node start) (h' : Covers len node start target begin) :
    Covers len rope offset target begin := by
  induction h with
  | here => exact h'
  | left hleft _ ih => exact .left hleft (ih h')
  | right hright _ ih => exact .right hright (ih h')
  | view hrange _ ih => exact .view hrange (ih h')

end Covers

/-! ## Slices -/

namespace Anchored

theorem byteLen_eq (h : Anchored rope offset len store slice) : slice.byteLen = len := by
  cases h with
  | whole hwhole => exact hwhole.2.symm
  | empty _ hzero _ hscanned =>
    cases hscanned
    exact hzero.symm
  | node _ _ _ _ hserves => exact hserves.2.1.symm
  | view => rfl

theorem sliced (h : Anchored rope offset len store slice) (hwf : rope.WF)
    (hr : offset + len ≤ rope.byteLen) : Sliced rope offset len slice := by
  cases h with
  | whole hwhole => exact .whole hwhole.1 hwhole.2
  | empty _ hzero _ hscanned => exact .empty hzero hscanned
  | node _ _ hwithin hsmallest hserves =>
    obtain ⟨-, hbytes, hencoding, hresolved⟩ := hserves
    exact .node hwithin hbytes.symm (hsmallest.covers.shows hwf).2 hencoding hresolved
  | view _ hlen hwithin hsmallest =>
    obtain ⟨hrange, hshows⟩ := hsmallest.covers.shows hwf
    exact .view hlen hwithin hshows (.view hrange (charLen_stretchTags hwf hr))

/-- A way down from a slice is part of a way down from the rope. -/
theorem covers (h : Anchored rope offset len store slice) (hr : inner + len' ≤ len)
    (hzero : len' ≠ 0) (hview : target.isView = false)
    (hcovers : Covers len' slice inner target start) :
    Covers len' rope (offset + inner) target start := by
  cases h with
  | whole hwhole => rwa [hwhole.1, Nat.zero_add]
  | empty _ hempty => omega
  | node _ _ _ hsmallest =>
    have hway := hsmallest.covers.narrow hr
    rw [Nat.zero_add] at hway
    exact hway.trans hcovers
  | view _ _ _ hsmallest =>
    cases hcovers with
    | here => cases hview
    | view _ hchild =>
      have hway := hsmallest.covers.narrow hr
      exact hway.trans (Nat.add_comm inner _ ▸ hchild)

/-- A slice of a slice is anchored where the slice of the rope is. -/
theorem trans (h : Anchored rope offset len store slice)
    (h' : Anchored slice inner len' store' slice') (hwf : rope.WF) (hrope : rope.SoundTags)
    (hslice : slice.SoundTags) (hr : offset + len ≤ rope.byteLen) (hr' : inner + len' ≤ len) :
    ∃ store'', Anchored rope (offset + inner) len' store'' slice' := by
  have hlen := h.byteLen_eq
  have hsliced := h.sliced hwf hr
  have hencoding := hsliced.encoding_eq
  have hsmallest {target : Rope} {start : Nat} (hzero : len' ≠ 0)
      (hs : Smallest len' slice inner target start) :
      Smallest len' rope (offset + inner) target start :=
    (h.covers hr' hzero hs.not_view hs.covers).smallest hzero hs.not_view hs.straddles
  -- All of the rope is a range of no slice but the rope itself.
  have hproper (hinner : ¬slice.IsWhole inner len') :
      ¬rope.IsWhole (offset + inner) len' := by
    unfold IsWhole at hinner ⊢
    omega
  cases h' with
  | whole hwhole =>
    obtain ⟨rfl, rfl⟩ := hwhole
    exact ⟨store, hlen.symm ▸ h⟩
  | empty hinner hzero hid hscanned =>
    exact ⟨store', .empty (hproper hinner) hzero hid (hencoding ▸ hscanned)⟩
  | node hinner hzero _ hs hserves =>
    have hs := hsmallest hzero hs
    unfold Serves at hserves
    rw [hencoding] at hserves
    exact ⟨store', .node (hproper hinner) hzero hs.covers.within hs hserves⟩
  | view hinner hzero _ hs hserves =>
    have hs := hsmallest hzero hs
    have htags : slice.stretchTags inner len' = rope.stretchTags (offset + inner) len' := by
      rw [hslice.stretchTags_eq (hsliced.wf hwf) (hlen ▸ hr'), hrope.stretchTags_eq hwf (by omega),
        stretch_of_content_eq (hsliced.content_eq hwf) hr', hencoding]
    unfold Serves at hserves
    rw [hencoding] at hserves
    rw [htags]
    exact ⟨store', .view (hproper hinner) hzero hs.covers.within hs hserves⟩

end Anchored

/-! ## One range -/

/-- Where a view begins in what it shows. -/
def offset? : Rope → Option Nat
  | view _ _ _ _ offset _ => some offset
  | leaf .. | join .. => none

/-- The ropes differ in the names of their roots at most. -/
structure Resembles (rope other : Rope) : Prop where
  content_eq : rope.content = other.content
  byteLen_eq : rope.byteLen = other.byteLen
  tags_eq : rope.tags = other.tags
  depth_eq : rope.depth = other.depth
  shape_eq : rope.shape = other.shape
  children_eq : rope.children = other.children
  offset_eq : rope.offset? = other.offset?
  isBalanced_eq : rope.isBalanced = other.isBalanced

theorem Resembles.refl (rope : Rope) : rope.Resembles rope :=
  ⟨rfl, rfl, rfl, rfl, rfl, rfl, rfl, rfl⟩

theorem Scanned.resembles {encoding : Encoding} {bytes : Bytes} (h : Scanned encoding bytes rope)
    (h' : Scanned encoding bytes other) : rope.Resembles other := by
  cases h with
  | leaf _ hkind =>
    cases h' with
    | leaf _ hkind' =>
      obtain rfl := LeafKind.eq_of_range_eq (hkind.trans hkind'.symm)
      exact ⟨rfl, rfl, rfl, rfl, rfl, rfl, rfl, rfl⟩

theorem Anchored.resembles (h : Anchored rope offset len store slice)
    (h' : Anchored rope offset len store' slice') : slice.Resembles slice' := by
  cases h with
  | whole hwhole =>
    cases h' with
    | whole => exact .refl _
    | empty hproper | node hproper | view hproper => exact absurd hwhole hproper
  | empty hproper hzero _ hscanned =>
    cases h' with
    | whole hwhole => exact absurd hwhole hproper
    | empty _ _ _ hscanned' => exact hscanned.resembles hscanned'
    | node _ hne | view _ hne => exact absurd hzero hne
  | node hproper hne _ hsmallest hserves =>
    cases h' with
    | whole hwhole => exact absurd hwhole hproper
    | empty _ hzero => exact absurd hzero hne
    | node _ _ _ hsmallest' =>
      obtain ⟨rfl, -⟩ := hsmallest.unique hsmallest'
      exact .refl _
    | view _ _ _ hsmallest' hserves' =>
      obtain ⟨rfl, rfl⟩ := hsmallest.unique hsmallest'
      exact absurd hserves hserves'
  | view hproper hne _ hsmallest hserves =>
    cases h' with
    | whole hwhole => exact absurd hwhole hproper
    | empty _ hzero => exact absurd hzero hne
    | node _ _ _ hsmallest' hserves' =>
      obtain ⟨rfl, rfl⟩ := hsmallest.unique hsmallest'
      exact absurd hserves' hserves
    | view _ _ _ hsmallest' =>
      obtain ⟨rfl, rfl⟩ := hsmallest.unique hsmallest'
      exact ⟨rfl, rfl, rfl, rfl, rfl, rfl, rfl, rfl⟩

/-! ## Chains of slices -/

/-- Slices a rope, then the slice, and so on. -/
def slices (rope : Rope) (ranges : List (Nat × Nat)) : RopeM Rope :=
  ranges.foldlM (fun slice range => slice.slice range.1 range.2) rope

/-- Each range, an offset and a length, lies within the one before, and the first one within `len`
octets. -/
def Nested : Nat → List (Nat × Nat) → Prop
  | _, [] => True
  | len, (offset, len') :: rest => offset + len' ≤ len ∧ Nested len' rest

/-- The range that nested ranges within an outer one come down to. -/
def innermost (outer : Nat × Nat) (ranges : List (Nat × Nat)) : Nat × Nat :=
  ranges.foldl (fun outer range => (outer.1 + range.1, range.2)) outer

theorem innermost_le {outer : Nat × Nat} (h : Nested outer.2 ranges) :
    (innermost outer ranges).1 + (innermost outer ranges).2 ≤ outer.1 + outer.2 := by
  induction ranges generalizing outer with
  | nil => exact Nat.le_refl _
  | cons range ranges ih =>
    have hle := @ih (outer.1 + range.1, range.2) h.2
    have hrange : range.1 + range.2 ≤ outer.2 := h.1
    rw [innermost, List.foldl_cons, ← innermost]
    omega

theorem exists_slice (h : c.live rope) (hr : offset + len ≤ rope.byteLen) :
    ∃ slice c', rope.slice offset len c.store = .ok slice c'.store ∧ c ≤ c' ∧ c'.live slice ∧
      Anchored rope offset len c.store slice := by
  obtain ⟨slice, store, hrun, hanchored⟩ := slice_anchored h hr
  obtain ⟨c', rfl, hle, hlive, -⟩ := (wf_slice h).of_run hrun
  exact ⟨slice, c', hrun, hle, hlive, hanchored⟩

/-- What slicing again and again makes is anchored where the slice of the innermost range is. -/
theorem exists_slices (hmade : rope.Made may) (hslice : may .slice) (htag : ¬may .tag)
    (hlive : c.live slice) (h : Anchored rope offset len store slice)
    (hr : offset + len ≤ rope.byteLen) (hranges : Nested len ranges) :
    ∃ slice' c', slice.slices ranges c.store = .ok slice' c'.store ∧ c ≤ c' ∧
      ∃ store', Anchored rope (innermost (offset, len) ranges).1 (innermost (offset, len) ranges).2
        store' slice' := by
  induction ranges generalizing slice offset len store c with
  | nil => exact ⟨slice, c, rfl, c.le_refl, store, h⟩
  | cons range ranges ih =>
    obtain ⟨hrange, hranges⟩ := hranges
    have hsound {rope : Rope} (hmade : rope.Made may) := hmade.induct (passes_soundTags htag)
    have hsliced : slice.Made may := .sliced hslice hmade hr (h.sliced hmade.wf hr)
    obtain ⟨next, c₁, hrun, hle, hnext, hanchored⟩ := exists_slice hlive (h.byteLen_eq ▸ hrange)
    obtain ⟨_, hnested⟩ := h.trans hanchored hmade.wf (hsound hmade) (hsound hsliced) hr hrange
    obtain ⟨slice', c₂, hruns, hle', hinner⟩ := ih hnext hnested (by omega) hranges
    refine ⟨slice', c₂, ?_, Census.le_trans hle hle', hinner⟩
    rw [slices, List.foldlM_cons, RopeM.run_bind hrun]
    exact hruns

end ByteRope.Rope
