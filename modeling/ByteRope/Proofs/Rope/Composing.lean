import ByteRope.Proofs.Rope.Joining
import ByteRope.Proofs.Rope.Rebalancing

/-!
# What ropes are composed of

A rope is composed of pieces if it is what joining them makes, in any grouping, where a part of the
tree may be swapped for another of the same content and tags on the way (`Rope.Composed`). The
encoding depends on the grouping. The content, the number of characters and the code range do not:
the range is that of the blend of the pieces (`Blend`), and blending is associative.
-/

namespace ByteRope

/-! ## Blends -/

/-- What pieces come to, as far as it does not depend on how they are grouped. -/
inductive Blend where
  /-- There are no pieces. -/
  | nothing
  /-- All is ASCII only under ASCII-compatible encodings. -/
  | plain
  /-- All that is not plain is of this range under this encoding. -/
  | under (encoding : Encoding) (range : CodeRange)
  /-- A piece is broken, or two pieces cannot share an encoding. -/
  | broken
  deriving DecidableEq, Repr

namespace Blend

/-- What a single piece comes to. -/
def ofTags (encoding : Encoding) (range : CodeRange) : Blend :=
  if range = .broken then broken
  else if range = .asciiOnly ∧ encoding.isAsciiCompatible = true then plain
  else under encoding range

/-- One blend after another. -/
def append : Blend → Blend → Blend
  | nothing, blend | blend, nothing => blend
  | broken, _ | _, broken => broken
  | plain, plain => plain
  | plain, under encoding range | under encoding range, plain =>
    if encoding.isAsciiCompatible then under encoding range else broken
  | under encoding range, under encoding' range' =>
    if encoding = encoding' then under encoding (range.combine range') else broken

/-- The blends one after another. -/
def sum (blends : List Blend) : Blend := blends.foldr append nothing

/-- The code range of what comes to this blend. -/
def range : Blend → CodeRange
  | nothing | plain => .asciiOnly
  | under _ range => range
  | broken => .broken

theorem append_nothing (blend : Blend) : blend.append nothing = blend := by
  cases blend <;> rfl

theorem append_assoc (a b c : Blend) : (a.append b).append c = a.append (b.append c) := by
  cases a <;> cases b <;> cases c <;> simp only [append] <;> grind [CodeRange.combine_assoc, append]

theorem sum_append (front back : List Blend) :
    sum (front ++ back) = (sum front).append (sum back) := by
  induction front with
  | nil => rfl
  | cons blend front ih => exact (congrArg blend.append ih).trans (append_assoc ..).symm

theorem sum_singleton (blend : Blend) : sum [blend] = blend := blend.append_nothing

theorem range_ofTags (encoding : Encoding) (range : CodeRange) :
    (ofTags encoding range).range = range := by
  unfold ofTags
  split
  next hbroken => exact hbroken.symm
  next =>
    split
    next hplain => exact hplain.1.symm
    next => rfl

end Blend

namespace Rope

variable {P : Rope → Prop} {policy : BalancePolicy} {pieces front back : List Rope}
  {rope rope' left right : Rope}

/-- What the rope comes to as a piece. -/
def blend (rope : Rope) : Blend := .ofTags rope.encoding rope.range

/-- A join comes to what its sides do. -/
theorem blend_joinedTags (left right : Rope) :
    Blend.ofTags (joinedTags left right).1 (joinedTags left right).2 =
      left.blend.append right.blend := by
  unfold joinedTags Encoding.compatible blend
  generalize left.encoding = e, left.range = r, right.encoding = e', right.range = r'
  cases r <;> cases r' <;> grind [Blend.ofTags, Blend.append, CodeRange.combine]

/-! ## Compositions -/

/-- The rope is what the pieces come to when they are joined in some grouping. On the way a part may
be swapped for another rope of its content, and of its tags if its range is known. -/
inductive Composed : List Rope → Rope → Prop
  | piece {rope : Rope} : rope.WF → rope.byteLen ≠ 0 → Composed [rope] rope
  | join {front back : List Rope} {left right rope : Rope} {policy : BalancePolicy} :
    Composed front left → Composed back right → Concatenated left right policy rope →
    Composed (front ++ back) rope
  | swap {pieces : List Rope} {rope rope' : Rope} : Composed pieces rope → rope'.WF →
    rope'.content = rope.content → (rope.range ≠ .unknown → rope'.tags = rope.tags) →
    Composed pieces rope'

namespace Composed

theorem wf (h : Composed pieces rope) : rope.WF := by
  induction h with
  | piece hwf => exact hwf
  | join _ _ hconcat ihl ihr => exact hconcat.wf ihl ihr
  | swap _ hwf => exact hwf

theorem byteLen_eq (h : Composed pieces rope) : rope.byteLen = (pieces.map byteLen).sum := by
  induction h with
  | piece => exact (Nat.add_zero _).symm
  | join _ _ hconcat ihl ihr =>
    rw [hconcat.byteLen_eq, ihl, ihr, List.map_append, List.sum_append]
  | swap h hwf hcontent _ ih => rw [h.wf.byteLen_eq hwf hcontent, ih]

theorem byteLen_ne (h : Composed pieces rope) : rope.byteLen ≠ 0 := by
  induction h with
  | piece _ hne => exact hne
  | join _ _ hconcat ihl _ =>
    rw [hconcat.byteLen_eq]
    omega
  | swap h hwf hcontent _ ih => rwa [h.wf.byteLen_eq hwf hcontent]

theorem content_eq (h : Composed pieces rope) : rope.content = pieces.flatMap content := by
  induction h with
  | piece => exact (List.flatMap_singleton ..).symm
  | join hl hr hconcat ihl ihr =>
    rw [hconcat.content_eq hl.wf hr.wf, ihl, ihr, List.flatMap_append]
  | swap _ _ hcontent _ ih => rw [hcontent, ih]

/-! Nothing on the way looks for the range of pieces whose ranges are known. -/

theorem known (h : Composed pieces rope) (hpieces : ∀ piece ∈ pieces, piece.range ≠ .unknown) :
    rope.range ≠ .unknown := by
  induction h with
  | piece => exact hpieces _ (List.mem_singleton_self _)
  | join hl hr hconcat ihl ihr =>
    obtain ⟨hfront, hback⟩ := List.forall_mem_append.mp hpieces
    rw [(hconcat.joined hl.byteLen_ne hr.byteLen_ne).range_eq]
    exact joinedTags_ne_unknown (ihl hfront) (ihr hback)
  | swap _ _ _ htags ih =>
    rw [range, htags (ih hpieces)]
    exact ih hpieces

theorem charLen_eq (h : Composed pieces rope) (hpieces : ∀ piece ∈ pieces, piece.range ≠ .unknown) :
    rope.charLen = (pieces.map charLen).sum := by
  induction h with
  | piece => exact (Nat.add_zero _).symm
  | join hl hr hconcat ihl ihr =>
    obtain ⟨hfront, hback⟩ := List.forall_mem_append.mp hpieces
    rw [List.map_append, List.sum_append, ← ihl hfront, ← ihr hback]
    cases hconcat.joined hl.byteLen_ne hr.byteLen_ne
    rfl
  | swap h _ _ htags ih =>
    exact (congrArg Tags.charLen (htags (h.known hpieces))).trans (ih hpieces)

theorem blend_eq (h : Composed pieces rope) (hpieces : ∀ piece ∈ pieces, piece.range ≠ .unknown) :
    rope.blend = .sum (pieces.map blend) := by
  induction h with
  | piece => exact (Blend.sum_singleton _).symm
  | join hl hr hconcat ihl ihr =>
    obtain ⟨hfront, hback⟩ := List.forall_mem_append.mp hpieces
    have hjoined := hconcat.joined hl.byteLen_ne hr.byteLen_ne
    rw [blend, hjoined.encoding_eq, hjoined.range_eq, blend_joinedTags, ihl hfront, ihr hback,
      List.map_append, Blend.sum_append]
  | swap h _ _ htags ih =>
    rw [← ih hpieces, blend, encoding, range, htags (h.known hpieces)]
    rfl

/-- The range of the whole is that of the blend of the pieces. -/
theorem range_eq (h : Composed pieces rope) (hpieces : ∀ piece ∈ pieces, piece.range ≠ .unknown) :
    rope.range = (Blend.sum (pieces.map blend)).range := by
  rw [← h.blend_eq hpieces, blend, Blend.range_ofTags]

theorem charLen_le (h : Composed pieces rope) (hpieces : ∀ piece ∈ pieces, piece.range ≠ .unknown)
    (htwo : 1 < pieces.length) : rope.charLen ≤ Size.max := by
  induction h with
  | piece => exact absurd htwo (Nat.lt_irrefl 1)
  | join hl hr hconcat =>
    cases hconcat.joined hl.byteLen_ne hr.byteLen_ne with
    | join _ hchars => exact hchars
  | swap h _ _ htags ih =>
    rw [charLen, htags (h.known hpieces)]
    exact ih hpieces htwo

/-! ## Swaps -/

theorem leafed (h : Composed pieces rope) (hleafed : Leafed rope rope') : Composed pieces rope' :=
  h.swap (hleafed.wf h.wf) hleafed.content_eq hleafed.tags_eq

theorem rebalanced (hP : ∀ rope, P rope → rope.WF) (h : Composed pieces rope)
    (hrebalanced : Rebalanced P policy rope rope') : Composed pieces rope' := by
  cases hrebalanced with
  | same => exact h
  | rebuilt _ hl hr _ _ hrebuilt =>
    exact h.swap (hrebuilt.wf h.wf (hP _ hl) (hP _ hr)) hrebuilt.content_eq
      fun _ => hrebuilt.tags_eq

end Composed

end Rope

end ByteRope
