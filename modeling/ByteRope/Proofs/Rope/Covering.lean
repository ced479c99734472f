import ByteRope.Proofs.Rope.WellFormed
import ByteRope.Rope.Slice

/-!
# Covering nodes

A node covers a range of a rope if the way down to it goes through sides of joins that have all of
the range, and through views (`Rope.Covers`). Such a node shows the range (`Rope.Covers.shows`). The
nodes that cover a range with octets lie on one way down, and the last of them is the one that the
search for a slice ends at: it is no view, and if it is a join then the range has octets of both
sides (`Rope.covering_smallest`).
-/

namespace ByteRope.Rope

variable {rope node target : Rope} {offset len start begin : Nat}

/-- The range of the rope from `offset` on is the range of the node from `start` on. -/
inductive Covers (len : Nat) : Rope → Nat → Rope → Nat → Prop
  | here {rope : Rope} {offset : Nat} : offset + len ≤ rope.byteLen →
    Covers len rope offset rope offset
  | left {id : NodeId} {tags : Tags} {byteLen depth : Nat} {balanced : Bool}
    {left right node : Rope} {offset start : Nat} : offset + len ≤ left.byteLen →
    Covers len left offset node start →
    Covers len (.join id tags byteLen depth balanced left right) offset node start
  | right {id : NodeId} {tags : Tags} {byteLen depth : Nat} {balanced : Bool}
    {left right node : Rope} {offset start : Nat} : left.byteLen ≤ offset →
    Covers len right (offset - left.byteLen) node start →
    Covers len (.join id tags byteLen depth balanced left right) offset node start
  | view {id : NodeId} {tags : Tags} {byteLen depth begin : Nat} {child node : Rope}
    {offset start : Nat} : offset + len ≤ byteLen → Covers len child (offset + begin) node start →
    Covers len (.view id tags byteLen depth begin child) offset node start

/-- The rope is a view. -/
def isView : Rope → Bool
  | view .. => true
  | leaf .. | join .. => false

/-- Where the sides of a join meet. -/
def seam? : Rope → Option Nat
  | join _ _ _ _ _ left _ => some left.byteLen
  | leaf .. | view .. => none

namespace Covers

theorem within (h : Covers len rope offset node start) : node.Within rope := by
  induction h with
  | here => exact .refl
  | left _ _ ih => exact .child (List.mem_cons_self ..) ih
  | right _ _ ih => exact .child (List.mem_cons_of_mem _ (List.mem_cons_self ..)) ih
  | view _ _ ih => exact .child (List.mem_cons_self ..) ih

/-- A node that covers a range shows it. -/
theorem shows (h : Covers len rope offset node start) (hwf : rope.WF) :
    start + len ≤ node.byteLen ∧ node.stretch start len = rope.stretch offset len := by
  induction h with
  | here hr => exact ⟨hr, rfl⟩
  | left hleft _ ih =>
    cases hwf with
    | join hl =>
      obtain ⟨hrange, hshows⟩ := ih hl
      exact ⟨hrange, hshows.trans (stretch_join_left hl hleft).symm⟩
  | right hright _ ih =>
    cases hwf with
    | join hl hr =>
      obtain ⟨hrange, hshows⟩ := ih hr
      exact ⟨hrange, hshows.trans (stretch_join_right hl hright).symm⟩
  | view hr _ ih =>
    cases hwf with
    | view hchild =>
      obtain ⟨hrange, hshows⟩ := ih hchild
      exact ⟨hrange, hshows.trans (stretch_view hr).symm⟩

end Covers

/-- The node covers the range, and every node that covers it covers it by way of this one. It is no
view, and the range reaches across the seam of a join. -/
structure Smallest (len : Nat) (rope : Rope) (offset : Nat) (target : Rope) (start : Nat) :
    Prop where
  covers : Covers len rope offset target start
  least : ∀ {node begin}, Covers len rope offset node begin → Covers len node begin target start
  not_view : target.isView = false
  straddles : ∀ seam, target.seam? = some seam → start < seam ∧ seam < start + len

/-- The nodes that cover a range with octets are on one way down. -/
theorem Covers.smallest (h : Covers len rope offset target start) (hlen : len ≠ 0)
    (hview : target.isView = false)
    (hseam : ∀ seam, target.seam? = some seam → start < seam ∧ seam < start + len) :
    Smallest len rope offset target start := by
  refine ⟨h, fun {node begin} hnode => ?_, hview, hseam⟩
  -- Along the other way down. Both go to the same side of a join, since a range with octets lies in
  -- one of the sides only.
  induction hnode with
  | here => exact h
  | left hleft _ ih =>
    cases h with
    | here => exact absurd hleft (Nat.not_le_of_lt (hseam _ rfl).2)
    | left _ h => exact ih h
    | right hright => omega
  | right hright _ ih =>
    cases h with
    | here => exact absurd hright (Nat.not_le_of_lt (hseam _ rfl).1)
    | left hleft => omega
    | right _ h => exact ih h
  | view _ _ ih =>
    cases h with
    | here => cases hview
    | view _ h => exact ih h

/-- No node below one that ends the way down covers the range. -/
theorem Covers.eq_of_end (h : Covers len target start node begin) (hview : target.isView = false)
    (hseam : ∀ seam, target.seam? = some seam → start < seam ∧ seam < start + len) :
    node = target ∧ begin = start := by
  cases h with
  | here => exact ⟨rfl, rfl⟩
  | left hleft => exact absurd hleft (Nat.not_le_of_lt (hseam _ rfl).2)
  | right hright => exact absurd hright (Nat.not_le_of_lt (hseam _ rfl).1)
  | view => cases hview

theorem Smallest.unique (h : Smallest len rope offset target start)
    (h' : Smallest len rope offset node begin) : node = target ∧ begin = start :=
  (h'.least h.covers).eq_of_end h.not_view h.straddles

/-- The search ends at a node that covers the range and has no smaller one below it. -/
theorem covering_covers (h : rope.WF) (hr : offset + len ≤ rope.byteLen) :
    ∃ target start, rope.covering len offset = .ok (target, start) ∧
      Covers len rope offset target start ∧ target.isView = false ∧
      ∀ seam, target.seam? = some seam → start < seam ∧ seam < start + len := by
  induction h generalizing offset with
  | leaf => exact ⟨_, _, rfl, .here hr, rfl, nofun⟩
  | @join id tags byteLen depth balanced left right hl hright hlen hmax hdepth hascii ihl ihr =>
    have hsum : offset + len ≤ left.byteLen + right.byteLen := hlen ▸ hr
    rw [covering, Size.add_of_le (Nat.le_trans hr hmax)]
    dsimp only
    split
    next hleft =>
      obtain ⟨target, start, hok, hcovers, hend⟩ := ihl hleft
      exact ⟨target, start, hok, .left hleft hcovers, hend⟩
    next hleft =>
      split
      next hright =>
        have hrest : offset - left.byteLen + len ≤ right.byteLen := by omega
        obtain ⟨target, start, hok, hcovers, hend⟩ := ihr hrest
        exact ⟨target, start, hok, .right hright hcovers, hend⟩
      next hright =>
        refine ⟨_, _, rfl, .here hr, rfl, ?_⟩
        rintro _ ⟨⟩
        exact ⟨Nat.lt_of_not_le hright, Nat.lt_of_not_le hleft⟩
  | @view id tags byteLen depth start child hchild hrange hdepth hascii ih =>
    have hr' : offset + len ≤ byteLen := hr
    have hend : offset + start + len ≤ child.byteLen := by omega
    have hsum : offset + start ≤ Size.max :=
      Nat.le_trans (Nat.le_trans (Nat.le_add_right ..) hend) hchild.byteLen_le
    obtain ⟨target, start', hok, hcovers, hstop⟩ := ih hend
    rw [covering, Size.add_of_le hsum]
    exact ⟨target, start', hok, .view hr' hcovers, hstop⟩

theorem covering_smallest (h : rope.WF) (hr : offset + len ≤ rope.byteLen) (hlen : len ≠ 0) :
    ∃ target start, rope.covering len offset = .ok (target, start) ∧
      Smallest len rope offset target start := by
  obtain ⟨target, start, hok, hcovers, hview, hseam⟩ := covering_covers h hr
  exact ⟨target, start, hok, hcovers.smallest hlen hview hseam⟩

end ByteRope.Rope
