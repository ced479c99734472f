import Mathlib.Algebra.Order.BigOperators.Group.List
import Mathlib.Data.Nat.Log
import ByteRope.Proofs.Rope.Rebalancing

/-!
# Heights

How high ropes have to be. A join at most doubles the nodes at its tips, so a rope has no more of
them than its height allows (`Rope.length_tips_le`). A round of pairing adds a level and halves the
ropes, so pairing adds no more levels than any tree over so many ropes needs
(`Rope.pairedDepth_le`). Over leaves both meet, and a tree over leaves of that height is balanced by
every policy: the leaves are no more than the octets, and every policy allows a level a bit.
-/

namespace ByteRope

namespace BalancePolicy

theorem clog_le_bitLength {parts byteLen : Nat} (h : parts ≤ byteLen) :
    Nat.clog 2 parts ≤ bitLength byteLen :=
  Nat.clog_le_of_le_pow (Nat.le_trans h (Nat.le_of_lt Nat.lt_log2_self))

/-- The bound is at least one level a bit. -/
theorem bitLength_le_depthLimit {byteLen : Nat} (h : byteLen ≤ Size.max) (policy : BalancePolicy) :
    bitLength byteLen ≤ policy.depthLimit byteLen := by
  refine Nat.le_min.mpr ⟨Nat.le_mul_of_pos_left _ (Nat.le_max_right ..), ?_⟩
  by_cases hzero : byteLen = 0
  · subst hzero
    decide
  · exact Nat.le_trans ((Nat.log2_lt hzero).mpr Nat.lt_two_pow_self) h

/-- Every policy finds a tree over so many nonempty parts balanced if it is no higher than it has to
be. -/
theorem isBalanced_of_le_clog (policy : BalancePolicy) {depth parts byteLen : Nat}
    (hdepth : depth ≤ Nat.clog 2 parts) (hparts : parts ≤ byteLen) (hmax : byteLen ≤ Size.max) :
    policy.isBalanced depth byteLen = true :=
  decide_eq_true (Nat.le_trans (Nat.le_trans hdepth (clog_le_bitLength hparts))
    (bitLength_le_depthLimit hmax policy))

end BalancePolicy

namespace Rope

variable {rope new left right piece : Rope} {policy : BalancePolicy} {P : Rope → Prop}
  {leaves leaves' : List Rope} {α : Type} {bound : Nat}

/-! ## Trees -/

/-- The most edges that lie between the root and a leaf. -/
def height : Rope → Nat
  | leaf .. => 0
  | join _ _ _ _ _ left right => max left.height right.height + 1
  | view _ _ _ _ _ child => child.height + 1

theorem WF.depth_eq_height (h : rope.WF) : rope.depth = rope.height := by
  induction h with
  | leaf => rfl
  | join _ _ _ _ hdepth _ ihl ihr => rw [depth, height, hdepth, ihl, ihr]
  | view _ _ hdepth _ ih => rw [depth, height, hdepth, ih]

/-- A rope of some height has two to the power of it nodes at its tips at most. -/
theorem length_tips_le (rope : Rope) : rope.tips.length ≤ 2 ^ rope.height := by
  induction rope with
  | leaf | view => exact Nat.one_le_two_pow
  | join id tags byteLen depth balanced left right ihl ihr =>
    rw [tips, List.length_append, height, Nat.pow_succ, Nat.mul_two]
    refine Nat.add_le_add (Nat.le_trans ihl ?_) (Nat.le_trans ihr ?_)
    · exact Nat.pow_le_pow_right Nat.zero_lt_two (Nat.le_max_left ..)
    · exact Nat.pow_le_pow_right Nat.zero_lt_two (Nat.le_max_right ..)

theorem clog_length_tips_le (rope : Rope) : Nat.clog 2 rope.tips.length ≤ rope.height :=
  Nat.clog_le_of_le_pow rope.length_tips_le

theorem length_parts_le_tips (rope : Rope) : rope.parts.length ≤ rope.tips.length := by
  rw [parts_eq]
  exact List.length_filter_le ..

theorem WF.length_parts_le (h : rope.WF) : rope.parts.length ≤ rope.byteLen := by
  rw [← h.sum_byteLen_parts, ← List.length_map (f := byteLen)]
  refine List.length_le_sum_of_one_le _ fun len hmem => ?_
  obtain ⟨piece, hpiece, rfl⟩ := List.mem_map.mp hmem
  exact Nat.one_le_iff_ne_zero.mpr (mem_parts hpiece).2

theorem isJoin_of_two_le_parts (h : 2 ≤ rope.parts.length) : rope.isJoin = true := by
  cases hjoin : rope.isJoin with
  | true => rfl
  | false =>
    have htips := rope.length_parts_le_tips
    rw [tips_of_isJoin hjoin] at htips
    exact absurd (Nat.le_trans h htips) (Nat.not_succ_le_self 1)

/-! ## Pairing -/

/-- As many rounds as there are values leave two of them at most. -/
theorem length_rounds_le (op : α → α → α) {count : Nat} {values : List α}
    (h : values.length ≤ count) : (rounds op count values).length ≤ 2 := by
  induction count generalizing values with
  | zero =>
    rw [rounds]
    omega
  | succ count ih =>
    rw [rounds]
    split
    next hshort => exact hshort
    next hlong => exact ih (by rw [length_pairs]; omega)

theorem two_le_length_rounds (op : α → α → α) (count : Nat) {values : List α}
    (h : 2 ≤ values.length) : 2 ≤ (rounds op count values).length := by
  induction count generalizing values with
  | zero => exact h
  | succ count ih =>
    rw [rounds]
    split
    next => exact h
    next hlong => exact ih (by rw [length_pairs]; omega)

theorem le_of_mem_pairs {values : List Nat} (h : ∀ value ∈ values, value ≤ bound) :
    ∀ value ∈ pairs (max · · + 1) values, value ≤ bound + 1 := by
  fun_induction pairs (max · · + 1) values with
  | case1 left right rest ih =>
    obtain ⟨hleft, hrest⟩ := List.forall_mem_cons.mp h
    obtain ⟨hright, hrest⟩ := List.forall_mem_cons.mp hrest
    exact List.forall_mem_cons.mpr ⟨Nat.succ_le_succ (Nat.max_le.mpr ⟨hleft, hright⟩), ih hrest⟩
  | case2 short => exact fun value hmem => Nat.le_succ_of_le (h value hmem)

/-- Every round adds a level and halves the values, so `digits` rounds are enough for values that
make up `digits` doublings of two. -/
theorem le_of_mem_rounds (count : Nat) {digits : Nat} {values : List Nat}
    (hlength : values.length ≤ 2 ^ (digits + 1)) (h : ∀ value ∈ values, value ≤ bound) :
    ∀ value ∈ rounds (max · · + 1) count values, value ≤ bound + digits := by
  induction count generalizing digits bound values with
  | zero => exact fun value hmem => Nat.le_add_right_of_le (h value hmem)
  | succ count ih =>
    rw [rounds]
    split
    next => exact fun value hmem => Nat.le_add_right_of_le (h value hmem)
    next hlong =>
      cases digits with
      | zero => exact absurd hlength hlong
      | succ digits =>
        have hhalf : (pairs (max · · + 1) values).length ≤ 2 ^ (digits + 1) := by
          rw [length_pairs]
          rw [Nat.pow_succ] at hlength
          omega
        intro value hmem
        have hle := ih hhalf (le_of_mem_pairs h) value hmem
        omega

/-- The tree over the pieces is deeper than they are by no more levels than so many need. -/
theorem pairedDepth_le (hparts : 2 ≤ rope.parts.length)
    (h : ∀ piece ∈ rope.parts, piece.settledDepth ≤ bound) :
    rope.pairedDepth ≤ bound + Nat.clog 2 rope.parts.length := by
  have hpos : 0 < Nat.clog 2 rope.parts.length := Nat.clog_pos Nat.one_lt_two hparts
  obtain ⟨digits, hdigits⟩ := Nat.exists_eq_succ_of_ne_zero (Nat.ne_of_gt hpos)
  have hplaces : (rope.parts.map settledDepth).length ≤ 2 ^ (digits + 1) := by
    rw [List.length_map, ← Nat.succ_eq_add_one, ← hdigits]
    exact Nat.le_pow_clog Nat.one_lt_two _
  have hlength : (rope.parts.map settledDepth).length = rope.parts.length := List.length_map _
  have hle := length_rounds_le (max · · + 1) (Nat.le_of_eq hlength)
  have hge := two_le_length_rounds (max · · + 1) rope.parts.length (hlength ▸ hparts)
  obtain ⟨left, right, hrounds⟩ := List.length_eq_two.mp (Nat.le_antisymm hle hge)
  have hbound := le_of_mem_rounds rope.parts.length hplaces
    (List.forall_mem_map.mpr h)
  rw [hrounds] at hbound
  rw [pairedDepth, hrounds, hdigits]
  have hleft := hbound left (List.mem_cons_self ..)
  have hright := hbound right (List.mem_cons_of_mem _ (List.mem_cons_self ..))
  dsimp only
  omega

/-! ## Rebalancing -/

/-- Rebalancing loses no piece. -/
theorem Regrouped.length_parts_le (h : Regrouped P policy rope new) :
    rope.parts.length ≤ new.tips.length := by
  rcases h.settled with rfl | hsettled
  · exact new.length_parts_le_tips
  · exact Nat.le_of_eq hsettled.length_eq

/-! ## Trees over leaves -/

/-- The rope was put together of these leaves by concatenation, in any grouping and under any
policies. Empty leaves do not count. -/
inductive OfLeaves : List Rope → Rope → Prop
  | leaf {id : NodeId} {kind : LeafKind} {encoding : Encoding} {charLen : Nat} {bytes : Bytes} :
    bytes.size ≠ 0 →
    OfLeaves [.leaf id kind encoding charLen bytes] (.leaf id kind encoding charLen bytes)
  | empty {id : NodeId} {kind : LeafKind} {encoding : Encoding} {charLen : Nat} {bytes : Bytes} :
    bytes.size = 0 → OfLeaves [] (.leaf id kind encoding charLen bytes)
  | concat {leaves leaves' : List Rope} {left right rope : Rope} {policy : BalancePolicy}
    {store : Store} : OfLeaves leaves left → OfLeaves leaves' right →
    (left.concat right policy).outcome store = .ok rope → OfLeaves (leaves ++ leaves') rope

namespace OfLeaves

/-- The leaves are the pieces of the rope, and an empty rope has none. -/
theorem parts_eq (h : OfLeaves leaves rope) :
    rope.parts = leaves ∧ (rope.byteLen = 0 → leaves = []) := by
  induction h with
  | leaf hne => exact ⟨if_neg fun hempty => hne (of_decide_eq_true hempty), fun h => absurd h hne⟩
  | empty hzero => exact ⟨if_pos (decide_eq_true hzero), fun _ => rfl⟩
  | concat _ _ hrun ihl ihr =>
    cases concatenated_of_outcome hrun with
    | left hzero => rwa [ihr.2 hzero, List.append_nil]
    | right hzero => rwa [ihl.2 hzero]
    | join hleft _ hjoined =>
      cases hjoined
      refine ⟨by rw [parts, ihl.1, ihr.1], fun hzero => ?_⟩
      exact absurd (Nat.eq_zero_of_add_eq_zero_right hzero) hleft

theorem settledDepth_eq (h : OfLeaves leaves rope) : ∀ leaf ∈ leaves, leaf.settledDepth = 0 := by
  induction h with
  | leaf =>
    intro leaf hmem
    rw [List.mem_singleton.mp hmem]
    rfl
  | empty => nofun
  | concat _ _ _ ihl ihr =>
    intro leaf hmem
    rcases List.mem_append.mp hmem with hmem | hmem
    · exact ihl leaf hmem
    · exact ihr leaf hmem

/-- A join was marked by some policy. -/
theorem exists_policy (h : OfLeaves leaves rope) (hjoin : rope.isJoin = true) :
    ∃ policy : BalancePolicy, rope.isBalanced = policy.isBalanced rope.depth rope.byteLen := by
  induction h with
  | leaf | empty => cases hjoin
  | @concat _ _ _ _ _ policy _ _ _ hrun ihl ihr =>
    cases concatenated_of_outcome hrun with
    | left => exact ihl hjoin
    | right => exact ihr hjoin
    | join _ _ hjoined =>
      cases hjoined
      exact ⟨policy, rfl⟩

end OfLeaves

namespace Regrouped

theorem depth_le_clog (h : Regrouped P policy rope new) (hparts : 2 ≤ rope.parts.length)
    (hbound : ∀ piece ∈ rope.parts, piece.settledDepth ≤ bound) :
    new.depth ≤ bound + Nat.clog 2 rope.parts.length :=
  Nat.le_trans (h.rebalanced.depth_le_pairedDepth (isJoin_of_two_le_parts hparts))
    (pairedDepth_le hparts hbound)

variable (h : Regrouped P policy rope new) (hleaves : OfLeaves leaves rope)
  (hlength : 2 ≤ leaves.length)

include h hleaves hlength

/-- Over leaves rebalancing makes a tree with as many levels as so many leaves need. -/
theorem depth_eq_clog (hnew : new.WF) : new.depth = Nat.clog 2 leaves.length := by
  obtain ⟨rfl, -⟩ := hleaves.parts_eq
  apply Nat.le_antisymm
  · have hzero : ∀ leaf ∈ rope.parts, leaf.settledDepth ≤ 0 :=
      fun leaf hmem => Nat.le_of_eq (hleaves.settledDepth_eq leaf hmem)
    have hle := h.depth_le_clog hlength hzero
    rwa [Nat.zero_add] at hle
  · rw [hnew.depth_eq_height]
    exact Nat.le_trans (Nat.clog_mono_right 2 h.length_parts_le) new.clog_length_tips_le

/-- The tree is marked balanced, even if it is the rope itself, marked by another policy. -/
theorem isBalanced (hwf : rope.WF) (hnew : new.WF) : new.isBalanced = true := by
  have hdepth := h.depth_eq_clog hleaves hlength hnew
  obtain ⟨rfl, -⟩ := hleaves.parts_eq
  have hmark (policy : BalancePolicy) : policy.isBalanced new.depth rope.byteLen = true :=
    policy.isBalanced_of_le_clog (Nat.le_of_eq hdepth) hwf.length_parts_le hwf.byteLen_le
  cases h.rebalanced with
  | same =>
    obtain ⟨policy', hpolicy⟩ := hleaves.exists_policy (isJoin_of_two_le_parts hlength)
    rw [hpolicy]
    exact hmark policy'
  | rebuilt _ _ _ hpaired _ hrebuilt =>
    cases hrebuilt with
    | join => exact hpaired ▸ hmark policy

end Regrouped

end Rope

end ByteRope
