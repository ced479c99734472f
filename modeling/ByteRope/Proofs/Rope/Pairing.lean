import ByteRope.Proofs.Rope.Joining
import ByteRope.Rope.Rebalance

/-!
# Pieces and pairs

The pieces of a rope are what is left of it without its joins (`Rope.parts`). Pairing ropes up pairs
up every measure of them that joins add up (`Rope.Adds`), so one statement covers depths, lengths,
contents and pieces (`Rope.wf_pairUp`). Only a sum of characters that is no size is in its way, and
which sums are formed hangs on the characters alone (`Rope.RoundSums`).
-/

namespace ByteRope.Rope

open RopeM

variable {c c' : Census} {rope left right : Rope} {policy : BalancePolicy} {α : Type}

/-! ## Pieces -/

/-- The nonempty nodes under a rope that are no joins, in order. -/
def parts : Rope → List Rope
  | join _ _ _ _ _ left right => left.parts ++ right.parts
  | piece => if piece.isEmpty then [] else [piece]

/-- The nodes under a rope that are no joins, in order. -/
def tips : Rope → List Rope
  | join _ _ _ _ _ left right => left.tips ++ right.tips
  | piece => [piece]

theorem parts_eq (rope : Rope) : rope.parts = rope.tips.filter fun tip => !tip.isEmpty := by
  induction rope with
  | join id tags byteLen depth balanced left right ihl ihr =>
    rw [parts, tips, ihl, ihr, List.filter_append]
  | leaf | view =>
    simp only [parts, tips, List.filter_singleton]
    cases isEmpty _ <;> rfl

theorem piecesAfter_eq (found : Array Rope) (stack : List Rope) :
    (piecesAfter found stack).toList = found.toList ++ stack.flatMap parts := by
  fun_induction piecesAfter found stack with
  | case1 => rw [List.flatMap_nil, List.append_nil]
  | case2 found id tags byteLen depth balanced left right rest ih =>
    rw [ih]
    simp only [List.flatMap_cons, parts, List.append_assoc]
  | case3 found piece rest hpiece ih =>
    have hparts : piece.parts = if piece.isEmpty then [] else [piece] := by
      cases piece with
      | join => exact (hpiece _ _ _ _ _ _ _ rfl).elim
      | leaf | view => rfl
    rw [dite_eq_ite] at ih
    rw [ih, List.flatMap_cons, hparts]
    split <;> simp

theorem pieces_eq (rope : Rope) : rope.pieces = rope.parts := by
  rw [pieces, piecesAfter_eq]
  simp

theorem mem_parts {piece : Rope} (h : piece ∈ rope.parts) :
    piece.Within rope ∧ piece.byteLen ≠ 0 := by
  induction rope with
  | join id tags byteLen depth balanced left right ihl ihr =>
    rcases List.mem_append.mp h with h | h
    · exact ⟨.child (List.mem_cons_self ..) (ihl h).1, (ihl h).2⟩
    · exact ⟨.child (List.mem_cons_of_mem _ (List.mem_cons_self ..)) (ihr h).1, (ihr h).2⟩
  | leaf | view =>
    simp only [parts] at h
    split at h
    · cases h
    next hempty =>
      rw [List.mem_singleton.mp h]
      exact ⟨.refl, fun hzero => hempty (isEmpty_iff.mpr hzero)⟩

theorem WF.content_parts (h : rope.WF) : rope.parts.flatMap content = rope.content := by
  have halone {piece : Rope} (hp : piece.WF) :
      (if piece.isEmpty then [] else [piece]).flatMap content = piece.content := by
    split
    next hempty => exact (hp.isEmpty_iff_content.mp hempty).symm
    next => rw [List.flatMap_cons, List.flatMap_nil, List.append_nil]
  induction rope with
  | join id tags byteLen depth balanced left right ihl ihr =>
    cases h with
    | join hl hr => rw [parts, List.flatMap_append, ihl hl, ihr hr, content]
  | leaf | view => exact halone h

theorem sum_byteLen {ropes : List Rope} (h : ∀ rope ∈ ropes, rope.WF) :
    (ropes.map byteLen).sum = (ropes.flatMap content).length := by
  rw [List.length_flatMap]
  exact congrArg _ (List.map_congr_left fun rope hmem => (h rope hmem).length_content.symm)

theorem WF.sum_byteLen_parts (h : rope.WF) : (rope.parts.map byteLen).sum = rope.byteLen := by
  rw [sum_byteLen fun piece hmem => h.of_within (mem_parts hmem).1, h.content_parts,
    h.length_content]

/-! ## Pairs -/

/-- Each value at an even place with its neighbour. -/
def pairs (op : α → α → α) : List α → List α
  | left :: right :: rest => op left right :: pairs op rest
  | short => short

/-- Pairs up until at most two values are left, in this many rounds at most. -/
def rounds (op : α → α → α) : Nat → List α → List α
  | 0, values => values
  | count + 1, values => if values.length ≤ 2 then values else rounds op count (pairs op values)

theorem sum_pairs (values : List Nat) : (pairs (· + ·) values).sum = values.sum := by
  fun_induction pairs with
  | case1 left right rest ih => rw [List.sum_cons, ih, List.sum_cons, List.sum_cons, Nat.add_assoc]
  | case2 => rfl

theorem sum_rounds (count : Nat) (values : List Nat) :
    (rounds (· + ·) count values).sum = values.sum := by
  induction count generalizing values with
  | zero => rfl
  | succ count ih =>
    rw [rounds]
    split
    · rfl
    · rw [ih, sum_pairs]

theorem flatten_pairs (values : List (List α)) :
    (pairs (· ++ ·) values).flatten = values.flatten := by
  fun_induction pairs with
  | case1 left right rest ih => simp [ih]
  | case2 => rfl

theorem flatten_rounds (count : Nat) (values : List (List α)) :
    (rounds (· ++ ·) count values).flatten = values.flatten := by
  induction count generalizing values with
  | zero => rfl
  | succ count ih =>
    rw [rounds]
    split
    · rfl
    · rw [ih, flatten_pairs]

theorem length_pairs (op : α → α → α) (values : List α) :
    (pairs op values).length = (values.length + 1) / 2 := by
  fun_induction pairs op values with
  | case1 left right rest ih =>
    simp only [List.length_cons, ih]
    omega
  | case2 short hshort =>
    match short with
    | [] | [_] => simp
    | left :: right :: rest => exact (hshort left right rest rfl).elim

/-- The sums of neighbours are sizes. -/
def PairSums : List Nat → Prop
  | left :: right :: rest => left + right ≤ Size.max ∧ PairSums rest
  | _ => True

/-- The sums of neighbours are sizes in every round. -/
def RoundSums : Nat → List Nat → Prop
  | 0, _ => True
  | count + 1, values =>
    2 < values.length → PairSums values ∧ RoundSums count (pairs (· + ·) values)

theorem pairSums_of_sum_le {values : List Nat} (h : values.sum ≤ Size.max) : PairSums values := by
  fun_induction PairSums values with
  | case1 left right rest ih =>
    simp only [List.sum_cons] at h
    exact ⟨by omega, ih (by omega)⟩
  | case2 => trivial

theorem roundSums_of_sum_le (count : Nat) {values : List Nat} (h : values.sum ≤ Size.max) :
    RoundSums count values := by
  induction count generalizing values with
  | zero => trivial
  | succ count ih => exact fun _ => ⟨pairSums_of_sum_le h, ih (by rwa [sum_pairs])⟩

/-- Joins add up the measure. -/
def Adds (measure : Rope → α) (op : α → α → α) : Prop :=
  ∀ left right encoding range balanced rope, Joined left right encoding range balanced rope →
    measure rope = op (measure left) (measure right)

theorem adds_byteLen : Adds byteLen (· + ·) := by
  intro _ _ _ _ _ _ heq
  cases heq
  rfl

theorem adds_charLen : Adds charLen (· + ·) := by
  intro _ _ _ _ _ _ heq
  cases heq
  rfl

theorem adds_depth : Adds depth (max · · + 1) := by
  intro _ _ _ _ _ _ heq
  cases heq
  rfl

theorem adds_content : Adds content (· ++ ·) := by
  intro _ _ _ _ _ _ heq
  cases heq
  rfl

theorem adds_tips : Adds tips (· ++ ·) := by
  intro _ _ _ _ _ _ heq
  cases heq
  rfl

/-- A rope in use that is not empty and of which `P` holds. -/
structure Ready (P : Rope → Prop) (c : Census) (rope : Rope) : Prop where
  live : c.live rope
  holds : P rope
  byteLen_ne : rope.byteLen ≠ 0

theorem Ready.mono {P : Rope → Prop} (h : rope.Ready P c) (hle : c ≤ c') : rope.Ready P c' :=
  ⟨hle.live h.live, h.holds, h.byteLen_ne⟩

/-- A property of two ropes is one of the join over them. -/
def Closed (policy : BalancePolicy) (P : Rope → Prop) : Prop :=
  ∀ left right rope, P left → P right → Concatenated left right policy rope → P rope

/-- Two nonempty ropes make a join. -/
theorem wf_concat_of_ready {P : Rope → Prop} (hP : Closed policy P) (hl : left.Ready P c)
    (hr : right.Ready P c) :
    RopeM.WF c (left.concat right policy)
      (fun rope c' => rope.Ready P c' ∧ Joined left right (joinedTags left right).1
        (joinedTags left right).2
        (policy.isBalanced (max left.depth right.depth + 1) (left.byteLen + right.byteLen)) rope)
      (TooLarge left right) := by
  apply (wf_concat hl.live hr.live).results
  intro rope c' _ hresult
  obtain ⟨hlive, hconcat⟩ := hresult
  have hholds := hP _ _ _ hl.holds hr.holds hconcat
  have hjoined := hconcat.joined hl.byteLen_ne hr.byteLen_ne
  refine ⟨⟨hlive, hholds, ?_⟩, hjoined⟩
  rw [adds_byteLen _ _ _ _ _ _ hjoined]
  exact fun hzero => hl.byteLen_ne (Nat.eq_zero_of_add_eq_zero_right hzero)

theorem wf_pairAfter {P : Rope → Prop} (hP : Closed policy P) (done : Array Rope)
    {ropes : List Rope} (hready : ∀ rope ∈ ropes, rope.Ready P c)
    (hmax : (ropes.map byteLen).sum ≤ Size.max) :
    RopeM.WF c (pairAfter policy done ropes)
      (fun result c' => ∃ paired, result = done.toList ++ paired ∧
        (∀ rope ∈ paired, rope.Ready P c') ∧ PairSums (ropes.map charLen) ∧
        ∀ {α : Type} (measure : Rope → α) (op : α → α → α), Adds measure op →
          paired.map measure = pairs op (ropes.map measure))
      (fun fault => fault = .sizeOverflow ∧ ¬PairSums (ropes.map charLen)) := by
  fun_induction pairAfter policy done ropes generalizing c with
  | case1 => exact WF.pure ⟨[], (List.append_nil _).symm, nofun, trivial, fun _ _ _ => rfl⟩
  | case2 done last =>
    exact WF.pure ⟨[last], Array.toList_push, hready, trivial, fun _ _ _ => rfl⟩
  | case3 done left right rest ih =>
    have hleft := hready left (List.mem_cons_self ..)
    have hright := hready right (List.mem_cons_of_mem _ (List.mem_cons_self ..))
    simp only [List.map_cons, List.sum_cons] at hmax ⊢
    refine ((wf_concat_of_ready hP hleft hright).faults ?_).bind
      fun joined c' hle hjoined => ?_
    · intro fault hcases
      rcases hcases with ⟨-, hbytes⟩ | ⟨rfl, hchars⟩
      · omega
      · exact ⟨rfl, fun hsums => Nat.not_le_of_lt hchars hsums.1⟩
    · have hchars : left.charLen + right.charLen ≤ Size.max := by
        cases hjoined.2 with
        | join _ hchars => exact hchars
      refine (ih joined (fun rope hrope => (hready rope ?_).mono hle) (by omega)).mono ?_ ?_
      · exact List.mem_cons_of_mem _ (List.mem_cons_of_mem _ hrope)
      · intro _ c'' hle' hresult
        obtain ⟨paired, rfl, hpaired, hsums, hmeasure⟩ := hresult
        refine ⟨joined :: paired, by simp, ?_, ⟨hchars, hsums⟩, fun measure op hadds => ?_⟩
        · rintro rope (_ | ⟨_, hrope⟩)
          · exact hjoined.1.mono hle'
          · exact hpaired rope hrope
        · rw [List.map_cons, hmeasure measure op hadds, hadds _ _ _ _ _ _ hjoined.2]
          rfl
      · exact fun fault hresult => ⟨hresult.1, fun hsums => hresult.2 hsums.2⟩

theorem wf_pairUp {P : Rope → Prop} (hP : Closed policy P) (count : Nat) {ropes : List Rope}
    (hready : ∀ rope ∈ ropes, rope.Ready P c) (hmax : (ropes.map byteLen).sum ≤ Size.max) :
    RopeM.WF c (pairUp policy count ropes)
      (fun paired c' => (∀ rope ∈ paired, rope.Ready P c') ∧ RoundSums count (ropes.map charLen) ∧
        ∀ {α : Type} (measure : Rope → α) (op : α → α → α), Adds measure op →
          paired.map measure = rounds op count (ropes.map measure))
      (fun fault => fault = .sizeOverflow ∧ ¬RoundSums count (ropes.map charLen)) := by
  induction count generalizing c ropes with
  | zero => exact WF.pure ⟨hready, trivial, fun _ _ _ => rfl⟩
  | succ count ih =>
    unfold pairUp
    split
    next hshort =>
      refine WF.pure ⟨hready, fun hlong => ?_, fun measure op _ => ?_⟩
      · rw [List.length_map] at hlong
        omega
      · rw [rounds, List.length_map, if_pos hshort]
    next hlong =>
      have hmore : 2 < (ropes.map charLen).length := by
        rw [List.length_map]
        exact Nat.lt_of_not_le hlong
      refine ((wf_pairAfter hP #[] hready hmax).faults fun fault hresult => ?_).bind ?_
      · exact ⟨hresult.1, fun hsums => hresult.2 (hsums hmore).1⟩
      intro _ c' hle hresult
      obtain ⟨paired, rfl, hpaired, hsums, hmeasure⟩ := hresult
      have hbytes := hmeasure byteLen _ adds_byteLen
      have hchars := hmeasure charLen _ adds_charLen
      refine (ih hpaired ?_).mono ?_ ?_
      · rwa [hbytes, sum_pairs]
      · intro result c'' _ hresult
        obtain ⟨hresult, hsums', hmeasure'⟩ := hresult
        refine ⟨hresult, fun _ => ⟨hsums, hchars ▸ hsums'⟩, fun measure op hadds => ?_⟩
        rw [hmeasure' measure op hadds, rounds, List.length_map, if_neg hlong]
        exact congrArg _ (hmeasure measure op hadds)
      · exact fun fault hresult => ⟨hresult.1, fun hsums' => hresult.2 (hchars ▸ (hsums' hmore).2)⟩

end ByteRope.Rope
