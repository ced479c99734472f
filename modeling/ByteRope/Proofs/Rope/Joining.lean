import ByteRope.Proofs.Rope.Making
import ByteRope.Rope.Concat

/-!
# Concatenation

What concatenation makes (`Rope.Concatenated`). Only sums past the largest size are in its way: a
join is marked ASCII only if both of its sides are, and then its lengths agree because theirs do.
-/

namespace ByteRope.Rope

open RopeM

variable {c : Census} {left right rope : Rope} {policy : BalancePolicy}

/-- The fault of a join whose lengths are too large. -/
def TooLarge (left right : Rope) (fault : Fault) : Prop :=
  Oversize (left.byteLen + right.byteLen) fault ∨ Oversize (left.charLen + right.charLen) fault

/-! ## Tagged joins -/

/-- A join with this encoding and range. -/
inductive Joined (left right : Rope) (encoding : Encoding) (range : CodeRange) (balanced : Bool) :
    Rope → Prop
  | join {id : NodeId} : left.byteLen + right.byteLen ≤ Size.max →
    left.charLen + right.charLen ≤ Size.max →
    (range = .asciiOnly → left.charLen + right.charLen = left.byteLen + right.byteLen) →
    Joined left right encoding range balanced
      (.join id ⟨encoding, range, left.charLen + right.charLen⟩ (left.byteLen + right.byteLen)
        (max left.depth right.depth + 1) balanced left right)

theorem Joined.wf {encoding : Encoding} {range : CodeRange} {balanced : Bool}
    (h : Joined left right encoding range balanced rope) (hl : left.WF) (hr : right.WF) :
    rope.WF := by
  cases h with
  | join hbytes _ hascii => exact .join hl hr rfl hbytes rfl hascii

theorem Joined.encoding_eq {encoding : Encoding} {range : CodeRange} {balanced : Bool}
    (h : Joined left right encoding range balanced rope) : rope.encoding = encoding := by
  cases h
  rfl

theorem Joined.range_eq {encoding : Encoding} {range : CodeRange} {balanced : Bool}
    (h : Joined left right encoding range balanced rope) : rope.range = range := by
  cases h
  rfl

theorem Joined.children_eq {encoding : Encoding} {range : CodeRange} {balanced : Bool}
    (h : Joined left right encoding range balanced rope) : rope.children = [left, right] := by
  cases h
  rfl

theorem wf_taggedJoin (hl : c.live left) (hr : c.live right) {encoding : Encoding}
    {range : CodeRange} {depth : Nat} {balanced : Bool}
    (hdepth : depth = max left.depth right.depth + 1) :
    RopeM.WF c (left.taggedJoin right encoding range depth balanced)
      (fun rope c' => c'.live rope ∧ Joined left right encoding range balanced rope)
      (fun fault => TooLarge left right fault ∨
        Mismatch range (left.byteLen + right.byteLen) (left.charLen + right.charLen) fault) := by
  unfold taggedJoin
  rw [if_pos hdepth]
  refine WF.add (fun hbytes => ?_) fun _ h => .inl (.inl h)
  refine WF.add (fun hchars => ?_) fun _ h => .inl (.inr h)
  refine (wf_newJoin hl hr rfl hbytes hdepth (by rintro _ ⟨⟩)).mono ?_ fun _ => .inr
  intro _ c' _ hresult
  obtain ⟨hlive, id, rfl⟩ := hresult
  subst hdepth
  cases c'.wf hlive with
  | join _ _ _ _ _ hascii => exact ⟨hlive, .join hbytes hchars hascii⟩

theorem wf_taggedJoin' (hl : c.live left) (hr : c.live right) (encoding : Encoding)
    (range : CodeRange) (depth : Nat) (balanced : Bool) :
    RopeM.WF c (left.taggedJoin right encoding range depth balanced)
      (fun rope c' => c'.live rope ∧ Joined left right encoding range balanced rope)
      fun _ => True := by
  by_cases hdepth : depth = max left.depth right.depth + 1
  · exact (wf_taggedJoin hl hr hdepth).faults fun _ _ => trivial
  · unfold taggedJoin
    rw [if_neg hdepth]
    exact WF.throw trivial

theorem joined_of_run {encoding : Encoding} {range : CodeRange} {balanced : Bool}
    {store store' : Store}
    (h : left.taggedJoin right encoding range (max left.depth right.depth + 1) balanced store =
      .ok rope store') : Joined left right encoding range balanced rope := by
  unfold taggedJoin at h
  rw [if_pos rfl] at h
  obtain ⟨byteLen, hadd, h⟩ := exists_of_run_lift h
  obtain ⟨charLen, hadd', h⟩ := exists_of_run_lift h
  obtain ⟨⟨⟩, hcheck, h⟩ := exists_of_run_lift h
  obtain ⟨hbytes, rfl⟩ := Size.add_eq_ok_iff.mp hadd
  obtain ⟨hchars, rfl⟩ := Size.add_eq_ok_iff.mp hadd'
  cases h
  exact .join hbytes hchars (charLen_eq_of_checkNode hcheck)

/-! ## Concatenation -/

theorem asciiOnly_of_joinedTags (h : (joinedTags left right).2 = .asciiOnly) :
    left.range = .asciiOnly ∧ right.range = .asciiOnly := by
  unfold joinedTags at h
  split at h
  · revert h
    cases left.range <;> cases right.range <;> simp [CodeRange.combine]
  · cases h

/-- The encoding that a join takes, if an ASCII-only left side is under an ASCII-compatible one. -/
theorem joinedTags_encoding
    (hl : left.range = .asciiOnly → left.encoding.isAsciiCompatible = true) :
    (joinedTags left right).1 =
      if left.isAsciiOnly && !right.isAsciiOnly && right.encoding.isAsciiCompatible
      then right.encoding else left.encoding := by
  unfold joinedTags Encoding.compatible isAsciiOnly
  grind

theorem joinedTags_ascii_iff (hl : left.range = .asciiOnly → left.encoding.isAsciiCompatible = true)
    (hr : right.range = .asciiOnly → right.encoding.isAsciiCompatible = true) :
    (joinedTags left right).2 = .asciiOnly ↔
      left.range = .asciiOnly ∧ right.range = .asciiOnly := by
  refine ⟨asciiOnly_of_joinedTags, fun ⟨hla, hra⟩ => ?_⟩
  unfold joinedTags Encoding.compatible
  simp only [hla, hra, hl hla, hr hra, CodeRange.combine]
  grind

theorem joinedTags_ne_unknown (hl : left.range ≠ .unknown) (hr : right.range ≠ .unknown) :
    (joinedTags left right).2 ≠ .unknown := by
  unfold joinedTags
  split
  · revert hl hr
    cases left.range <;> cases right.range <;> simp [CodeRange.combine]
  · nofun

/-- One rope after another. -/
inductive Concatenated (left right : Rope) (policy : BalancePolicy) : Rope → Prop
  | left : right.byteLen = 0 → Concatenated left right policy left
  | right : left.byteLen = 0 → right.byteLen ≠ 0 → Concatenated left right policy right
  | join {rope : Rope} : left.byteLen ≠ 0 → right.byteLen ≠ 0 →
    Joined left right (joinedTags left right).1 (joinedTags left right).2
      (policy.isBalanced (max left.depth right.depth + 1) (left.byteLen + right.byteLen)) rope →
    Concatenated left right policy rope

/-- What comes of concatenation, whether the two ropes are in use or not. -/
theorem concatenated_of_run {store store' : Store}
    (h : left.concat right policy store = .ok rope store') :
    Concatenated left right policy rope := by
  unfold concat at h
  split at h
  next hempty =>
    cases h
    exact .left (isEmpty_iff.mp hempty)
  next hright =>
    have hright (hzero : right.byteLen = 0) := hright (isEmpty_iff.mpr hzero)
    split at h
    next hempty =>
      cases h
      exact .right (isEmpty_iff.mp hempty) hright
    next hleft =>
      obtain ⟨byteLen, hadd, h⟩ := exists_of_run_lift h
      obtain ⟨-, rfl⟩ := Size.add_eq_ok_iff.mp hadd
      exact .join (fun hzero => hleft (isEmpty_iff.mpr hzero)) hright (joined_of_run h)

theorem concatenated_of_outcome {store : Store}
    (h : (left.concat right policy).outcome store = .ok rope) :
    Concatenated left right policy rope := by
  obtain ⟨_, hrun⟩ := outcome_eq_ok_iff.mp h
  exact concatenated_of_run hrun

theorem Concatenated.joined (h : Concatenated left right policy rope) (hl : left.byteLen ≠ 0)
    (hr : right.byteLen ≠ 0) :
    Joined left right (joinedTags left right).1 (joinedTags left right).2
      (policy.isBalanced (max left.depth right.depth + 1) (left.byteLen + right.byteLen)) rope := by
  cases h with
  | left hempty => exact absurd hempty hr
  | right hempty => exact absurd hempty hl
  | join _ _ hjoined => exact hjoined

theorem wf_concat (hl : c.live left) (hr : c.live right) :
    RopeM.WF c (left.concat right policy)
      (fun rope c' => c'.live rope ∧ Concatenated left right policy rope)
      (fun fault => TooLarge left right fault) := by
  unfold concat
  split
  next hempty => exact WF.pure ⟨hl, .left (isEmpty_iff.mp hempty)⟩
  next hright =>
    split
    next hempty =>
      refine WF.pure ⟨hr, .right (isEmpty_iff.mp hempty) fun h => hright ?_⟩
      exact isEmpty_iff.mpr h
    next hleft =>
      refine WF.add (fun _ => ?_) fun _ => .inl
      refine (wf_taggedJoin hl hr rfl).mono ?_ ?_
      · intro rope c' _ hresult
        obtain ⟨hlive, hjoined⟩ := hresult
        refine ⟨hlive, .join (fun h => hleft ?_) (fun h => hright ?_) hjoined⟩
        · exact isEmpty_iff.mpr h
        · exact isEmpty_iff.mpr h
      · intro fault hcases
        rcases hcases with h | ⟨-, hascii, hne⟩
        · exact h
        · obtain ⟨hal, har⟩ := asciiOnly_of_joinedTags hascii
          exact absurd (by rw [(c.wf hl).charLen_eq hal, (c.wf hr).charLen_eq har]) hne

theorem Concatenated.wf (h : Concatenated left right policy rope) (hl : left.WF) (hr : right.WF) :
    rope.WF := by
  cases h with
  | left => exact hl
  | right => exact hr
  | join _ _ hjoined => exact hjoined.wf hl hr

theorem Concatenated.byteLen_eq (h : Concatenated left right policy rope) :
    rope.byteLen = left.byteLen + right.byteLen := by
  cases h with
  | left hempty => rw [hempty, Nat.add_zero]
  | right hempty => rw [hempty, Nat.zero_add]
  | join _ _ hjoined =>
    cases hjoined
    rfl

theorem Concatenated.charLen_le (h : Concatenated left right policy rope) :
    rope.charLen ≤ left.charLen + right.charLen := by
  cases h with
  | left => exact Nat.le_add_right ..
  | right => exact Nat.le_add_left ..
  | join _ _ hjoined =>
    cases hjoined
    exact Nat.le_refl _

theorem Concatenated.content_eq (hl : left.WF) (hr : right.WF)
    (h : Concatenated left right policy rope) : rope.content = left.content ++ right.content := by
  cases h with
  | left hempty => rw [hr.isEmpty_iff_content.mp (isEmpty_iff.mpr hempty), List.append_nil]
  | right hempty => rw [hl.isEmpty_iff_content.mp (isEmpty_iff.mpr hempty), List.nil_append]
  | join _ _ hjoined =>
    cases hjoined
    rfl

end ByteRope.Rope
