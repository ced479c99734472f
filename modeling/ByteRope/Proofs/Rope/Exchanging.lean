import ByteRope.Proofs.Rope.Characters
import ByteRope.Proofs.Rope.Comparing

/-!
# Exchanging equal ropes

What an operation makes of one of two equal ropes is equal to what it makes of the other as long as
keys are all that the operation looks at. Concatenation also looks at the ranges to choose an
encoding (`Rope.concatEncoding`), and equal ropes need not have the same range. So it tells two
equal ropes apart if one of them is ASCII only, the other is not, and the third rope is such that
this decides on the encoding (`Rope.PartsAfter`, `Rope.PartsBefore`).
-/

namespace ByteRope

open RopeM

variable {c : Census} {left right rope rope' : Rope} {policy : BalancePolicy}

/-- Whether two computations make equal ropes, one after the other. -/
def RopeM.equals (left right : RopeM Rope) : RopeM Bool := do
  let first ← left
  let second ← right
  first.equal second

/-- Equality of what was made is equality of the keys. -/
theorem RopeM.WF.equals {make make' : RopeM Rope} {key key' : Encoding × List UInt8} {P : Prop}
    {E : Fault → Prop}
    (h : WF c make (fun rope c' => c'.live rope ∧ rope.key = key ∧ P) E)
    (h' : ∀ c', c ≤ c' → WF c' make' (fun rope c'' => c''.live rope ∧ rope.key = key') E) :
    WF c (RopeM.equals make make') (fun same _ => same = decide (key = key') ∧ P) E := by
  refine h.bind fun first c' hle hfirst => ?_
  obtain ⟨hlive, rfl, hP⟩ := hfirst
  refine (h' c' hle).bind fun second c'' hle' hsecond => ?_
  obtain ⟨hlive', rfl⟩ := hsecond
  refine .of_eq (Rope.equal_eq (hle'.live hlive) hlive') ⟨?_, hP⟩
  rw [decide_eq_decide.mpr Rope.key_eq_iff]

namespace Rope

/-! ## Keys of what is made -/

theorem Sliced.key_eq {slice : Rope} {offset len : Nat} (h : Sliced rope offset len slice)
    (hwf : rope.WF) : slice.key = (rope.encoding, rope.stretch offset len) :=
  Prod.ext h.encoding_eq (h.content_eq hwf)

theorem Resolved.key_eq (h : Resolved rope rope') : rope'.key = rope.key :=
  Prod.ext h.encoding_eq h.content_eq

theorem Rebalanced.key_eq {P : Rope → Prop} (h : Rebalanced P policy rope rope') :
    rope'.key = rope.key :=
  Prod.ext (congrArg Tags.encoding h.tags_eq) h.content_eq

theorem wf_rebalance_key (h : c.live rope) (policy : BalancePolicy) :
    RopeM.WF c (rope.rebalance policy) (fun root c' => c'.live root ∧ root.key = rope.key)
      fun _ => True :=
  (wf_regroup_any h policy).mono (fun _ _ _ hq => ⟨hq.1, hq.2.rebalanced.key_eq⟩)
    fun _ _ => trivial

/-- The encoding of one rope after another. -/
def concatEncoding (left right : Rope) : Encoding :=
  if right.byteLen = 0 then left.encoding
  else if left.byteLen = 0 then right.encoding
  else if left.isAsciiOnly && !right.isAsciiOnly && right.encoding.isAsciiCompatible then
    right.encoding
  else left.encoding

theorem Concatenated.encoding_eq (h : Concatenated left right policy rope)
    (hl : left.SoundTags) : rope.encoding = left.concatEncoding right := by
  cases h with
  | left hempty => exact (if_pos hempty).symm
  | right hempty hne => rw [concatEncoding, if_neg hne, if_pos hempty]
  | join hleft hright hjoined =>
    rw [hjoined.encoding_eq, joinedTags_encoding fun hascii => (hl.ascii hascii).1, concatEncoding,
      if_neg hright, if_neg hleft]

theorem Concatenated.key_eq (h : Concatenated left right policy rope) (hl : left.SoundTags)
    (hlwf : left.WF) (hrwf : right.WF) :
    rope.key = (left.concatEncoding right, left.content ++ right.content) :=
  Prod.ext (h.encoding_eq hl) (h.content_eq hlwf hrwf)

/-! ## Concatenation -/

/-- What a rope keeps to if no caller says its tags or its number of characters. -/
structure Checked (rope : Rope) : Prop where
  sound : rope.SoundTags
  charLen_le : rope.charLen ≤ rope.byteLen

/-- One checked rope after another is a rope as long as its length is a size. -/
theorem wf_concat_of_checked (hl : c.live left) (hr : c.live right) (hlc : left.Checked)
    (hrc : right.Checked) :
    RopeM.WF c (left.concat right policy)
      (fun rope c' => c'.live rope ∧
        rope.key = (left.concatEncoding right, left.content ++ right.content) ∧
        left.byteLen + right.byteLen ≤ Size.max)
      (Oversize (left.byteLen + right.byteLen)) := by
  refine (wf_concat hl hr).mono (fun rope c' _ hresult => ?_) fun fault hfault => ?_
  · obtain ⟨hlive, hconcat⟩ := hresult
    refine ⟨hlive, hconcat.key_eq hlc.sound (c.wf hl) (c.wf hr), ?_⟩
    exact hconcat.byteLen_eq ▸ (c'.wf hlive).byteLen_le
  · -- There are no more characters than octets, so their sum is not the first to be too large.
    rcases hfault with hbytes | ⟨hfault, hlt⟩
    · exact hbytes
    · exact ⟨hfault, Nat.lt_of_lt_of_le hlt (Nat.add_le_add hlc.charLen_le hrc.charLen_le)⟩

/-- The encoding of `left` and then `last` depends on whether `left` is ASCII only, and the two
ropes differ in that. -/
def PartsAfter (left right last : Rope) : Prop :=
  left.byteLen ≠ 0 ∧ last.byteLen ≠ 0 ∧ left.isAsciiOnly ≠ right.isAsciiOnly ∧
    last.isAsciiOnly = false ∧ last.encoding.isAsciiCompatible = true ∧
    last.encoding ≠ left.encoding

/-- The encoding of `first` and then `left` depends on whether `left` is ASCII only, and the two
ropes differ in that. -/
def PartsBefore (first left right : Rope) : Prop :=
  left.byteLen ≠ 0 ∧ first.byteLen ≠ 0 ∧ left.isAsciiOnly ≠ right.isAsciiOnly ∧
    first.isAsciiOnly = true ∧ first.encoding ≠ left.encoding

instance (left right last : Rope) : Decidable (PartsAfter left right last) :=
  inferInstanceAs (Decidable (_ ∧ _))

instance (first left right : Rope) : Decidable (PartsBefore first left right) :=
  inferInstanceAs (Decidable (_ ∧ _))

theorem concatEncoding_eq_iff_after {last : Rope} (hencoding : left.encoding = right.encoding)
    (hlen : left.byteLen = right.byteLen) :
    left.concatEncoding last = right.concatEncoding last ↔ ¬PartsAfter left right last := by
  unfold concatEncoding PartsAfter
  rw [← hencoding, ← hlen]
  by_cases hlast : last.byteLen = 0
  · simp [hlast]
  by_cases hleft : left.byteLen = 0
  · simp [hleft]
  cases left.isAsciiOnly <;> cases right.isAsciiOnly <;> cases last.isAsciiOnly <;>
    cases last.encoding.isAsciiCompatible <;>
    simp [hlast, hleft, @eq_comm _ left.encoding last.encoding]

theorem concatEncoding_eq_iff_before {first : Rope} (hl : left.SoundTags) (hr : right.SoundTags)
    (hencoding : left.encoding = right.encoding) (hlen : left.byteLen = right.byteLen) :
    first.concatEncoding left = first.concatEncoding right ↔ ¬PartsBefore first left right := by
  -- If the two differ then one of them is ASCII only, so the encoding of both is compatible.
  have hcompatible (h : left.isAsciiOnly = true ∨ right.isAsciiOnly = true) :
      left.encoding.isAsciiCompatible = true := by
    rcases h with h | h
    · exact (hl.ascii (of_decide_eq_true h)).1
    · exact hencoding ▸ (hr.ascii (of_decide_eq_true h)).1
  unfold concatEncoding PartsBefore
  rw [← hencoding, ← hlen]
  by_cases hleft : left.byteLen = 0
  · simp [hleft]
  by_cases hfirst : first.byteLen = 0
  · simp [hfirst]
  revert hcompatible
  cases left.isAsciiOnly <;> cases right.isAsciiOnly <;> cases first.isAsciiOnly <;>
    simp +contextual [hleft, hfirst, @eq_comm _ left.encoding first.encoding]

/-! ## Equal ropes in the place of each other -/

section

variable {first last : Rope} {policy' : BalancePolicy}

/-- Two concatenations of the same content both end, or both are too large. -/
theorem outcome_concat_equals {left' right' : Rope} (hl : c.live left) (hr : c.live right)
    (hl' : c.live left') (hr' : c.live right') (hlc : left.Checked) (hrc : right.Checked)
    (hlc' : left'.Checked) (hrc' : right'.Checked)
    (hcontent : left'.content ++ right'.content = left.content ++ right.content) :
    (RopeM.equals (left.concat right policy) (left'.concat right' policy')).outcome c.store =
      if left.byteLen + right.byteLen ≤ Size.max then
        .ok (decide (left.concatEncoding right = left'.concatEncoding right'))
      else .error .sizeOverflow := by
  have hlen : left'.byteLen + right'.byteLen = left.byteLen + right.byteLen := by
    rw [← (c.wf hl).length_content, ← (c.wf hr).length_content, ← (c.wf hl').length_content,
      ← (c.wf hr').length_content, ← List.length_append, hcontent, List.length_append]
  have hsecond (c' : Census) (hle : c ≤ c') : RopeM.WF c' (left'.concat right' policy')
      (fun rope c'' => c''.live rope ∧
        rope.key = (left'.concatEncoding right', left.content ++ right.content))
      (Oversize (left.byteLen + right.byteLen)) := by
    rw [← hlen, ← hcontent]
    exact (wf_concat_of_checked (hle.live hl') (hle.live hr') hlc' hrc').results
      fun _ _ _ hq => ⟨hq.1, hq.2.1⟩
  apply RopeM.WF.outcome_eq
  refine (RopeM.WF.equals (wf_concat_of_checked hl hr hlc hrc) hsecond).mono
    (fun same _ _ hsame => ⟨?_, hsame.2⟩) fun _ hlong => ⟨hlong.1, Nat.not_le_of_lt hlong.2⟩
  rw [hsame.1]
  exact decide_eq_decide.mpr (Prod.ext_iff.trans (and_iff_left rfl))

theorem outcome_concat_last (hl : c.live left) (hr : c.live right) (hlast : c.live last)
    (hlc : left.Checked) (hrc : right.Checked) (hlastc : last.Checked)
    (hkey : left.key = right.key) :
    (RopeM.equals (left.concat last policy) (right.concat last policy')).outcome c.store =
      if left.byteLen + last.byteLen ≤ Size.max then .ok (decide ¬PartsAfter left right last)
      else .error .sizeOverflow := by
  obtain ⟨hencoding, hcontent⟩ := key_eq_iff.mp hkey
  have hlen := (c.wf hr).byteLen_eq (c.wf hl) hcontent
  rw [outcome_concat_equals hl hlast hr hlast hlc hlastc hrc hlastc (by rw [hcontent]),
    decide_eq_decide.mpr (concatEncoding_eq_iff_after hencoding hlen)]

theorem outcome_concat_first (hl : c.live left) (hr : c.live right) (hfirst : c.live first)
    (hlc : left.Checked) (hrc : right.Checked) (hfirstc : first.Checked)
    (hkey : left.key = right.key) :
    (RopeM.equals (first.concat left policy) (first.concat right policy')).outcome c.store =
      if first.byteLen + left.byteLen ≤ Size.max then .ok (decide ¬PartsBefore first left right)
      else .error .sizeOverflow := by
  obtain ⟨hencoding, hcontent⟩ := key_eq_iff.mp hkey
  have hlen := (c.wf hr).byteLen_eq (c.wf hl) hcontent
  rw [outcome_concat_equals hfirst hl hfirst hr hfirstc hlc hfirstc hrc (by rw [hcontent]),
    decide_eq_decide.mpr (concatEncoding_eq_iff_before hlc.sound hrc.sound hencoding hlen)]

theorem outcome_resolve (hl : c.live left) (hr : c.live right) (hkey : left.key = right.key) :
    (RopeM.equals left.resolve right.resolve).outcome c.store = .ok true := by
  have hresolve {c : Census} {rope : Rope} (h : c.live rope) :
      RopeM.WF c rope.resolve (fun rope' c' => c'.live rope' ∧ rope'.key = rope.key)
        fun _ => False :=
    (wf_resolve h).results fun _ _ _ hq => ⟨hq.1, hq.2.key_eq⟩
  apply RopeM.WF.outcome_ok
  refine (RopeM.WF.equals (P := True) ((hresolve hl).results fun _ _ _ hq => ⟨hq.1, hq.2, trivial⟩)
    fun c' hle => hresolve (hle.live hr)).results fun same _ _ hsame => ?_
  rw [hsame.1, decide_eq_true hkey]

theorem outcome_slice (hl : c.live left) (hr : c.live right) (hkey : left.key = right.key)
    {offset len : Nat} (hrange : offset + len ≤ left.byteLen) :
    (RopeM.equals (left.slice offset len) (right.slice offset len)).outcome c.store =
      .ok true := by
  obtain ⟨hencoding, hcontent⟩ := key_eq_iff.mp hkey
  have hlen := (c.wf hr).byteLen_eq (c.wf hl) hcontent
  have hslice {c : Census} {rope : Rope} (h : c.live rope) (hr : offset + len ≤ rope.byteLen) :
      RopeM.WF c (rope.slice offset len)
        (fun slice c' => c'.live slice ∧ slice.key = (rope.encoding, rope.stretch offset len))
        fun _ => False := by
    refine (wf_slice h).mono (fun _ _ _ hq => ⟨hq.1, hq.2.2.key_eq (c.wf h)⟩) fun _ hfault => ?_
    obtain ⟨_, -, -, hlt⟩ := hfault
    exact absurd hr (Nat.not_le_of_lt hlt)
  apply RopeM.WF.outcome_ok
  refine (RopeM.WF.equals (P := True)
    ((hslice hl hrange).results fun _ _ _ hq => ⟨hq.1, hq.2, trivial⟩)
    fun c' hle => hslice (hle.live hr) (hlen ▸ hrange)).results fun same _ _ hsame => ?_
  rw [hsame.1, stretch, stretch, hencoding, hcontent]
  exact decide_eq_true rfl

theorem equal_of_rebalance (hl : c.live left) (hr : c.live right) (hkey : left.key = right.key)
    {root root' : Rope} {store store' : Store}
    (hrun : left.rebalance policy c.store = .ok root store)
    (hrun' : right.rebalance policy' store = .ok root' store') :
    root.equal root' store' = .ok true store' := by
  obtain ⟨c₁, rfl, hle₁, hlive, hroot⟩ := (wf_rebalance_key hl policy).of_run hrun
  obtain ⟨c₂, rfl, hle₂, hlive', hroot'⟩ := (wf_rebalance_key (hle₁.live hr) policy').of_run hrun'
  rw [equal_eq (hle₂.live hlive) hlive',
    decide_eq_true (key_eq_iff.mp (hroot.trans (hkey.trans hroot'.symm)))]

end

end Rope

end ByteRope
