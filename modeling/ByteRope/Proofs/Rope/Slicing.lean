import ByteRope.Proofs.Rope.Making
import ByteRope.Proofs.Rope.Reading
import ByteRope.Proofs.Rope.Covering

/-!
# Slices

What slicing makes (`Rope.Sliced`): a slice shows a stretch of the rope, and a view that is made for
it has the tags that a scan of the stretch finds. Only a range that the rope does not have is in its
way.
-/

namespace ByteRope.Rope

open RopeM

variable {c : Census} {rope child : Rope} {tags : Tags} {offset len : Nat}

/-! ## Finding the node -/

/-- The node found lies under the rope and shows the range, if the rope does. -/
theorem covering_eq (h : rope.WF) (hr : offset + len ≤ rope.byteLen) :
    ∃ target start, rope.covering len offset = .ok (target, start) ∧ target.Within rope ∧
      start + len ≤ target.byteLen ∧ target.stretch start len = rope.stretch offset len := by
  obtain ⟨target, start, hok, hcovers, -⟩ := covering_covers h hr
  obtain ⟨hrange, hshows⟩ := hcovers.shows h
  exact ⟨target, start, hok, hcovers.within, hrange, hshows⟩

/-! ## Tags -/

/-- The tags of a stretch: what a scan finds, or what is known of ASCII-only ropes. -/
def stretchTags (rope : Rope) (offset len : Nat) : Tags :=
  if rope.isAsciiOnly then ⟨rope.encoding, .asciiOnly, len⟩
  else
    let scanned := rope.encoding.scan (rope.stretch offset len).toArray
    ⟨rope.encoding, scanned.range, scanned.charLen⟩

theorem stretchTags_of_ascii (h : rope.range = .asciiOnly) (offset len : Nat) :
    rope.stretchTags offset len = ⟨rope.encoding, .asciiOnly, len⟩ :=
  if_pos (decide_eq_true h)

theorem stretchTags_of_ne (h : rope.range ≠ .asciiOnly) (offset len : Nat) :
    rope.stretchTags offset len = ⟨rope.encoding,
      (rope.encoding.scan (rope.stretch offset len).toArray).range,
      (rope.encoding.scan (rope.stretch offset len).toArray).charLen⟩ :=
  if_neg (by rw [isAsciiOnly, decide_eq_false h]; nofun)

theorem stretchTags_encoding (rope : Rope) (offset len : Nat) :
    (rope.stretchTags offset len).encoding = rope.encoding := by
  unfold stretchTags
  split <;> rfl

theorem sliceTags_eq (h : c.live rope) (hr : offset + len ≤ rope.byteLen) :
    rope.sliceTags offset len c.store = .ok (rope.stretchTags offset len) c.store := by
  unfold sliceTags stretchTags
  split
  · rfl
  · rw [run_bind (scanRange_eq h hr)]
    rfl

theorem charLen_stretchTags (h : rope.WF) (hr : offset + len ≤ rope.byteLen)
    (ha : (rope.stretchTags offset len).range = .asciiOnly) :
    (rope.stretchTags offset len).charLen = len := by
  unfold stretchTags at ha ⊢
  split at ha
  next hascii => rw [if_pos hascii]
  next hascii =>
    rw [if_neg hascii]
    obtain ⟨hc, hbytes⟩ := Encoding.scan_range_eq_asciiOnly_iff.mp ha
    dsimp only
    rw [Encoding.scan_of_isAscii hc hbytes]
    exact h.length_stretch hr

/-! ## Slicing -/

/-- The fault of a range that a rope does not have. -/
def OutOfRange (rope : Rope) (offset len : Nat) (refusal : Refusal) : Prop :=
  refusal = .rangeOutOfBounds offset len rope.byteLen ∧ rope.byteLen < offset + len

/-- A view with these tags. -/
inductive Shown (child : Rope) (tags : Tags) (offset len : Nat) : Rope → Prop
  | view {id : NodeId} : offset + len ≤ child.byteLen →
    (tags.range = .asciiOnly → tags.charLen = len) →
    Shown child tags offset len (.view id tags len (child.depth + 1) offset child)

theorem Shown.wf (h : Shown child tags offset len rope) (hchild : child.WF) : rope.WF := by
  cases h with
  | view hrange hascii => exact .view hchild hrange rfl hascii

theorem Shown.children_eq (h : Shown child tags offset len rope) : rope.children = [child] := by
  cases h
  rfl

theorem wf_taggedView (hchild : c.live child) :
    RopeM.WF c (child.taggedView tags offset len)
      (fun rope c' => c'.live rope ∧ Shown child tags offset len rope)
      (fun fault => (∃ refusal, fault = .refused refusal ∧ child.OutOfRange offset len refusal) ∨
        Mismatch tags.range len tags.charLen fault) := by
  unfold taggedView checkRange
  by_cases hr : offset + len ≤ child.byteLen
  · rw [if_pos hr]
    refine (wf_newView hchild hr rfl (by rintro _ ⟨⟩)).mono ?_ fun _ => .inr
    intro _ c' _ hresult
    obtain ⟨hlive, id, rfl⟩ := hresult
    cases c'.wf hlive with
    | view _ _ _ hascii => exact ⟨hlive, .view hr hascii⟩
  · rw [if_neg hr]
    exact WF.throw (.inl ⟨_, rfl, rfl, Nat.lt_of_not_le hr⟩)

/-- A stretch of a rope as a rope: the rope itself, no octets, a node under the rope with a range
that is known, or a new view of a node under the rope. -/
inductive Sliced (rope : Rope) (offset len : Nat) : Rope → Prop
  | whole : offset = 0 → len = rope.byteLen → Sliced rope offset len rope
  | empty {slice : Rope} : len = 0 → Scanned rope.encoding #[] slice → Sliced rope offset len slice
  | node {node : Rope} : node.Within rope → node.byteLen = len →
    node.stretch 0 len = rope.stretch offset len → node.encoding = rope.encoding →
    node.range.isResolved = true → Sliced rope offset len node
  | view {child slice : Rope} {start : Nat} : len ≠ 0 → child.Within rope →
    child.stretch start len = rope.stretch offset len →
    Shown child (rope.stretchTags offset len) start len slice → Sliced rope offset len slice

theorem wf_slice? (h : c.live rope) :
    RopeM.WF c (rope.slice? offset len)
      (fun result c' =>
        (∀ slice, result = .ok slice →
          c'.live slice ∧ offset + len ≤ rope.byteLen ∧ Sliced rope offset len slice) ∧
        ∀ refusal, result = .error refusal → rope.OutOfRange offset len refusal)
      fun _ => False := by
  have hwf := c.wf h
  unfold slice? checkRange
  by_cases hr : offset + len ≤ rope.byteLen
  · rw [if_pos hr]
    dsimp only
    split
    next hwhole =>
      refine WF.pure ⟨?_, nofun⟩
      intro _ heq
      cases heq
      exact ⟨h, hr, .whole hwhole.1 hwhole.2⟩
    next =>
      split
      next hzero =>
        refine (wf_ofBytes.faults ?_).bind fun slice c' _ hq => ?_
        · intro _ hresult
          obtain ⟨-, hlt⟩ := hresult
          cases hlt
        · refine WF.pure ⟨?_, nofun⟩
          intro _ heq
          cases heq
          exact ⟨hq.1, hr, .empty hzero hq.2⟩
      next hzero =>
        obtain ⟨target, start, hok, hwithin, hrange, hshows⟩ := covering_eq hwf hr
        rw [hok]
        apply WF.reads rfl
        dsimp only
        split
        next hnode =>
          obtain ⟨rfl, hlen, hencoding, hresolved⟩ := hnode
          refine WF.pure ⟨?_, nofun⟩
          intro _ heq
          cases heq
          exact ⟨c.live_of_within h hwithin, hr,
            .node hwithin hlen.symm hshows hencoding hresolved⟩
        next =>
          apply WF.reads (sliceTags_eq h hr)
          refine ((wf_taggedView (c.live_of_within h hwithin)).faults ?_).bind
            fun slice c' _ hq => ?_
          · intro fault hcases
            rcases hcases with ⟨_, -, -, hlt⟩ | ⟨-, hascii, hne⟩
            · exact absurd hrange (Nat.not_le_of_lt hlt)
            · exact hne (charLen_stretchTags hwf hr hascii)
          · refine WF.pure ⟨?_, nofun⟩
            intro _ heq
            cases heq
            exact ⟨hq.1, hr, .view hzero hwithin hshows hq.2⟩
  · rw [if_neg hr]
    refine WF.pure ⟨nofun, ?_⟩
    intro _ heq
    cases heq
    exact ⟨rfl, Nat.lt_of_not_le hr⟩

theorem wf_slice (h : c.live rope) :
    RopeM.WF c (rope.slice offset len)
      (fun slice c' =>
        c'.live slice ∧ offset + len ≤ rope.byteLen ∧ Sliced rope offset len slice)
      fun fault => ∃ refusal, fault = .refused refusal ∧ rope.OutOfRange offset len refusal :=
  WF.insist ((wf_slice? h).mono
    (fun _ _ _ hq => ⟨hq.1, fun _ hrefusal => ⟨_, rfl, hq.2 _ hrefusal⟩⟩)
    fun _ => False.elim)

theorem Sliced.wf (h : rope.WF) {slice : Rope} (hs : Sliced rope offset len slice) :
    slice.WF := by
  cases hs with
  | whole => exact h
  | empty _ hscanned => exact hscanned.wf
  | node hwithin => exact h.of_within hwithin
  | view _ hwithin _ hshown => exact hshown.wf (h.of_within hwithin)

theorem Sliced.content_eq (h : rope.WF) {slice : Rope} (hs : Sliced rope offset len slice) :
    slice.content = rope.stretch offset len := by
  cases hs with
  | whole hoffset hlen => rw [hoffset, hlen, h.stretch_all]
  | empty hlen hscanned =>
    cases hscanned
    rw [hlen, stretch_zero]
    rfl
  | node hwithin hlen hshows =>
    rw [← hshows, ← hlen, (h.of_within hwithin).stretch_all]
  | view _ _ hshows hshown =>
    cases hshown
    exact hshows

theorem Sliced.encoding_eq {slice : Rope} (hs : Sliced rope offset len slice) :
    slice.encoding = rope.encoding := by
  cases hs with
  | whole => rfl
  | empty _ hscanned =>
    cases hscanned
    rfl
  | node _ _ _ hencoding => exact hencoding
  | view _ _ _ hshown =>
    cases hshown
    exact stretchTags_encoding ..

end ByteRope.Rope
