import ByteRope.Proofs.Scanner.Counts
import ByteRope.Proofs.Store.Computation
import ByteRope.Rope.Leaf

/-!
# Making nodes

What the makers of nodes and leaves make, and when they fault. A leaf that is scanned has the tags
that the scan finds (`Rope.Scanned`); then nothing but its length can be in the way.
-/

namespace ByteRope

theorem LeafKind.ofRange?_eq_none {range : CodeRange} (h : ofRange? range = none) :
    range = .unknown := by
  cases range <;> first | rfl | cases h

theorem LeafKind.range_ne_unknown (kind : LeafKind) : kind.range ≠ .unknown := by
  cases kind <;> nofun

theorem LeafKind.eq_of_range_eq {kind kind' : LeafKind} (h : kind.range = kind'.range) :
    kind = kind' := by
  cases kind <;> cases kind' <;> first | rfl | cases h

namespace Rope

open RopeM

variable {c : Census} {tags : Tags} {kind : LeafKind} {encoding : Encoding} {bytes : Bytes}
  {bytes? : Option Bytes} {byteLen charLen depth offset : Nat} {balanced : Bool}
  {left right child rope : Rope}

/-! ## Nodes -/

/-- The fault of an ASCII-only node whose lengths differ. -/
def Mismatch (range : CodeRange) (byteLen charLen : Nat) (fault : Fault) : Prop :=
  fault = .asciiLengths byteLen charLen ∧ range = .asciiOnly ∧ charLen ≠ byteLen

theorem wf_checkNode {β : Type} {f : Unit → RopeM β} {R : β → Census → Prop} {E : Fault → Prop}
    (hb : ∀ bytes, bytes? = some bytes → bytes.size = byteLen)
    (hok : (tags.range = .asciiOnly → tags.charLen = byteLen) → RopeM.WF c (f ()) R E)
    (herror : ∀ fault, Mismatch tags.range byteLen tags.charLen fault → E fault) :
    RopeM.WF c ((liftM (checkNode tags byteLen bytes?) : RopeM Unit) >>= f) R E := by
  by_cases h : tags.range = .asciiOnly ∧ byteLen ≠ tags.charLen
  · have hcheck : checkNode tags byteLen bytes? = .error (.asciiLengths byteLen tags.charLen) :=
      if_pos h
    rw [hcheck]
    exact WF.lift nofun fun fault hf => herror _ (by cases hf; exact ⟨rfl, h.1, Ne.symm h.2⟩)
  · have hcheck : checkNode tags byteLen bytes? = .ok () := by
      unfold checkNode
      rw [if_neg h]
      cases bytes? with
      | none => rfl
      | some bytes => exact if_pos (hb bytes rfl)
    rw [hcheck]
    refine WF.reads rfl (hok fun ha => ?_)
    exact Decidable.byContradiction fun hne => h ⟨ha, Ne.symm hne⟩

theorem charLen_eq_of_checkNode (h : checkNode tags byteLen bytes? = .ok ())
    (hascii : tags.range = .asciiOnly) : tags.charLen = byteLen := by
  unfold checkNode at h
  split at h
  next => cases h
  next hlengths => exact Decidable.byContradiction fun hne => hlengths ⟨hascii, Ne.symm hne⟩

theorem wf_newLeaf :
    RopeM.WF c (newLeaf kind encoding charLen bytes)
      (fun rope c' => c'.live rope ∧ bytes.size ≤ Size.maxBuffer ∧
        ∃ id, rope = leaf id kind encoding charLen bytes)
      (fun fault => Overlong bytes.size fault ∨ Mismatch kind.range bytes.size charLen fault) := by
  refine WF.checkBuffer (fun hmax => wf_checkNode nofun (fun hlen => ?_) fun _ => .inr)
    fun _ => .inl
  exact WF.fresh (leaf _ kind encoding charLen bytes) rfl (.leaf hmax hlen) nofun nofun
    fun c' _ hlive => WF.pure ⟨hlive, hmax, _, rfl⟩

theorem wf_newJoin (hl : c.live left) (hr : c.live right)
    (hlen : byteLen = left.byteLen + right.byteLen) (hmax : byteLen ≤ Size.max)
    (hdepth : depth = max left.depth right.depth + 1)
    (hb : ∀ bytes, bytes? = some bytes →
      bytes.toList = left.content ++ right.content ∧ bytes.size ≤ Size.maxBuffer) :
    RopeM.WF c (newJoin tags byteLen depth balanced left right bytes?)
      (fun rope c' => c'.live rope ∧ ∃ id, rope = join id tags byteLen depth balanced left right)
      (Mismatch tags.range byteLen tags.charLen) := by
  refine wf_checkNode (fun bytes h => ?_) (fun hchars => ?_) fun _ h => h
  · rw [← Array.length_toList, (hb bytes h).1, List.length_append, (c.wf hl).length_content,
      (c.wf hr).length_content, hlen]
  · refine WF.fresh (join _ tags byteLen depth balanced left right) rfl
      (.join (c.wf hl) (c.wf hr) hlen hmax hdepth hchars) ?_ hb fun c' _ hlive =>
      WF.pure ⟨hlive, _, rfl⟩
    rintro node (_ | ⟨_, _ | ⟨_, ⟨⟩⟩⟩)
    · exact hl
    · exact hr

theorem wf_newView (hchild : c.live child) (hrange : offset + byteLen ≤ child.byteLen)
    (hdepth : depth = child.depth + 1)
    (hb : ∀ bytes, bytes? = some bytes →
      bytes.toList = child.stretch offset byteLen ∧ bytes.size ≤ Size.maxBuffer) :
    RopeM.WF c (newView tags byteLen depth offset child bytes?)
      (fun rope c' => c'.live rope ∧ ∃ id, rope = view id tags byteLen depth offset child)
      (Mismatch tags.range byteLen tags.charLen) := by
  refine wf_checkNode (fun bytes h => ?_) (fun hchars => ?_) fun _ h => h
  · rw [← Array.length_toList, (hb bytes h).1, (c.wf hchild).length_stretch hrange]
  · refine WF.fresh (view _ tags byteLen depth offset child) rfl
      (.view (c.wf hchild) hrange hdepth hchars) ?_ hb fun c' _ hlive =>
      WF.pure ⟨hlive, _, rfl⟩
    rintro node (_ | ⟨_, ⟨⟩⟩)
    exact hchild

/-! ## Leaves -/

/-- A leaf with the tags that a scan finds. -/
inductive Scanned (encoding : Encoding) (bytes : Bytes) : Rope → Prop
  | leaf {id : NodeId} {kind : LeafKind} : bytes.size ≤ Size.maxBuffer →
    kind.range = (encoding.scan bytes).range →
    Scanned encoding bytes (.leaf id kind encoding (encoding.scan bytes).charLen bytes)

theorem Scanned.charLen_eq (hkind : kind.range = (encoding.scan bytes).range)
    (h : kind.range = .asciiOnly) : (encoding.scan bytes).charLen = bytes.size := by
  rw [hkind, Encoding.scan_range_eq_asciiOnly_iff] at h
  rw [Encoding.scan_of_isAscii h.1 h.2]

theorem Scanned.wf (h : Scanned encoding bytes rope) : rope.WF := by
  cases h with
  | leaf hmax hkind => exact .leaf hmax (Scanned.charLen_eq hkind)

theorem Scanned.isResolved (h : Scanned encoding bytes rope) : rope.range.isResolved = true := by
  cases h with
  | @leaf _ kind => cases kind <;> rfl

theorem Scanned.children_eq (h : Scanned encoding bytes rope) : rope.children = [] := by
  cases h
  rfl

theorem Scanned.tags_eq (h : Scanned encoding bytes rope) :
    rope.tags = ⟨encoding, (encoding.scan bytes).range, (encoding.scan bytes).charLen⟩ := by
  cases h with
  | leaf _ hkind => exact congrArg (Tags.mk encoding · (encoding.scan bytes).charLen) hkind

theorem wf_ofBytes :
    RopeM.WF c (ofBytes bytes encoding)
      (fun rope c' => c'.live rope ∧ Scanned encoding bytes rope) (Overlong bytes.size) := by
  unfold ofBytes
  dsimp only
  split
  next kind hkind =>
    have hrange := LeafKind.range_of_ofRange? hkind
    refine wf_newLeaf.mono ?_ ?_
    · intro _ c' _ hresult
      obtain ⟨hlive, hmax, id, rfl⟩ := hresult
      exact ⟨hlive, .leaf hmax hrange⟩
    · intro fault hcases
      rcases hcases with h | ⟨-, hascii, hne⟩
      · exact h
      · exact absurd (Scanned.charLen_eq hrange hascii) hne
  next hkind =>
    exact absurd (LeafKind.ofRange?_eq_none hkind) (Encoding.scan_range_ne_unknown encoding bytes)

/-- A leaf of a good range that the caller says, with its characters counted. -/
inductive Claimed (encoding : Encoding) (bytes : Bytes) : Rope → Prop
  | asciiOnly {id : NodeId} : bytes.size ≤ Size.maxBuffer → encoding.isAsciiOnly bytes = true →
    Claimed encoding bytes (leaf id .asciiOnly encoding bytes.size bytes)
  | valid {id : NodeId} : bytes.size ≤ Size.maxBuffer → (encoding.scan bytes).range ≠ .broken →
    Claimed encoding bytes (leaf id .valid encoding (encoding.scan bytes).charLen bytes)

/-- A broken leaf with a number of characters that the caller says. -/
inductive Counted (encoding : Encoding) (bytes : Bytes) : Rope → Prop
  | leaf {id : NodeId} {charLen : Nat} : bytes.size ≤ Size.maxBuffer →
    (encoding.scan bytes).range = .broken →
    Counted encoding bytes (leaf id .invalid encoding charLen bytes)

theorem Claimed.wf (h : Claimed encoding bytes rope) : rope.WF := by
  cases h with
  | asciiOnly hmax => exact .leaf hmax fun _ => rfl
  | valid hmax => exact .leaf hmax nofun

theorem Counted.wf (h : Counted encoding bytes rope) : rope.WF := by
  cases h with
  | leaf hmax => exact .leaf hmax nofun

theorem Claimed.children_eq (h : Claimed encoding bytes rope) : rope.children = [] := by
  cases h <;> rfl

theorem Counted.children_eq (h : Counted encoding bytes rope) : rope.children = [] := by
  cases h
  rfl

theorem wf_asciiOnlyLeaf :
    RopeM.WF c (asciiOnlyLeaf bytes encoding)
      (fun rope c' => c'.live rope ∧ Claimed encoding bytes rope) fun _ => True := by
  unfold asciiOnlyLeaf
  split
  next hascii =>
    refine wf_newLeaf.mono ?_ fun _ _ => trivial
    intro _ c' _ hresult
    obtain ⟨hlive, hmax, id, rfl⟩ := hresult
    exact ⟨hlive, .asciiOnly hmax hascii⟩
  next => exact WF.throw trivial

theorem wf_validLeaf :
    RopeM.WF c (validLeaf bytes encoding)
      (fun rope c' => c'.live rope ∧ Claimed encoding bytes rope) fun _ => True := by
  unfold validLeaf
  dsimp only
  split
  next => exact WF.throw trivial
  next hrange =>
    refine wf_newLeaf.mono ?_ fun _ _ => trivial
    intro _ c' _ hresult
    obtain ⟨hlive, hmax, id, rfl⟩ := hresult
    exact ⟨hlive, .valid hmax hrange⟩

theorem wf_invalidLeaf :
    RopeM.WF c (invalidLeaf bytes encoding charLen)
      (fun rope c' => c'.live rope ∧ Counted encoding bytes rope) fun _ => True := by
  unfold invalidLeaf
  split
  next hinvalid =>
    refine wf_newLeaf.mono ?_ fun _ _ => trivial
    intro _ c' _ hresult
    obtain ⟨hlive, hmax, id, rfl⟩ := hresult
    exact ⟨hlive, .leaf hmax (of_decide_eq_true hinvalid)⟩
  next => exact WF.throw trivial

theorem wf_taggedLeaf :
    RopeM.WF c (taggedLeaf bytes tags)
      (fun rope c' => c'.live rope ∧ (Scanned tags.encoding bytes rope ∨
        Claimed tags.encoding bytes rope ∨ Counted tags.encoding bytes rope)) fun _ => True := by
  unfold taggedLeaf
  split
  next =>
    split
    · exact wf_asciiOnlyLeaf.mono (fun _ _ _ h => ⟨h.1, .inr (.inl h.2)⟩) fun _ _ => trivial
    · exact WF.throw trivial
  next =>
    dsimp only
    split
    · exact WF.throw trivial
    next hchars =>
      split
      · exact WF.throw trivial
      next hinvalid =>
        refine wf_newLeaf.mono ?_ fun _ _ => trivial
        intro _ c' _ hresult
        obtain ⟨hlive, hmax, id, rfl⟩ := hresult
        refine ⟨hlive, .inr (.inl ?_)⟩
        rw [← Decidable.not_not.mp hchars]
        exact .valid hmax fun h => hinvalid (decide_eq_true h)
  next => exact wf_invalidLeaf.mono (fun _ _ _ h => ⟨h.1, .inr (.inr h.2)⟩) fun _ _ => trivial
  next =>
    refine (wf_ofBytes.faults fun _ _ => trivial).bind fun rope c' _ h => ?_
    split
    · exact WF.pure ⟨h.1, .inl h.2⟩
    · exact WF.throw trivial

end Rope

end ByteRope
