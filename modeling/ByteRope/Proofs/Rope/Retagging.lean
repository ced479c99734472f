import ByteRope.Proofs.Rope.Making
import ByteRope.Proofs.Rope.Reading
import ByteRope.Rope.Retag

/-!
# Changing tags

What the transitions, resolving and copying into a leaf make. A new root has the octets and children
of the old one (`Rope.Retagged`), and it can be made if the tags say nothing of ASCII-only content
that is not so (`Rope.Bears`). Of resolving it is also said what becomes of the store
(`Rope.Resolution`).
-/

namespace ByteRope.Rope

open RopeM

variable {c : Census} {rope rope' : Rope} {tags : Tags} {encoding : Encoding} {bytes : Bytes}
  {store store' : Store}

/-! ## New roots -/

/-- A root with other tags over the same octets. -/
inductive Retagged (tags : Tags) : Rope → Rope → Prop
  | leaf {id id' : NodeId} {kind kind' : LeafKind} {encoding : Encoding} {charLen : Nat}
    {bytes : Bytes} : bytes.size ≤ Size.maxBuffer → kind'.range = tags.range →
    (tags.range = .asciiOnly → tags.charLen = bytes.size) →
    Retagged tags (.leaf id kind encoding charLen bytes)
      (.leaf id' kind' tags.encoding tags.charLen bytes)
  | join {id id' : NodeId} {old : Tags} {byteLen depth : Nat} {balanced : Bool}
    {left right : Rope} : (tags.range = .asciiOnly → tags.charLen = byteLen) →
    Retagged tags (.join id old byteLen depth balanced left right)
      (.join id' tags byteLen depth balanced left right)
  | view {id id' : NodeId} {old : Tags} {byteLen depth offset : Nat} {child : Rope} :
    (tags.range = .asciiOnly → tags.charLen = byteLen) →
    Retagged tags (.view id old byteLen depth offset child)
      (.view id' tags byteLen depth offset child)

namespace Retagged

theorem tags_eq (h : Retagged tags rope rope') : rope'.tags = tags := by
  cases h with
  | leaf _ hkind => rw [Rope.tags, hkind]
  | join | view => rfl

theorem encoding_eq (h : Retagged tags rope rope') : rope'.encoding = tags.encoding :=
  congrArg Tags.encoding h.tags_eq

theorem range_eq (h : Retagged tags rope rope') : rope'.range = tags.range :=
  congrArg Tags.range h.tags_eq

theorem charLen_eq (h : Retagged tags rope rope') : rope'.charLen = tags.charLen :=
  congrArg Tags.charLen h.tags_eq

theorem content_eq (h : Retagged tags rope rope') : rope'.content = rope.content := by
  cases h <;> rfl

theorem byteLen_eq (h : Retagged tags rope rope') : rope'.byteLen = rope.byteLen := by
  cases h <;> rfl

theorem wf (h : Retagged tags rope rope') (hwf : rope.WF) : rope'.WF := by
  cases h with
  | leaf hmax hkind hascii => exact .leaf hmax fun ha => hascii (hkind ▸ ha)
  | join hascii =>
    cases hwf with
    | join hl hr hlen hmax hdepth => exact .join hl hr hlen hmax hdepth hascii
  | view hascii =>
    cases hwf with
    | view hchild hrange hdepth => exact .view hchild hrange hdepth hascii

theorem children_eq (h : Retagged tags rope rope') : rope'.children = rope.children := by
  cases h <;> rfl

end Retagged

/-- The tags can stand at the root. The octets of leaves are looked at, and leaves are always
classified. -/
def Bears (tags : Tags) : Rope → Prop
  | leaf _ _ _ _ bytes => tags.range ≠ .unknown ∧
    (tags.range = .asciiOnly → tags.charLen = bytes.size ∧ tags.encoding.isAsciiOnly bytes = true)
  | join _ _ byteLen .. | view _ _ byteLen .. => tags.range = .asciiOnly → tags.charLen = byteLen

theorem wf_retag (h : c.live rope) :
    RopeM.WF c (rope.retag tags) (fun rope' c' => c'.live rope' ∧ Retagged tags rope rope')
      fun _ => ¬rope.Bears tags := by
  unfold retag
  split
  next id kind encoding charLen bytes =>
    split
    next hkind => exact WF.throw fun hbears => hbears.1 (LeafKind.ofRange?_eq_none hkind)
    next kind' hkind =>
      have hrange := LeafKind.range_of_ofRange? hkind
      split
      next hascii =>
        refine WF.throw fun hbears => hascii.2 (hbears.2 ?_).2
        rw [← hrange, hascii.1]
        rfl
      next =>
        refine wf_newLeaf.mono ?_ ?_
        · intro _ c' _ hresult
          obtain ⟨hlive, hmax, id', rfl⟩ := hresult
          refine ⟨hlive, .leaf hmax hrange fun ha => ?_⟩
          exact (c'.wf hlive).charLen_eq (hrange.trans ha)
        · rintro fault (⟨-, hlt⟩ | ⟨-, hascii, hne⟩) hbears
          · cases c.wf h with
            | leaf hmax => exact absurd hmax (Nat.not_le_of_lt hlt)
          · exact hne (hbears.2 (hrange ▸ hascii)).1
  next id old byteLen depth balanced left right =>
    apply WF.get
    cases c.wf h with
    | join _ _ hlen hmax hdepth =>
      refine (wf_newJoin ?_ ?_ hlen hmax hdepth fun bytes hb => c.bytes h hb).mono ?_ ?_
      · exact c.closed h (List.mem_cons_self ..)
      · exact c.closed h (List.mem_cons_of_mem _ (List.mem_cons_self ..))
      · intro _ c' _ hresult
        obtain ⟨hlive, id', rfl⟩ := hresult
        exact ⟨hlive, .join fun ha => (c'.wf hlive).charLen_eq ha⟩
      · rintro fault ⟨-, hascii, hne⟩ hbears
        exact hne (hbears hascii)
  next id old byteLen depth offset child =>
    apply WF.get
    cases c.wf h with
    | view _ hrange hdepth =>
      refine (wf_newView ?_ hrange hdepth fun bytes hb => c.bytes h hb).mono ?_ ?_
      · exact c.closed h (List.mem_cons_self ..)
      · intro _ c' _ hresult
        obtain ⟨hlive, id', rfl⟩ := hresult
        exact ⟨hlive, .view fun ha => (c'.wf hlive).charLen_eq ha⟩
      · rintro fault ⟨-, hascii, hne⟩ hbears
        exact hne (hbears hascii)

/-- The buffer that the root remembers beside octets that it owns. -/
def remembered? (store : Store) : Rope → Option Bytes
  | leaf .. => none
  | join id .. | view id .. => (store.cell id).bytes?

/-- A new root that starts with what the old one remembers has the buffer that the old one has. -/
theorem Retagged.raw?_eq (h : Retagged tags rope rope') (hid : rope'.id = store.cells.size) :
    (store.allocate (rope.remembered? store)).2.raw? rope' = store.raw? rope := by
  cases h with
  | leaf => rfl
  | join | view =>
    subst hid
    rw [Store.raw?, Store.cell_allocate]
    exact (congrArg Cell.bytes? (if_pos rfl)).trans rfl

/-- A new root gets a cell with the buffer that the old root remembers. -/
theorem retag_run (h : rope.retag tags store = .ok rope' store') :
    rope'.id = store.cells.size ∧ store' = (store.allocate (rope.remembered? store)).2 := by
  unfold retag at h
  cases rope with
  | leaf =>
    cases hkind : LeafKind.ofRange? tags.range with
    | none =>
      simp only [hkind] at h
      cases h
    | some kind =>
      simp only [hkind] at h
      split at h
      next => cases h
      next =>
        obtain ⟨_, -, h⟩ := exists_of_run_lift h
        obtain ⟨_, -, h⟩ := exists_of_run_lift h
        cases h
        exact ⟨rfl, rfl⟩
  | join | view =>
    obtain ⟨_, -, h⟩ := exists_of_run_lift h
    cases h
    exact ⟨rfl, rfl⟩

/-! ## Transitions -/

/-- The refusal of a transition from another range than it requires. -/
def Illegal (rope : Rope) (transition : Transition) (refusal : Refusal) : Prop :=
  refusal = .illegalTransition transition rope.range ∧ rope.range ≠ transition.required

/-- What a transition makes. -/
inductive Transitioned (rope : Rope) : Rope → Prop
  | sevenBit {rope' : Rope} {encoding : Encoding} : rope.range = .asciiOnly →
    encoding.isAsciiCompatible = true →
    Retagged ⟨encoding, .asciiOnly, rope.charLen⟩ rope rope' → Transitioned rope rope'
  | binary {rope' : Rope} : rope.range = .valid →
    Retagged ⟨.binary, .valid, rope.byteLen⟩ rope rope' → Transitioned rope rope'

theorem Transitioned.retagged (h : Transitioned rope rope') :
    ∃ tags, Retagged tags rope rope' := by
  cases h with
  | sevenBit _ _ hretagged => exact ⟨_, hretagged⟩
  | binary _ hretagged => exact ⟨_, hretagged⟩

theorem wf_toSevenBit? (h : c.live rope) :
    RopeM.WF c (rope.toSevenBit? encoding)
      (fun result c' => (∀ rope', result = .ok rope' → c'.live rope' ∧ Transitioned rope rope') ∧
        ∀ refusal, result = .error refusal → rope.Illegal .sevenBit refusal)
      fun _ => True := by
  unfold toSevenBit? checkTransition
  by_cases hrange : rope.range = Transition.required .sevenBit
  · rw [if_pos hrange]
    dsimp only
    split
    next hc =>
      refine ((wf_retag h).faults fun _ _ => trivial).bind fun rope' c' _ hq => ?_
      refine WF.pure ⟨?_, nofun⟩
      intro _ heq
      cases heq
      exact ⟨hq.1, .sevenBit hrange hc hq.2⟩
    next => exact WF.throw trivial
  · rw [if_neg hrange]
    refine WF.pure ⟨nofun, ?_⟩
    intro _ heq
    cases heq
    exact ⟨rfl, hrange⟩

/-- A leaf that is marked ASCII only and holds other octets. -/
def Mislabelled : Rope → Prop
  | leaf _ kind _ _ bytes => kind = .asciiOnly ∧ bytes.isAscii = false
  | join .. | view .. => False

instance : DecidablePred Mislabelled
  | leaf _ kind _ _ bytes =>
    inferInstanceAs (Decidable (kind = .asciiOnly ∧ bytes.isAscii = false))
  | join .. | view .. => inferInstanceAs (Decidable False)

/-- The tags of the transition can stand at the root of a rope that says ASCII only and is not
mislabelled. -/
theorem WF.bears_sevenBit (h : rope.WF) (hrange : rope.range = .asciiOnly)
    (hc : encoding.isAsciiCompatible = true) (hl : ¬rope.Mislabelled) :
    rope.Bears ⟨encoding, .asciiOnly, rope.charLen⟩ := by
  have hchars := h.charLen_eq hrange
  cases rope with
  | leaf id kind old charLen bytes =>
    have hkind : kind = .asciiOnly := by
      cases kind <;> first | rfl | cases hrange
    have hascii : bytes.isAscii = true := by
      by_contra hascii
      exact hl ⟨hkind, Bool.eq_false_iff.mpr hascii⟩
    refine ⟨nofun, fun _ => ⟨hchars, ?_⟩⟩
    rw [Encoding.isAsciiOnly, hc, hascii]
    rfl
  | join | view => exact fun _ => hchars

theorem toSevenBit?_of_ascii (hrange : rope.range = .asciiOnly) (encoding : Encoding) :
    rope.toSevenBit? encoding =
      if encoding.isAsciiCompatible then do
        return .ok (← rope.retag ⟨encoding, .asciiOnly, rope.charLen⟩)
      else throw (.cannotCarryAscii encoding) := by
  have hrequired : rope.range = Transition.required .sevenBit := hrange
  rw [toSevenBit?, checkTransition, if_pos hrequired]
  rfl

/-- The transition answers unless the rope says ASCII only and the encoding has no such content or
the octets that the rope owns are others. -/
theorem toSevenBit?_returns (h : c.live rope)
    (hc : rope.range = .asciiOnly → encoding.isAsciiCompatible = true ∧ ¬rope.Mislabelled) :
    ∃ answer store', rope.toSevenBit? encoding c.store = .ok answer store' := by
  by_cases hrange : rope.range = .asciiOnly
  · obtain ⟨hcompatible, hl⟩ := hc hrange
    rw [toSevenBit?_of_ascii hrange, if_pos hcompatible]
    rcases (wf_retag h).outcome with ⟨rope', c', hok, -⟩ | ⟨_, _, -, hbears⟩
    · exact ⟨.ok rope', c'.store, run_bind hok _⟩
    · exact absurd ((c.wf h).bears_sevenBit hrange hcompatible hl) hbears
  · have hrequired : ¬rope.range = Transition.required .sevenBit := hrange
    rw [toSevenBit?, checkTransition, if_neg hrequired]
    exact ⟨_, _, rfl⟩

theorem toSevenBit?_of_incompatible (hrange : rope.range = .asciiOnly)
    (hc : encoding.isAsciiCompatible = false) (store : Store) :
    rope.toSevenBit? encoding store = .error (.cannotCarryAscii encoding) store := by
  rw [toSevenBit?_of_ascii hrange, if_neg (Bool.eq_false_iff.mp hc)]
  rfl

theorem toSevenBit?_of_mislabelled (hl : rope.Mislabelled)
    (hc : encoding.isAsciiCompatible = true) (store : Store) :
    rope.toSevenBit? encoding store = .error .notAsciiOnly store := by
  cases rope with
  | leaf id kind old charLen bytes =>
    obtain ⟨rfl, hascii⟩ := hl
    have hother : ¬encoding.isAsciiOnly bytes = true := by
      rw [Encoding.isAsciiOnly, hascii, Bool.and_false]
      nofun
    have hretag : (leaf id .asciiOnly old charLen bytes).retag ⟨encoding, .asciiOnly, charLen⟩ =
        throw .notAsciiOnly := if_pos ⟨rfl, hother⟩
    rw [toSevenBit?_of_ascii rfl, if_pos hc]
    change (retag _ ⟨encoding, .asciiOnly, charLen⟩ >>= _) store = _
    rw [hretag]
    rfl
  | join | view => exact hl.elim

theorem wf_toSevenBit (h : c.live rope) :
    RopeM.WF c (rope.toSevenBit encoding)
      (fun rope' c' => c'.live rope' ∧ Transitioned rope rope') fun _ => True :=
  WF.insist ((wf_toSevenBit? h).results fun _ _ _ hq => ⟨hq.1, fun _ _ => trivial⟩)

theorem wf_toBinary? (h : c.live rope) :
    RopeM.WF c rope.toBinary?
      (fun result c' => (∀ rope', result = .ok rope' → c'.live rope' ∧ Transitioned rope rope') ∧
        ∀ refusal, result = .error refusal → rope.Illegal .binary refusal)
      fun _ => False := by
  unfold toBinary? checkTransition
  by_cases hrange : rope.range = Transition.required .binary
  · rw [if_pos hrange]
    refine ((wf_retag h).faults fun _ hbears => hbears ?_).bind
      fun rope' c' _ hq => ?_
    · cases rope with
      | leaf => exact ⟨nofun, nofun⟩
      | join | view => exact nofun
    · refine WF.pure ⟨?_, nofun⟩
      intro _ heq
      cases heq
      exact ⟨hq.1, .binary hrange hq.2⟩
  · rw [if_neg hrange]
    refine WF.pure ⟨nofun, ?_⟩
    intro _ heq
    cases heq
    exact ⟨rfl, hrange⟩

theorem wf_toBinary (h : c.live rope) :
    RopeM.WF c rope.toBinary (fun rope' c' => c'.live rope' ∧ Transitioned rope rope')
      fun fault => ∃ refusal, fault = .refused refusal ∧ rope.Illegal .binary refusal :=
  WF.insist ((wf_toBinary? h).mono
    (fun _ _ _ hq => ⟨hq.1, fun _ hrefusal => ⟨_, rfl, hq.2 _ hrefusal⟩⟩) fun _ => False.elim)

/-! ## Resolving -/

/-- What a scan finds of the content. -/
def scanned (rope : Rope) : ScanResult := rope.encoding.scan rope.content.toArray

/-- What resolving makes. -/
inductive Resolved (rope : Rope) : Rope → Prop
  | good : rope.range.isGood = true → Resolved rope rope
  | right : rope.scanned = ⟨rope.range, rope.charLen⟩ → Resolved rope rope
  | retagged {rope' : Rope} : rope.range.isGood = false →
    Retagged ⟨rope.encoding, rope.scanned.range, rope.scanned.charLen⟩ rope rope' →
    Resolved rope rope'

theorem Resolved.cases (h : Resolved rope rope') :
    rope' = rope ∨ ∃ tags, Retagged tags rope rope' := by
  cases h with
  | good | right => exact .inl rfl
  | retagged _ hretagged => exact .inr ⟨_, hretagged⟩

theorem Resolved.encoding_eq (h : Resolved rope rope') : rope'.encoding = rope.encoding := by
  cases h with
  | good | right => rfl
  | retagged _ hretagged => exact hretagged.encoding_eq

theorem Resolved.content_eq (h : Resolved rope rope') : rope'.content = rope.content := by
  cases h with
  | good | right => rfl
  | retagged _ hretagged => exact hretagged.content_eq

theorem WF.bears_scanned (h : rope.WF) :
    rope.Bears ⟨rope.encoding, rope.scanned.range, rope.scanned.charLen⟩ := by
  have hlen (ha : rope.scanned.range = .asciiOnly) : rope.scanned.charLen = rope.byteLen := by
    obtain ⟨hc, hascii⟩ := Encoding.scan_range_eq_asciiOnly_iff.mp ha
    rw [scanned, Encoding.scan_of_isAscii hc hascii, ← h.length_content]
    rfl
  cases rope with
  | leaf id kind encoding charLen bytes =>
    refine ⟨Encoding.scan_range_ne_unknown encoding _, fun ha => ⟨hlen ha, ?_⟩⟩
    obtain ⟨hc, hascii⟩ := Encoding.scan_range_eq_asciiOnly_iff.mp ha
    rw [Encoding.isAsciiOnly, hc]
    exact hascii
  | join | view => exact hlen

/-- The event of a scan. -/
def resolvedEvent (rope : Rope) : Event :=
  .rangeResolved rope.range rope.scanned.range rope.scanned.charLen

/-- What resolving makes of a rope and of the store. -/
inductive Resolution (rope : Rope) (store : Store) : Rope → Store → Prop
  | good : rope.range.isGood = true → Resolution rope store rope store
  | right : rope.range.isGood = false → rope.scanned = ⟨rope.range, rope.charLen⟩ →
    Resolution rope store rope (store.record rope.resolvedEvent)
  | retagged {rope' : Rope} : rope.range.isGood = false →
    rope.scanned ≠ ⟨rope.range, rope.charLen⟩ →
    Retagged ⟨rope.encoding, rope.scanned.range, rope.scanned.charLen⟩ rope rope' →
    rope'.id = store.cells.size →
    Resolution rope store rope'
      ((store.record rope.resolvedEvent).allocate (rope.remembered? store)).2

/-- Resolving always ends with a rope. -/
theorem exists_resolution (h : c.live rope) :
    ∃ rope' c', c ≤ c' ∧ c'.live rope' ∧ rope.resolve c.store = .ok rope' c'.store ∧
      Resolution rope c.store rope' c'.store := by
  have hwf := c.wf h
  by_cases hgood : rope.range.isGood = true
  · refine ⟨rope, c, c.le_refl, h, ?_, .good hgood⟩
    rw [resolve, if_pos hgood]
    rfl
  · have hbad : rope.range.isGood = false := Bool.eq_false_iff.mpr hgood
    have hscan := scanRange_eq h (Nat.le_of_eq (Nat.zero_add rope.byteLen))
    rw [hwf.stretch_all] at hscan
    have hrun : rope.resolve c.store =
        (if rope.scanned.range = rope.range ∧ rope.scanned.charLen = rope.charLen then pure rope
          else rope.retag ⟨rope.encoding, rope.scanned.range, rope.scanned.charLen⟩)
          (c.record rope.resolvedEvent).store := by
      rw [resolve, if_neg hgood, run_bind hscan]
      rfl
    have hle : c ≤ c.record rope.resolvedEvent := Census.le_record
    by_cases hsame : rope.scanned.range = rope.range ∧ rope.scanned.charLen = rope.charLen
    · rw [if_pos hsame] at hrun
      refine ⟨rope, _, hle, hle.live h, hrun, .right hbad ?_⟩
      rw [← hsame.1, ← hsame.2]
    · rw [if_neg hsame] at hrun
      have hwrong : rope.scanned ≠ ⟨rope.range, rope.charLen⟩ := by
        intro heq
        rw [heq] at hsame
        exact hsame ⟨rfl, rfl⟩
      rcases (wf_retag (hle.live h)).outcome with
        ⟨rope', c', hretag, hle', hlive, hretagged⟩ | hfault
      · obtain ⟨hid, hstore⟩ := retag_run hretag
        refine ⟨rope', c', Census.le_trans hle hle', hlive, hrun.trans hretag, ?_⟩
        rw [hstore]
        exact .retagged hbad hwrong hretagged hid
      · obtain ⟨_, _, -, hbears⟩ := hfault
        exact absurd hwf.bears_scanned hbears

theorem Resolution.resolved (h : Resolution rope store rope' store') : Resolved rope rope' := by
  cases h with
  | good hgood => exact .good hgood
  | right _ hright => exact .right hright
  | retagged hbad _ hretagged => exact .retagged hbad hretagged

theorem wf_resolve (h : c.live rope) :
    RopeM.WF c rope.resolve (fun rope' c' => c'.live rope' ∧ Resolved rope rope')
      fun _ => False := by
  obtain ⟨rope', c', hle, hlive, hrun, hresolution⟩ := exists_resolution h
  rw [RopeM.WF, hrun]
  exact ⟨c', rfl, hle, hlive, hresolution.resolved⟩

/-! ## Copying into a leaf -/

/-- The content in a leaf. -/
inductive Leafed : Rope → Rope → Prop
  | same {id : NodeId} {kind : LeafKind} {encoding : Encoding} {charLen : Nat} {bytes : Bytes} :
    Leafed (.leaf id kind encoding charLen bytes) (.leaf id kind encoding charLen bytes)
  | copied {rope : Rope} {id : NodeId} {kind : LeafKind} {bytes : Bytes} :
    rope.HeldBy bytes → kind.range = rope.range →
    Leafed rope (.leaf id kind rope.encoding rope.charLen bytes)
  | scanned {rope leaf : Rope} {bytes : Bytes} : rope.HeldBy bytes → rope.range = .unknown →
    Scanned rope.encoding bytes leaf → Leafed rope leaf

theorem wf_toLeaf_of_flatten (h : c.live rope) :
    RopeM.WF c
      (do
        let bytes ← rope.flatten
        match LeafKind.ofRange? rope.range with
        | none => ofBytes bytes rope.encoding
        | some kind =>
          checkNode rope.tags rope.byteLen (some bytes)
          newLeaf kind rope.encoding rope.charLen bytes)
      (fun leaf c' => c'.live leaf ∧ Leafed rope leaf) (Overlong rope.byteLen) := by
  have hwf := c.wf h
  refine (wf_flatten h).bind fun bytes c' _ hb => ?_
  have hsize := hwf.size_of_heldBy hb
  split
  next hkind =>
    refine wf_ofBytes.mono ?_ fun _ hlong => hsize ▸ hlong
    intro leaf c'' _ hresult
    obtain ⟨hlive, hscanned⟩ := hresult
    exact ⟨hlive, .scanned hb (LeafKind.ofRange?_eq_none hkind) hscanned⟩
  next kind hkind =>
    have hrange := LeafKind.range_of_ofRange? hkind
    have hbuffer : ∀ found, some bytes = some found → found.size = rope.byteLen :=
      fun _ heq => Option.some.inj heq ▸ hsize
    refine wf_checkNode hbuffer (fun _ => wf_newLeaf.mono ?_ ?_) fun _ hfault =>
      absurd (hwf.charLen_eq hfault.2.1) hfault.2.2
    · intro _ c'' _ hresult
      obtain ⟨hlive, -, id, rfl⟩ := hresult
      exact ⟨hlive, .copied hb hrange⟩
    · intro fault hcases
      rcases hcases with hlong | ⟨-, hascii, hne⟩
      · exact hsize ▸ hlong
      · rw [hrange] at hascii
        rw [hsize] at hne
        exact absurd (hwf.charLen_eq hascii) hne

theorem wf_toLeaf (h : c.live rope) :
    RopeM.WF c rope.toLeaf (fun leaf c' => c'.live leaf ∧ Leafed rope leaf)
      (Overlong rope.byteLen) := by
  cases rope with
  | leaf => exact WF.pure ⟨h, .same⟩
  | join | view => exact wf_toLeaf_of_flatten h

namespace Leafed

variable {leaf : Rope}

theorem content_eq (h : Leafed rope leaf) : leaf.content = rope.content := by
  cases h with
  | same => rfl
  | copied hb => exact hb.1
  | scanned hb _ hscanned =>
    cases hscanned
    exact hb.1

theorem encoding_eq (h : Leafed rope leaf) : leaf.encoding = rope.encoding := by
  cases h with
  | same | copied => rfl
  | scanned _ _ hscanned =>
    cases hscanned
    rfl

theorem range_eq (h : Leafed rope leaf) (hknown : rope.range ≠ .unknown) :
    leaf.range = rope.range := by
  cases h with
  | same => rfl
  | copied _ hkind => exact hkind
  | scanned _ hunknown => exact absurd hunknown hknown

theorem tags_eq (h : Leafed rope leaf) (hknown : rope.range ≠ .unknown) :
    leaf.tags = rope.tags := by
  cases h with
  | same => rfl
  | copied _ hkind => exact congrArg (Tags.mk rope.encoding · rope.charLen) hkind
  | scanned _ hunknown => exact absurd hunknown hknown

theorem tags_eq_scanned (h : Leafed rope leaf) (hunknown : rope.range = .unknown) :
    leaf.tags = ⟨rope.encoding, rope.scanned.range, rope.scanned.charLen⟩ := by
  cases h with
  | @same _ kind => exact absurd hunknown kind.range_ne_unknown
  | @copied _ _ kind _ _ hkind => exact absurd (hkind.trans hunknown) kind.range_ne_unknown
  | scanned hb _ hscanned =>
    cases hscanned with
    | leaf _ hkind =>
      rw [Rope.scanned, ← hb.1, Array.toArray_toList]
      exact congrArg (Tags.mk rope.encoding · _) hkind

theorem exists_leaf (h : Leafed rope leaf) :
    ∃ id kind encoding charLen bytes, leaf = .leaf id kind encoding charLen bytes := by
  cases h with
  | same | copied => exact ⟨_, _, _, _, _, rfl⟩
  | scanned _ _ hscanned =>
    cases hscanned
    exact ⟨_, _, _, _, _, rfl⟩

theorem charLen_eq (h : Leafed rope leaf) :
    leaf.charLen = if rope.range = .unknown then rope.scanned.charLen else rope.charLen := by
  cases h with
  | @same _ kind => exact (if_neg kind.range_ne_unknown).symm
  | @copied _ _ kind _ _ hkind =>
    rw [if_neg (hkind ▸ kind.range_ne_unknown)]
    rfl
  | scanned hb hunknown hscanned =>
    cases hscanned
    rw [if_pos hunknown, Rope.scanned, ← hb.1, Array.toArray_toList]
    rfl

theorem depth_eq (h : Leafed rope leaf) : leaf.depth = 0 := by
  cases h with
  | same | copied => rfl
  | scanned _ _ hscanned =>
    cases hscanned
    rfl

theorem isBalanced (h : Leafed rope leaf) : leaf.isBalanced = true := by
  cases h with
  | same | copied => rfl
  | scanned _ _ hscanned =>
    cases hscanned
    rfl

theorem children_eq (h : Leafed rope leaf) : leaf.children = [] := by
  cases h with
  | same | copied => rfl
  | scanned _ _ hscanned => exact hscanned.children_eq

theorem wf (h : Leafed rope leaf) (hwf : rope.WF) : leaf.WF := by
  cases h with
  | same => exact hwf
  | copied hb hkind =>
    refine .leaf hb.2 fun hascii => ?_
    rw [hwf.size_of_heldBy hb]
    exact hwf.charLen_eq (hkind ▸ hascii)
  | scanned _ _ hscanned => exact hscanned.wf

theorem byteLen_eq (h : Leafed rope leaf) (hwf : rope.WF) : leaf.byteLen = rope.byteLen :=
  hwf.byteLen_eq (h.wf hwf) h.content_eq

theorem byteLen_le (h : Leafed rope leaf) (hwf : rope.WF) : rope.byteLen ≤ Size.maxBuffer := by
  cases h with
  | same =>
    cases hwf with
    | leaf hmax => exact hmax
  | copied hb | scanned hb => exact hwf.size_of_heldBy hb ▸ hb.2

end Leafed

end ByteRope.Rope
