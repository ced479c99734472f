import ByteRope.Proofs.Rope.Collecting
import ByteRope.Proofs.Rope.Rebalancing
import ByteRope.Proofs.Rope.Slicing
import ByteRope.Proofs.Store.Twins

/-!
# Operations side by side

Every operation on ropes ends alike from two stores in which equally many nodes have been named
(`RopeM.Agree`), whichever nodes remember their content in the one and in the other. What is made
depends on the store through two things only: the names of new nodes, which count those named
before, and octets, which are the content wherever they are found.
-/

namespace ByteRope.Rope

open RopeM

variable {t : Twins} {rope left right child piece : Rope} {tags : Tags} {encoding : Encoding}
  {kind : LeafKind} {bytes : Bytes} {policy : BalancePolicy} {offset len index : Nat}

/-! ## Making nodes -/

theorem blind_newLeaf (charLen : Nat) : Blind (newLeaf kind encoding charLen bytes) :=
  (Blind.lift _).bind fun _ => (Blind.lift _).bind fun _ => (Blind.fresh _).bind fun _ => .pure _

theorem blind_newJoin (byteLen depth : Nat) (balanced : Bool) (bytes? : Option Bytes) :
    Blind (newJoin tags byteLen depth balanced left right bytes?) :=
  (Blind.lift _).bind fun _ => (Blind.fresh _).bind fun _ => .pure _

theorem blind_newView (byteLen depth : Nat) (bytes? : Option Bytes) :
    Blind (newView tags byteLen depth offset child bytes?) :=
  (Blind.lift _).bind fun _ => (Blind.fresh _).bind fun _ => .pure _

theorem blind_ofBytes : Blind (ofBytes bytes encoding) := by
  unfold ofBytes
  dsimp only
  split
  · exact blind_newLeaf _
  · exact .throw _

theorem blind_asciiOnlyLeaf : Blind (asciiOnlyLeaf bytes encoding) := by
  unfold asciiOnlyLeaf
  split
  · exact blind_newLeaf _
  · exact .throw _

theorem blind_validLeaf : Blind (validLeaf bytes encoding) := by
  unfold validLeaf
  dsimp only
  split
  · exact .throw _
  · exact blind_newLeaf _

theorem blind_invalidLeaf (charLen : Nat) : Blind (invalidLeaf bytes encoding charLen) := by
  unfold invalidLeaf
  split
  · exact blind_newLeaf _
  · exact .throw _

theorem blind_taggedLeaf : Blind (taggedLeaf bytes tags) := by
  unfold taggedLeaf
  split
  next =>
    split
    · exact blind_asciiOnlyLeaf
    · exact .throw _
  next =>
    dsimp only
    split
    · exact .throw _
    · split
      · exact .throw _
      · exact blind_newLeaf _
  next => exact blind_invalidLeaf _
  next =>
    refine blind_ofBytes.bind fun rope => ?_
    split
    · exact .pure _
    · exact .throw _

theorem blind_taggedJoin (range : CodeRange) (depth : Nat) (balanced : Bool) :
    Blind (left.taggedJoin right encoding range depth balanced) := by
  unfold taggedJoin
  split
  · exact (Blind.lift _).bind fun _ => (Blind.lift _).bind fun _ => blind_newJoin _ _ _ _
  · exact .throw _

theorem blind_concat : Blind (left.concat right policy) := by
  unfold concat
  split
  · exact .pure _
  · split
    · exact .pure _
    · exact (Blind.lift _).bind fun _ => blind_taggedJoin _ _ _

theorem blind_taggedView : Blind (child.taggedView tags offset len) := by
  unfold taggedView
  split
  · exact .throw _
  · exact blind_newView _ _ _

/-- A computation that looks at no cell and leaves the rope it makes in use. -/
theorem agree_of_blind {m : RopeM Rope} {Q : Rope → Census → Prop} {E E' : Fault → Prop}
    (h : Blind m) (hleft : RopeM.WF t.left m (fun made c => c.live made ∧ Q made c) E)
    (hright : RopeM.WF t.right m (fun made c => c.live made ∧ Q made c) E') :
    Agree t m fun made t' => t'.Live made :=
  (Agree.of_blind h hleft hright).mono fun _ _ _ hq => ⟨hq.1.1, hq.2.1⟩

theorem agree_ofBytes : Agree t (ofBytes bytes encoding) fun leaf t' => t'.Live leaf :=
  agree_of_blind blind_ofBytes wf_ofBytes wf_ofBytes

theorem agree_asciiOnlyLeaf :
    Agree t (asciiOnlyLeaf bytes encoding) fun leaf t' => t'.Live leaf :=
  agree_of_blind blind_asciiOnlyLeaf wf_asciiOnlyLeaf wf_asciiOnlyLeaf

theorem agree_validLeaf : Agree t (validLeaf bytes encoding) fun leaf t' => t'.Live leaf :=
  agree_of_blind blind_validLeaf wf_validLeaf wf_validLeaf

theorem agree_invalidLeaf (charLen : Nat) :
    Agree t (invalidLeaf bytes encoding charLen) fun leaf t' => t'.Live leaf :=
  agree_of_blind (blind_invalidLeaf charLen) wf_invalidLeaf wf_invalidLeaf

theorem agree_taggedLeaf : Agree t (taggedLeaf bytes tags) fun leaf t' => t'.Live leaf :=
  agree_of_blind blind_taggedLeaf wf_taggedLeaf wf_taggedLeaf

theorem agree_newLeaf (charLen : Nat) :
    Agree t (newLeaf kind encoding charLen bytes) fun leaf t' => t'.Live leaf :=
  agree_of_blind (blind_newLeaf charLen) wf_newLeaf wf_newLeaf

theorem agree_taggedJoin (hl : t.Live left) (hr : t.Live right) (range : CodeRange) (depth : Nat)
    (balanced : Bool) :
    Agree t (left.taggedJoin right encoding range depth balanced) fun joined t' => t'.Live joined :=
  agree_of_blind (blind_taggedJoin range depth balanced) (wf_taggedJoin' hl.left hr.left ..)
    (wf_taggedJoin' hl.right hr.right ..)

theorem agree_concat (hl : t.Live left) (hr : t.Live right) :
    Agree t (left.concat right policy) fun joined t' => t'.Live joined :=
  agree_of_blind blind_concat (wf_concat hl.left hr.left) (wf_concat hl.right hr.right)

theorem agree_chain (hrope : t.Live rope) (hpiece : t.Live piece) (front : Bool) (count : Nat) :
    Agree t (rope.chain piece front policy count) fun longer t' => t'.Live longer := by
  refine Agree.iterate (fun longer t' hle hlonger => ?_) count hrope
  split
  · exact agree_concat (hpiece.mono hle) hlonger
  · exact agree_concat hlonger (hpiece.mono hle)

theorem agree_taggedView (hchild : t.Live child) :
    Agree t (child.taggedView tags offset len) fun slice t' => t'.Live slice :=
  agree_of_blind blind_taggedView (wf_taggedView hchild.left) (wf_taggedView hchild.right)

/-! ## Reading -/

theorem frugal_flatten (rope : Rope) : Frugal rope.flatten := by
  have hassemble (rope : Rope) : Frugal rope.assemble :=
    .get fun _ => (Frugal.lift _).bind fun _ => (Frugal.emit _).bind fun _ => .pure _
  refine .get fun store => ?_
  split
  · exact .pure _
  · refine Frugal.bind ?_ fun bytes => (Frugal.publish _ _).bind fun _ => .pure _
    unfold copyOut
    split
    · refine .get fun store => ?_
      split
      · exact (Frugal.lift _).bind fun _ => .pure _
      · exact hassemble _
    · exact hassemble _
    · exact hassemble _

theorem frugal_toLossyText (rope : Rope) : Frugal rope.toLossyText :=
  rope.frugal_flatten.bind fun _ => .pure _

theorem frugal_digest (rope : Rope) : Frugal rope.digest := by
  refine .get fun store => ?_
  split
  · exact .pure _
  · exact rope.frugal_flatten.bind fun _ => .get fun _ => (Frugal.memoize _ _).bind fun _ => .pure _

/-- Where the content is copied from does not show. -/
theorem outcome_flatten {c : Census} (h : c.live rope) :
    rope.flatten.outcome c.store =
      if rope.byteLen ≤ Size.maxBuffer then .ok rope.content.toArray
      else .error .capacityOverflow := by
  refine ((wf_flatten h).mono ?_ fun _ hlong => ⟨hlong.1, Nat.not_le_of_lt hlong.2⟩).outcome_eq
  intro bytes c' hle hheld
  exact ⟨Array.toList_inj.mp hheld.1, (c'.wf (hle.live h)).size_of_heldBy hheld ▸ hheld.2⟩

theorem agree_flatten (h : t.Live rope) :
    Agree t rope.flatten fun bytes _ => bytes.toList = rope.content :=
  (Agree.of_match (rope.frugal_flatten.run_match
    ((outcome_flatten h.left).trans (outcome_flatten h.right).symm) t.size_eq)
    (wf_flatten h.left) (wf_flatten h.right)).mono fun _ _ _ hq => hq.1.1

theorem agree_toLossyText (h : t.Live rope) : Agree t rope.toLossyText fun _ _ => True :=
  (agree_flatten h).bind fun _ _ _ _ => .pure trivial

theorem agree_digest (h : t.Live rope) :
    Agree t rope.digest
      fun digest t' => digest = t'.left.store.digestOf rope.encoding rope.content.toArray := by
  have houtcome := outcome_digest h.left
  rw [t.digestOf_eq, ← outcome_digest h.right] at houtcome
  refine (Agree.of_match (rope.frugal_digest.run_match houtcome t.size_eq) (wf_digest h.left)
    (wf_digest h.right)).mono fun digest t' hle hq => ?_
  rw [hle.left.digestOf]
  exact hq.1.1

theorem agree_byte? (h : t.Live rope) (index : Nat) :
    Agree t (rope.byte? index) fun _ _ => True :=
  .of_eq (byte?_eq h.left index) (byte?_eq h.right index) trivial

theorem agree_byteAt (h : t.Live rope) (index : Nat) :
    Agree t (rope.byteAt index) fun _ _ => True := by
  cases hbyte : rope.content[index]? with
  | some byte => exact .of_eq (byteAt_eq h.left hbyte) (byteAt_eq h.right hbyte) trivial
  | none =>
    have hlen : rope.byteLen ≤ index :=
      (t.left.wf h.left).length_content ▸ List.getElem?_eq_none_iff.mp hbyte
    exact .of_error (byteAt_of_le h.left hlen) (byteAt_of_le h.right hlen)

theorem agree_allBytes (h : t.Live rope) : Agree t rope.allBytes fun _ _ => True := by
  have hleft := allBytes_eq h.left
  have hright := allBytes_eq h.right
  split at hleft
  next hmax => exact .of_eq hleft (by rwa [if_pos hmax] at hright) trivial
  next hmax => exact .of_error hleft (by rwa [if_neg hmax] at hright)

theorem agree_copyRange (h : t.Live rope) :
    Agree t (rope.copyRange offset len) fun _ _ => True := by
  by_cases hr : offset + len ≤ rope.byteLen
  · exact .of_eq (copyRange_eq h.left hr) (copyRange_eq h.right hr) trivial
  · have hlt := Nat.lt_of_not_le hr
    exact .of_eq (copyRange_of_lt hlt _) (copyRange_of_lt hlt _) trivial

theorem agree_equal (hl : t.Live left) (hr : t.Live right) :
    Agree t (left.equal right) fun _ _ => True :=
  .of_eq (equal_eq hl.left hr.left) (equal_eq hl.right hr.right) trivial

/-! ## Changing tags -/

/-- A node passes its checks with any buffer that holds its content, and with none. -/
theorem checkNode_of_size {byteLen : Nat} {bytes? : Option Bytes}
    (h : ∀ bytes, bytes? = some bytes → bytes.size = byteLen) :
    checkNode tags byteLen bytes? = checkNode tags byteLen none := by
  unfold checkNode
  cases bytes? with
  | none => rfl
  | some bytes => simp only [h bytes rfl, if_true]

/-- Nodes that start with buffers of the right length, or with none, are made alike. -/
theorem match_node {byteLen : Nat} {bytes? bytes?' : Option Bytes} {store store' : Store}
    (h : ∀ bytes, bytes? = some bytes → bytes.size = byteLen)
    (h' : ∀ bytes, bytes?' = some bytes → bytes.size = byteLen) (node : NodeId → Rope)
    (hsize : store.cells.size = store'.cells.size) :
    Match
      ((do
        checkNode tags byteLen bytes?
        return node (← fresh bytes?) : RopeM Rope) store)
      ((do
        checkNode tags byteLen bytes?'
        return node (← fresh bytes?') : RopeM Rope) store') := by
  rw [run_lift_bind, run_lift_bind, checkNode_of_size h, checkNode_of_size h']
  cases checkNode tags byteLen none with
  | error fault => exact .error hsize
  | ok =>
    change Match (.ok (node store.cells.size) (store.allocate bytes?).2)
      (.ok (node store'.cells.size) (store'.allocate bytes?').2)
    rw [hsize]
    exact .ok (by simp [Store.allocate, hsize])

/-- The new root takes over the buffer of the old one if there is one. -/
theorem match_retag (h : t.Live rope) :
    Match (rope.retag tags t.left.store) (rope.retag tags t.right.store) := by
  have hcell {c : Census} (hlive : c.live rope) (bytes : Bytes)
      (hb : (c.store.cell rope.id).bytes? = some bytes) : bytes.size = rope.byteLen :=
    (c.wf hlive).size_of_heldBy (c.bytes hlive hb)
  cases rope with
  | leaf id kind old charLen bytes =>
    have hblind : Blind ((leaf id kind old charLen bytes).retag tags) := by
      unfold retag
      dsimp only
      split
      · exact .throw _
      · split
        · exact .throw _
        · exact blind_newLeaf _
    exact hblind _ _ t.size_eq
  | join id old byteLen depth balanced l r =>
    exact match_node (hcell h.left) (hcell h.right)
      (fun id => join id tags byteLen depth balanced l r) t.size_eq
  | view id old byteLen depth offset child =>
    exact match_node (hcell h.left) (hcell h.right)
      (fun id => view id tags byteLen depth offset child) t.size_eq

theorem agree_retag (h : t.Live rope) : Agree t (rope.retag tags) fun root t' => t'.Live root :=
  (Agree.of_match (match_retag h) (wf_retag h.left) (wf_retag h.right)).mono
    fun _ _ _ hq => ⟨hq.1.1, hq.2.1⟩

theorem agree_toSevenBit? (h : t.Live rope) :
    Agree t (rope.toSevenBit? encoding)
      fun result t' => ∀ root, result = .ok root → t'.Live root := by
  unfold toSevenBit?
  split
  · exact .pure nofun
  · split
    · refine (agree_retag h).bind fun root t' _ hroot => .pure ?_
      rintro _ ⟨⟩
      exact hroot
    · exact .throw

theorem agree_toSevenBit (h : t.Live rope) :
    Agree t (rope.toSevenBit encoding) fun root t' => t'.Live root :=
  .insist (agree_toSevenBit? h)

theorem agree_toBinary? (h : t.Live rope) :
    Agree t rope.toBinary? fun result t' => ∀ root, result = .ok root → t'.Live root := by
  unfold toBinary?
  split
  · exact .pure nofun
  · refine (agree_retag h).bind fun root t' _ hroot => .pure ?_
    rintro _ ⟨⟩
    exact hroot

theorem agree_toBinary (h : t.Live rope) : Agree t rope.toBinary fun root t' => t'.Live root :=
  .insist (agree_toBinary? h)

theorem agree_resolve (h : t.Live rope) : Agree t rope.resolve fun root t' => t'.Live root := by
  have hr : 0 + rope.byteLen ≤ rope.byteLen := Nat.le_of_eq (Nat.zero_add _)
  unfold resolve
  split
  · exact .pure h
  · refine .reads (scanRange_eq h.left hr) (scanRange_eq h.right hr) (.emit fun t' hle => ?_)
    split
    · exact .pure (h.mono hle)
    · exact agree_retag (h.mono hle)

theorem agree_toLeaf (h : t.Live rope) : Agree t rope.toLeaf fun leaf t' => t'.Live leaf := by
  unfold toLeaf
  split
  · exact .pure h
  all_goals
    refine (agree_flatten h).bind fun bytes t' _ _ => ?_
    split
    · exact agree_ofBytes
    · exact .lift fun _ _ => agree_newLeaf _

/-! ## Slices -/

theorem agree_slice? (h : t.Live rope) :
    Agree t (rope.slice? offset len)
      fun result t' => ∀ slice, result = .ok slice → t'.Live slice := by
  unfold slice? checkRange
  by_cases hr : offset + len ≤ rope.byteLen
  · rw [if_pos hr]
    dsimp only
    split
    · refine .pure ?_
      rintro _ ⟨⟩
      exact h
    · split
      · refine agree_ofBytes.bind fun slice t' _ hslice => .pure ?_
        rintro _ ⟨⟩
        exact hslice
      · obtain ⟨target, start, hok, hwithin, -, -⟩ := covering_eq (t.left.wf h.left) hr
        have htarget := h.of_within hwithin
        rw [hok]
        refine .reads rfl rfl ?_
        dsimp only
        split
        · refine .pure ?_
          rintro _ ⟨⟩
          exact htarget
        · refine .reads (sliceTags_eq h.left hr) (sliceTags_eq h.right hr) ?_
          refine (agree_taggedView htarget).bind fun slice t' _ hslice => .pure ?_
          rintro _ ⟨⟩
          exact hslice
  · rw [if_neg hr]
    exact .pure nofun

theorem agree_slice (h : t.Live rope) :
    Agree t (rope.slice offset len) fun slice t' => t'.Live slice :=
  .insist (agree_slice? h)

/-! ## Rebalancing -/

theorem agree_settle (h : t.Live piece) :
    Agree t piece.settle fun settled t' => t'.Live settled := by
  unfold settle
  split
  · split
    · exact .pure h
    · exact agree_toLeaf h
  all_goals exact .pure h

theorem agree_pairAfter {done : Array Rope} {ropes : List Rope}
    (hdone : ∀ rope ∈ done.toList, t.Live rope) (hropes : ∀ rope ∈ ropes, t.Live rope) :
    Agree t (pairAfter policy done ropes) fun paired t' => ∀ rope ∈ paired, t'.Live rope := by
  fun_induction pairAfter policy done ropes generalizing t with
  | case1 done => exact .pure hdone
  | case2 done last =>
    refine .pure fun rope hmem => ?_
    rw [Array.toList_push] at hmem
    rcases List.mem_append.mp hmem with hold | hnew
    · exact hdone rope hold
    · exact hropes rope hnew
  | case3 done left right rest ih =>
    simp only [List.forall_mem_cons] at hropes
    refine (agree_concat hropes.1 hropes.2.1).bind fun joined t' hle hjoined => ?_
    refine ih joined (fun rope hmem => ?_) fun rope hmem => (hropes.2.2 rope hmem).mono hle
    rw [Array.toList_push] at hmem
    rcases List.mem_append.mp hmem with hold | hnew
    · exact (hdone rope hold).mono hle
    · exact List.mem_singleton.mp hnew ▸ hjoined

theorem agree_pairUp (count : Nat) {ropes : List Rope} (hropes : ∀ rope ∈ ropes, t.Live rope) :
    Agree t (pairUp policy count ropes) fun paired t' => ∀ rope ∈ paired, t'.Live rope := by
  induction count generalizing t ropes with
  | zero => exact .pure hropes
  | succ count ih =>
    unfold pairUp
    split
    · exact .pure hropes
    · exact (agree_pairAfter (by simp) hropes).bind fun paired t' _ hpaired => ih hpaired

theorem agree_rebuild (hl : t.Live left) (hr : t.Live right) (depth : Nat) :
    Agree t (rope.rebuild left right depth policy) fun root t' => t'.Live root := by
  refine (agree_taggedJoin hl hr ..).bind fun root t' _ hroot => ?_
  split
  · exact .pure hroot
  · exact agree_retag hroot

theorem agree_rebalance (h : t.Live rope) :
    Agree t (rope.rebalance policy) fun root t' => t'.Live root := by
  unfold rebalance
  split
  · exact .pure h
  · exact .pure h
  next id tags byteLen depth balanced l r =>
    refine .emit fun t₁ hle₁ => ?_
    refine (Agree.mapM (P := fun settled t' => t'.Live settled)
      (fun hle hlive => hlive.mono hle) fun piece hmem t₂ hle₂ => agree_settle ?_).bind
      fun pieces t₂ hle₂ hpieces => .emit fun t₃ hle₃ => ?_
    · rw [pieces_eq] at hmem
      exact ((h.mono hle₁).mono hle₂).of_within (mem_parts hmem).1
    refine (agree_pairUp _ fun piece hmem => (hpieces piece hmem).mono hle₃).bind
      fun paired t₄ hle₄ hpaired => ?_
    have hrope := (((h.mono hle₁).mono hle₂).mono hle₃).mono hle₄
    split
    next first second =>
      simp only [List.forall_mem_cons] at hpaired
      dsimp only
      split
      · refine .emit fun t₅ hle₅ => .emit fun t₆ hle₆ => .pure ?_
        exact (hrope.mono hle₅).mono hle₆
      · refine (agree_rebuild hpaired.1 hpaired.2.1 _).bind fun root t₅ _ hroot => ?_
        refine .emit fun t₆ hle₆ => .emit fun t₇ hle₇ => .pure ?_
        exact (hroot.mono hle₆).mono hle₇
    next => exact .pure hrope

end ByteRope.Rope

/-! ## Sets -/

namespace ByteRope.RopeSet

open RopeM

variable {t : Twins} {ropes : RopeSet} {rope : Rope}

/-- The set is sound on both sides. -/
structure Twin (t : Twins) (ropes : RopeSet) : Prop where
  left : ropes.Sound t.left
  right : ropes.Sound t.right

theorem Twin.mono {t' : Twins} (h : ropes.Twin t) (hle : t ≤ t') : ropes.Twin t' :=
  ⟨h.left.mono hle.left, h.right.mono hle.right⟩

theorem twin_empty : RopeSet.empty.Twin t := ⟨fun _ => nofun, fun _ => nofun⟩

theorem agree_insert (h : ropes.Twin t) (hrope : t.Live rope) :
    Agree t (ropes.insert rope) fun ropes' t' => ropes'.Twin t' := by
  refine (Rope.agree_digest hrope).bind fun digest t' hle hdigest => ?_
  obtain ⟨hleft, hright⟩ := h.mono hle
  have hrope := hrope.mono hle
  have hdigest' : digest = t'.right.store.digestOf rope.encoding rope.content.toArray :=
    t'.digestOf_eq ▸ hdigest
  refine .reads (run_anyM fun entry hmem => Entry.equal_eq (hleft entry hmem) hrope.left hdigest)
    (run_anyM fun entry hmem => Entry.equal_eq (hright entry hmem) hrope.right hdigest') ?_
  split
  · exact .pure ⟨hleft, hright⟩
  · refine .pure ⟨fun entry hmem => ?_, fun entry hmem => ?_⟩ <;>
      rcases List.mem_append.mp hmem with hold | hnew
    · exact hleft entry hold
    · exact List.mem_singleton.mp hnew ▸ ⟨hrope.left, hdigest⟩
    · exact hright entry hold
    · exact List.mem_singleton.mp hnew ▸ ⟨hrope.right, hdigest'⟩

end ByteRope.RopeSet
