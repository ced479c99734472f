import ByteRope.Proofs.Rope.Rebalancing
import ByteRope.Proofs.Store.Footprint
import ByteRope.Rope.Slice
import ByteRope.RopeSet

/-!
# Footprints of operations

Which nodes an operation lets remember their content. Making, joining, slicing, comparing and
changing tags touch none, and neither does reading but in one buffer, which touches the node that is
read. Rebalancing copies the loose pieces of its rope, and so touches these.
-/

namespace ByteRope.Rope

open RopeM

variable {marks : NodeId → Prop} {rope left right child : Rope} {tags : Tags} {encoding : Encoding}
  {kind : LeafKind} {bytes : Bytes} {policy : BalancePolicy} {offset len index : Nat}

/-! ## Making nodes -/

theorem touches_newLeaf (charLen : Nat) : Touches marks (newLeaf kind encoding charLen bytes) :=
  (Touches.lift _).bind fun _ => (Touches.lift _).bind fun _ =>
    (Touches.fresh _).bind fun _ => .pure _

theorem touches_newJoin (byteLen depth : Nat) (balanced : Bool) (bytes? : Option Bytes) :
    Touches marks (newJoin tags byteLen depth balanced left right bytes?) :=
  (Touches.lift _).bind fun _ => (Touches.fresh _).bind fun _ => .pure _

theorem touches_newView (byteLen depth : Nat) (bytes? : Option Bytes) :
    Touches marks (newView tags byteLen depth offset child bytes?) :=
  (Touches.lift _).bind fun _ => (Touches.fresh _).bind fun _ => .pure _

theorem touches_ofBytes : Touches marks (ofBytes bytes encoding) := by
  unfold ofBytes
  dsimp only
  split
  · exact touches_newLeaf _
  · exact .throw _

theorem touches_asciiOnlyLeaf : Touches marks (asciiOnlyLeaf bytes encoding) := by
  unfold asciiOnlyLeaf
  split
  · exact touches_newLeaf _
  · exact .throw _

theorem touches_validLeaf : Touches marks (validLeaf bytes encoding) := by
  unfold validLeaf
  dsimp only
  split
  · exact .throw _
  · exact touches_newLeaf _

theorem touches_invalidLeaf (charLen : Nat) :
    Touches marks (invalidLeaf bytes encoding charLen) := by
  unfold invalidLeaf
  split
  · exact touches_newLeaf _
  · exact .throw _

theorem touches_taggedLeaf : Touches marks (taggedLeaf bytes tags) := by
  unfold taggedLeaf
  split
  next =>
    split
    · exact touches_asciiOnlyLeaf
    · exact .throw _
  next =>
    dsimp only
    split
    · exact .throw _
    · split
      · exact .throw _
      · exact touches_newLeaf _
  next => exact touches_invalidLeaf _
  next =>
    refine touches_ofBytes.bind fun rope => ?_
    split
    · exact .pure _
    · exact .throw _

/-! ## Joining -/

theorem touches_taggedJoin (range : CodeRange) (depth : Nat) (balanced : Bool) :
    Touches marks (left.taggedJoin right encoding range depth balanced) := by
  unfold taggedJoin
  split
  · exact (Touches.lift _).bind fun _ => (Touches.lift _).bind fun _ => touches_newJoin _ _ _ _
  · exact .throw _

theorem touches_concat : Touches marks (left.concat right policy) := by
  unfold concat
  split
  · exact .pure _
  · split
    · exact .pure _
    · exact (Touches.lift _).bind fun _ => touches_taggedJoin _ _ _

theorem touches_chain (front : Bool) (count : Nat) :
    Touches marks (left.chain right front policy count) := by
  refine Touches.iterate (fun longer => ?_) count left
  split <;> exact touches_concat

/-! ## Reading -/

theorem touches_byte? : Touches marks (rope.byte? index) := by
  unfold byte?
  split
  · exact .get fun _ => (Touches.lift _).bind fun _ => .pure _
  · exact .pure _

theorem touches_byteAt : Touches marks (rope.byteAt index) := by
  refine touches_byte?.bind fun byte? => ?_
  split
  · exact .pure _
  · exact .throw _

theorem touches_allBytes : Touches marks rope.allBytes := by
  have hbytes (count : Nat) (done : Bytes) (index : Nat) :
      Touches marks (rope.bytesAfter done index count) := by
    induction count generalizing done index with
    | zero => exact .pure _
    | succ count ih => exact touches_byteAt.bind fun _ => ih _ _
  exact (Touches.lift _).bind fun _ => hbytes _ _ _

theorem touches_chunks : Touches marks rope.chunks :=
  (Touches.lift _).bind fun _ => .get fun _ => .lift _

theorem touches_scanRange : Touches marks (rope.scanRange offset len) :=
  (Touches.lift _).bind fun _ => .get fun _ => (Touches.lift _).bind fun _ => .pure _

theorem touches_copyInto : Touches marks (rope.copyInto offset bytes) := by
  unfold copyInto
  split
  · exact .pure _
  · refine (Touches.lift _).bind fun _ => .get fun _ => (Touches.lift _).bind fun _ =>
      (Touches.lift _).bind fun filling => ?_
    split
    · exact .pure _
    · exact .throw _

theorem touches_copyRange : Touches marks (rope.copyRange offset len) := by
  unfold copyRange
  split
  · exact .pure _
  · exact touches_copyInto.bind fun _ => .pure _

theorem touches_equal : Touches marks (left.equal right) := by
  refine .get fun store => ?_
  split
  · exact .pure _
  · split
    · exact .pure _
    · split
      · exact .pure _
      · exact (Touches.lift _).bind fun _ => (Touches.lift _).bind fun _ => .lift _

/-- Content that is copied together is remembered by the node it belongs to, and by no other. -/
theorem touches_flatten (hrope : marks rope.id) : Touches marks rope.flatten := by
  have hassemble (rope : Rope) : Touches marks rope.assemble :=
    .get fun _ => (Touches.lift _).bind fun _ => (Touches.emit _).bind fun _ => .pure _
  refine .get fun store => ?_
  split
  · exact .pure _
  · refine Touches.bind ?_ fun bytes => (Touches.publish hrope _).bind fun _ => .pure _
    unfold copyOut
    split
    · refine .get fun store => ?_
      split
      · exact (Touches.lift _).bind fun _ => .pure _
      · exact hassemble _
    · exact hassemble _
    · exact hassemble _

theorem touches_toLossyText (hrope : marks rope.id) : Touches marks rope.toLossyText :=
  (touches_flatten hrope).bind fun _ => .pure _

theorem touches_digest (hrope : marks rope.id) : Touches marks rope.digest := by
  refine .get fun store => ?_
  split
  · exact .pure _
  · refine (touches_flatten hrope).bind fun _ => .get fun _ => ?_
    exact (Touches.memoize _ _).bind fun _ => .pure _

/-- A set asks for the digest of what is put into it, and not again for those of its members. -/
theorem touches_insert (hrope : marks rope.id) (ropes : RopeSet) :
    Touches marks (ropes.insert rope) := by
  refine (touches_digest hrope).bind fun digest => Touches.bind ?_ fun found => ?_
  · refine Touches.anyM fun entry _ => ?_
    unfold RopeSet.Entry.equal
    split
    · exact touches_equal
    · exact .pure _
  · split
    · exact .pure _
    · exact .pure _

/-! ## Slicing -/

theorem touches_taggedView : Touches marks (child.taggedView tags offset len) := by
  unfold taggedView
  split
  · exact .throw _
  · exact touches_newView _ _ _

theorem touches_slice? : Touches marks (rope.slice? offset len) := by
  have htags : Touches marks (rope.sliceTags offset len) := by
    unfold sliceTags
    split
    · exact .pure _
    · exact touches_scanRange.bind fun _ => .pure _
  unfold slice?
  split
  · exact .pure _
  · split
    · exact .pure _
    · split
      · exact touches_ofBytes.bind fun _ => .pure _
      · refine (Touches.lift _).bind fun found => ?_
        obtain ⟨target, start⟩ := found
        dsimp only
        split
        · exact .pure _
        · exact htags.bind fun _ => touches_taggedView.bind fun _ => .pure _

theorem touches_slice : Touches marks (rope.slice offset len) := touches_slice?.insist

/-! ## Changing tags -/

theorem touches_retag : Touches marks (rope.retag tags) := by
  unfold retag
  split
  · split
    · exact .throw _
    · split
      · exact .throw _
      · exact touches_newLeaf _
  · exact .get fun _ => touches_newJoin _ _ _ _
  · exact .get fun _ => touches_newView _ _ _

theorem touches_toSevenBit? : Touches marks (rope.toSevenBit? encoding) := by
  unfold toSevenBit?
  split
  · exact .pure _
  · split
    · exact touches_retag.bind fun _ => .pure _
    · exact .throw _

theorem touches_toSevenBit : Touches marks (rope.toSevenBit encoding) :=
  touches_toSevenBit?.insist

theorem touches_toBinary? : Touches marks rope.toBinary? := by
  unfold toBinary?
  split
  · exact .pure _
  · exact touches_retag.bind fun _ => .pure _

theorem touches_toBinary : Touches marks rope.toBinary := touches_toBinary?.insist

theorem touches_resolve : Touches marks rope.resolve := by
  unfold resolve
  split
  · exact .pure _
  · refine touches_scanRange.bind fun scanned => (Touches.emit _).bind fun _ => ?_
    split
    · exact .pure _
    · exact touches_retag

theorem touches_toLeaf (hrope : marks rope.id) : Touches marks rope.toLeaf := by
  unfold toLeaf
  split
  · exact .pure _
  all_goals
    refine (touches_flatten hrope).bind fun bytes => ?_
    split
    · exact touches_ofBytes
    · exact (Touches.lift _).bind fun _ => touches_newLeaf _

/-! ## Rebalancing -/

/-- Only a loose piece is copied. -/
theorem touches_settle {piece : Rope} (hpiece : piece.isLoose = true → marks piece.id) :
    Touches marks piece.settle := by
  unfold settle
  split
  next id tags byteLen depth offset child =>
    split
    · exact .pure _
    next hbalanced =>
      refine touches_toLeaf (hpiece ?_)
      simp only [isLoose, hbalanced, Bool.not_false]
  next => exact .pure _
  next => exact .pure _

theorem touches_pairAfter (done : Array Rope) (ropes : List Rope) :
    Touches marks (pairAfter policy done ropes) := by
  fun_induction pairAfter policy done ropes with
  | case1 => exact .pure _
  | case2 => exact .pure _
  | case3 done left right rest ih => exact touches_concat.bind ih

theorem touches_pairUp (rounds : Nat) (ropes : List Rope) :
    Touches marks (pairUp policy rounds ropes) := by
  induction rounds generalizing ropes with
  | zero => exact .pure _
  | succ rounds ih =>
    unfold pairUp
    split
    · exact .pure _
    · exact (touches_pairAfter _ _).bind ih

theorem touches_rebuild (depth : Nat) : Touches marks (rope.rebuild left right depth policy) := by
  refine (touches_taggedJoin _ _ _).bind fun root => ?_
  split
  · exact .pure _
  · exact touches_retag

/-- Rebalancing touches the loose pieces of the rope. -/
theorem touches_rebalance
    (hpieces : ∀ piece ∈ rope.pieces, piece.isLoose = true → marks piece.id) :
    Touches marks (rope.rebalance policy) := by
  unfold rebalance
  split
  · exact .pure _
  · exact .pure _
  · refine (Touches.emit _).bind fun _ => ?_
    refine (Touches.mapM fun piece hmem =>
      touches_settle (hpieces piece hmem)).bind fun settled => ?_
    refine (Touches.emit _).bind fun _ => (touches_pairUp _ _).bind fun halves => ?_
    split
    · dsimp only
      split
      · exact (Touches.emit _).bind fun _ => (Touches.emit _).bind fun _ => .pure _
      · exact (touches_rebuild _).bind fun _ => (Touches.emit _).bind fun _ =>
          (Touches.emit _).bind fun _ => .pure _
    · exact .pure _

/-! ## New roots -/

/-- The one node that is new is a root with the buffer that the old root has at the moment. -/
structure Renewed (rope : Rope) (store : Store) (new : Rope) (store' : Store) : Prop where
  id : new.id = store.cells.size
  size : store'.cells.size = store.cells.size + 1
  raw? : store'.raw? new = store.raw? rope

variable {c : Census} {new : Rope} {store' : Store}

theorem renewed_of_retag (h : c.live rope) (hrun : rope.retag tags c.store = .ok new store') :
    rope.Renewed c.store new store' := by
  obtain ⟨hid, rfl⟩ := retag_run hrun
  obtain ⟨c', -, -, -, hretagged⟩ := (wf_retag h).of_run hrun
  exact ⟨hid, Array.size_push .., hretagged.raw?_eq hid⟩

theorem renewed_of_toSevenBit? (h : c.live rope)
    (hrun : rope.toSevenBit? encoding c.store = .ok (.ok new) store') :
    rope.Renewed c.store new store' := by
  unfold toSevenBit? at hrun
  cases hcheck : rope.checkTransition .sevenBit with
  | error refusal =>
    simp only [hcheck] at hrun
    cases hrun
  | ok =>
    simp only [hcheck] at hrun
    split at hrun
    · obtain ⟨_, _, hretag, hrun⟩ := exists_of_run_bind hrun
      cases hrun
      exact renewed_of_retag h hretag
    · cases hrun

theorem renewed_of_toBinary? (h : c.live rope)
    (hrun : rope.toBinary? c.store = .ok (.ok new) store') : rope.Renewed c.store new store' := by
  unfold toBinary? at hrun
  cases hcheck : rope.checkTransition .binary with
  | error refusal =>
    simp only [hcheck] at hrun
    cases hrun
  | ok =>
    simp only [hcheck] at hrun
    obtain ⟨_, _, hretag, hrun⟩ := exists_of_run_bind hrun
    cases hrun
    exact renewed_of_retag h hretag

theorem renewed_of_resolve (h : c.live rope) (hrun : rope.resolve c.store = .ok new store') :
    new = rope ∨ rope.Renewed c.store new store' := by
  obtain ⟨_, c', -, -, hrun', hresolution⟩ := exists_resolution h
  generalize c'.store = store'' at hrun' hresolution
  rw [hrun] at hrun'
  cases hrun'
  cases hresolution with
  | good | right => exact .inl rfl
  | retagged _ _ hretagged hid => exact .inr ⟨hid, Array.size_push .., hretagged.raw?_eq hid⟩

end ByteRope.Rope
