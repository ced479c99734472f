import ByteRope.Proofs.Store.Computation

/-!
# Footprints

What a computation lets nodes remember of their content can be told from the computation.
`RopeM.Touches marks m` says that from every store `m` leaves the buffers of the nodes named before
as they are, those of the nodes in `marks` apart, whether it ends with a value or a fault. The
lemmas follow the shape of computations, as those of `RopeM.Frugal` do. Names that a computation
hands out itself are new, so a node that it makes with a buffer is not in its footprint.
-/

namespace ByteRope

/-- The nodes of the first store have the same buffers in the second, those in `marks` apart. -/
structure Store.Spares (marks : NodeId → Prop) (store store' : Store) : Prop where
  size : store.cells.size ≤ store'.cells.size
  bytes : ∀ id, id < store.cells.size → ¬marks id →
    (store'.cell id).bytes? = (store.cell id).bytes?

namespace Store.Spares

variable {marks marks' : NodeId → Prop} {store store' store'' : Store}

theorem refl (store : Store) : store.Spares marks store := ⟨Nat.le_refl _, fun _ _ _ => rfl⟩

theorem trans (h : store.Spares marks store') (h' : store'.Spares marks store'') :
    store.Spares marks store'' where
  size := Nat.le_trans h.size h'.size
  bytes id hid hmarks :=
    (h'.bytes id (Nat.lt_of_lt_of_le hid h.size) hmarks).trans (h.bytes id hid hmarks)

theorem mono (h : store.Spares marks store') (hmarks : ∀ id, marks id → marks' id) :
    store.Spares marks' store' :=
  ⟨h.size, fun id hid hnot => h.bytes id hid fun hmark => hnot (hmarks id hmark)⟩

end Store.Spares

namespace RopeM

variable {α β : Type} {m : RopeM α} {f : α → RopeM β} {marks marks' : NodeId → Prop}

/-- The computation changes no buffers but those of the nodes in `marks`. -/
def Touches (marks : NodeId → Prop) (m : RopeM α) : Prop :=
  ∀ store, match m store with
    | .ok _ store' | .error _ store' => store.Spares marks store'

namespace Touches

theorem of_run (h : Touches marks m) {a : α} {store store' : Store}
    (hrun : m store = .ok a store') : store.Spares marks store' := by
  have h := h store
  rwa [hrun] at h

theorem mono (h : Touches marks m) (hmarks : ∀ id, marks id → marks' id) :
    Touches marks' m := by
  intro store
  have h := h store
  split at h <;> exact h.mono hmarks

theorem pure (a : α) : Touches marks (pure a) := fun store => .refl store

theorem throw (fault : Fault) : Touches marks (throw fault : RopeM α) := fun store => .refl store

theorem bind (hm : Touches marks m) (hf : ∀ a, Touches marks (f a)) :
    Touches marks (m >>= f) := by
  intro store
  change match EStateM.bind m f store with
    | .ok _ store' | .error _ store' => store.Spares marks store'
  have hm := hm store
  unfold EStateM.bind
  cases hrun : m store with
  | error fault store' => simpa only [hrun] using hm
  | ok a store' =>
    have hf := hf a store'
    simp only [hrun] at hm ⊢
    split at hf <;> exact hm.trans hf

theorem get {f : Store → RopeM α} (h : ∀ store, Touches marks (f store)) :
    Touches marks (get >>= f) :=
  fun store => h store store

theorem lift (x : Except Fault α) : Touches marks (liftM x : RopeM α) := by
  cases x with
  | ok a => exact pure a
  | error fault => exact throw fault

theorem emit (event : Event) : Touches marks (emit event) :=
  fun _ => ⟨Nat.le_refl _, fun _ _ _ => rfl⟩

theorem fresh (bytes? : Option Bytes) : Touches marks (fresh bytes?) := by
  intro store
  refine ⟨Nat.le_of_lt ?_, fun id hid _ => ?_⟩
  · exact Nat.lt_of_lt_of_eq (Nat.lt_succ_self _) (Array.size_push ..).symm
  · change ((store.allocate bytes?).2.cell id).bytes? = _
    rw [Store.cell_allocate, if_neg (Nat.ne_of_lt hid)]

/-- A node that comes to remember its content is in the footprint. -/
theorem publish {id : NodeId} (hid : marks id) (bytes : Bytes) :
    Touches marks (modify fun store => store.publish id bytes) := by
  intro store
  refine ⟨Nat.le_of_eq (Store.size_publish store bytes).symm, fun other _ hother => ?_⟩
  have hne : id ≠ other := by
    rintro rfl
    exact hother hid
  simp only [Store.publish, Store.cell, Array.getElem?_modify, if_neg hne]

/-- One that comes to remember its digest need not be. -/
theorem memoize (id : NodeId) (digest : UInt64) :
    Touches marks (modify fun store => store.memoize id digest) := by
  intro store
  refine ⟨Nat.le_of_eq (Store.size_memoize store digest).symm, fun other hother _ => ?_⟩
  simp only [Store.memoize, Store.cell, Array.getElem?_modify]
  split
  · rw [Array.getElem?_eq_getElem hother]
    rfl
  · rfl

theorem insist {careful : RopeM (Except Refusal α)} (h : Touches marks careful) :
    Touches marks (RopeM.insist careful) := by
  refine h.bind fun result => ?_
  cases result with
  | ok a => exact pure a
  | error refusal => exact throw _

theorem mapM {step : α → RopeM β} {as : List α} (h : ∀ a ∈ as, Touches marks (step a)) :
    Touches marks (as.mapM step) := by
  induction as with
  | nil => exact pure []
  | cons a as ih =>
    rw [List.mapM_cons]
    refine (h a (List.mem_cons_self ..)).bind fun b => ?_
    exact (ih fun a' hmem => h a' (List.mem_cons_of_mem _ hmem)).bind fun bs => pure _

theorem anyM {test : α → RopeM Bool} {as : List α} (h : ∀ a ∈ as, Touches marks (test a)) :
    Touches marks (as.anyM test) := by
  induction as with
  | nil => exact pure false
  | cons a as ih =>
    refine (h a (List.mem_cons_self ..)).bind fun found => ?_
    cases found with
    | true => exact pure true
    | false => exact ih fun a' hmem => h a' (List.mem_cons_of_mem _ hmem)

theorem iterate {step : α → RopeM α} (h : ∀ a, Touches marks (step a)) (count : Nat) (a : α) :
    Touches marks (RopeM.iterate step count a) := by
  induction count generalizing a with
  | zero => exact pure a
  | succ count ih => exact (h a).bind ih

end Touches

end RopeM

end ByteRope
