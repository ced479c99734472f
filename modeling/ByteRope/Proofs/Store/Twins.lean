import ByteRope.Proofs.Store.Computation

/-!
# Stores side by side

Two stores in which equally many nodes have been named give the next node the same name, whatever
else they remember. `RopeM.Agree t m Q` says of a computation that from both of the stores of `t` it
ends with one value, of which `Q` holds, or with one fault, and again in two such stores. The
lemmas follow the shape of computations, as those of `RopeM.WF` do. A computation that does not look
at the store agrees with itself as soon as it names equally many nodes (`RopeM.Blind`), and one that
names none as soon as its outcome is known (`RopeM.Frugal`).
-/

namespace ByteRope

/-- Two stores in which equally many nodes have been named and digests are the same, each with its
nodes in use. -/
structure Twins where
  left : Census
  right : Census
  size_eq : left.store.cells.size = right.store.cells.size
  digestOf_eq : left.store.digestOf = right.store.digestOf

namespace Twins

variable {t t' t'' : Twins} {rope node : Rope}

/-- The rope is in use on both sides. -/
structure Live (t : Twins) (rope : Rope) : Prop where
  left : t.left.live rope
  right : t.right.live rope

/-- Both sides go on. -/
structure Extends (t t' : Twins) : Prop where
  left : t.left ≤ t'.left
  right : t.right ≤ t'.right

instance : LE Twins := ⟨Extends⟩

theorem le_refl (t : Twins) : t ≤ t := ⟨t.left.le_refl, t.right.le_refl⟩

theorem le_trans (h : t ≤ t') (h' : t' ≤ t'') : t ≤ t'' :=
  ⟨Census.le_trans h.left h'.left, Census.le_trans h.right h'.right⟩

theorem Live.mono (h : t.Live rope) (hle : t ≤ t') : t'.Live rope :=
  ⟨hle.left.live h.left, hle.right.live h.right⟩

theorem Live.of_within (h : t.Live rope) (hn : node.Within rope) : t.Live node :=
  ⟨t.left.live_of_within h.left hn, t.right.live_of_within h.right hn⟩

/-- Where both sides have gone on to. -/
def goOn (t : Twins) {c c' : Census} (hleft : t.left ≤ c) (hright : t.right ≤ c')
    (hsize : c.store.cells.size = c'.store.cells.size) : Twins where
  left := c
  right := c'
  size_eq := hsize
  digestOf_eq := (hleft.digestOf.trans t.digestOf_eq).trans hright.digestOf.symm

/-- No events on either side. -/
def quiet (t : Twins) : Twins := t.goOn Census.le_quiet Census.le_quiet t.size_eq

theorem le_quiet : t ≤ t.quiet := ⟨Census.le_quiet, Census.le_quiet⟩

end Twins

namespace RopeM

variable {α β : Type} {m : RopeM α} {f : α → RopeM β} {t : Twins} {store store' : Store}

/-! ## Ends that match -/

/-- One value or one fault, in stores in which equally many nodes have been named. -/
inductive Match : EStateM.Result Fault Store α → EStateM.Result Fault Store α → Prop
  | ok {a : α} {store store' : Store} : store.cells.size = store'.cells.size →
    Match (.ok a store) (.ok a store')
  | error {fault : Fault} {store store' : Store} : store.cells.size = store'.cells.size →
    Match (.error fault store) (.error fault store')

/-- The computation looks at no cell: only the number of nodes named decides how it ends. -/
def Blind (m : RopeM α) : Prop :=
  ∀ store store' : Store, store.cells.size = store'.cells.size → Match (m store) (m store')

namespace Blind

theorem pure (a : α) : Blind (pure a) := fun _ _ h => .ok h

theorem throw (fault : Fault) : Blind (throw fault : RopeM α) := fun _ _ h => .error h

theorem bind (hm : Blind m) (hf : ∀ a, Blind (f a)) : Blind (m >>= f) := by
  intro store store' hsize
  change Match (EStateM.bind m f store) (EStateM.bind m f store')
  unfold EStateM.bind
  have hends := hm store store' hsize
  cases hrun : m store <;> cases hrun' : m store' <;> rw [hrun, hrun'] at hends <;> cases hends
  · rename_i h
    exact hf _ _ _ h
  · rename_i h
    exact .error h

theorem lift (x : Except Fault α) : Blind (liftM x : RopeM α) := by
  cases x with
  | ok a => exact pure a
  | error fault => exact throw fault

theorem fresh (bytes? : Option Bytes) : Blind (fresh bytes?) := by
  intro store store' h
  change Match (.ok store.cells.size (store.allocate bytes?).2)
    (.ok store'.cells.size (store'.allocate bytes?).2)
  rw [h]
  exact .ok (by simp [Store.allocate, h])

end Blind

/-- The computation names no node. -/
def Frugal (m : RopeM α) : Prop :=
  ∀ store, match m store with
    | .ok _ store' | .error _ store' => store'.cells.size = store.cells.size

namespace Frugal

theorem pure (a : α) : Frugal (pure a) := fun _ => rfl

theorem throw (fault : Fault) : Frugal (throw fault : RopeM α) := fun _ => rfl

theorem bind (hm : Frugal m) (hf : ∀ a, Frugal (f a)) : Frugal (m >>= f) := by
  intro store
  change match EStateM.bind m f store with
    | .ok _ store' | .error _ store' => store'.cells.size = store.cells.size
  have hm := hm store
  unfold EStateM.bind
  cases hrun : m store with
  | error fault store' => simpa only [hrun] using hm
  | ok a store' =>
    have hf := hf a store'
    simp only [hrun] at hm ⊢
    rw [← hm]
    exact hf

theorem get {f : Store → RopeM α} (h : ∀ store, Frugal (f store)) : Frugal (get >>= f) :=
  fun store => h store store

theorem lift (x : Except Fault α) : Frugal (liftM x : RopeM α) := by
  cases x with
  | ok a => exact pure a
  | error fault => exact throw fault

theorem emit (event : Event) : Frugal (emit event) := fun _ => rfl

theorem publish (id : NodeId) (bytes : Bytes) :
    Frugal (modify fun store => store.publish id bytes) :=
  fun store => Store.size_publish store bytes

theorem memoize (id : NodeId) (digest : UInt64) :
    Frugal (modify fun store => store.memoize id digest) :=
  fun store => Store.size_memoize store digest

/-- Equal outcomes are all there is to see of a computation that names no nodes. -/
theorem run_match (hm : Frugal m) (houtcome : m.outcome store = m.outcome store')
    (hsize : store.cells.size = store'.cells.size) : Match (m store) (m store') := by
  have hleft := hm store
  have hright := hm store'
  unfold outcome at houtcome
  cases hrun : m store <;> cases hrun' : m store' <;>
    simp only [hrun, hrun', Except.ok.injEq, Except.error.injEq, reduceCtorEq]
      at hleft hright houtcome
  · exact houtcome ▸ .ok (hleft.trans (hsize.trans hright.symm))
  · exact houtcome ▸ .error (hleft.trans (hsize.trans hright.symm))

end Frugal

/-! ## Agreement -/

/-- From both stores the computation ends with one value, of which `Q` holds, or with one fault. -/
def Agree (t : Twins) (m : RopeM α) (Q : α → Twins → Prop) : Prop :=
  (∃ a t', t ≤ t' ∧ m t.left.store = .ok a t'.left.store ∧
    m t.right.store = .ok a t'.right.store ∧ Q a t') ∨
  ∃ fault t', t ≤ t' ∧ m t.left.store = .error fault t'.left.store ∧
    m t.right.store = .error fault t'.right.store

namespace Agree

variable {Q : α → Twins → Prop} {R : β → Twins → Prop}

theorem pure {a : α} (h : Q a t) : Agree t (pure a) Q := .inl ⟨a, t, t.le_refl, rfl, rfl, h⟩

theorem throw {fault : Fault} : Agree t (throw fault : RopeM α) Q :=
  .inr ⟨fault, t, t.le_refl, rfl, rfl⟩

theorem bind (hm : Agree t m Q) (hf : ∀ a t', t ≤ t' → Q a t' → Agree t' (f a) R) :
    Agree t (m >>= f) R := by
  unfold Agree
  simp only [show ∀ store, (m >>= f) store = EStateM.bind m f store from fun _ => rfl, EStateM.bind]
  rcases hm with ⟨a, t', hle, hleft, hright, hQ⟩ | ⟨fault, t', hle, hleft, hright⟩
  · simp only [hleft, hright]
    exact (hf a t' hle hQ).imp
      (fun ⟨b, t'', hle', h⟩ => ⟨b, t'', Twins.le_trans hle hle', h⟩)
      fun ⟨fault, t'', hle', h⟩ => ⟨fault, t'', Twins.le_trans hle hle', h⟩
  · simp only [hleft, hright]
    exact .inr ⟨fault, t', hle, rfl, rfl⟩

theorem mono {Q' : α → Twins → Prop} (h : Agree t m Q) (hq : ∀ a t', t ≤ t' → Q a t' → Q' a t') :
    Agree t m Q' :=
  h.imp_left fun ⟨a, t', hle, hleft, hright, hQ⟩ => ⟨a, t', hle, hleft, hright, hq a t' hle hQ⟩

/-- Ends that match, each of which a census accounts for. -/
theorem of_match {P P' : α → Census → Prop} {E E' : Fault → Prop}
    (h : Match (m t.left.store) (m t.right.store)) (hleft : WF t.left m P E)
    (hright : WF t.right m P' E') :
    Agree t m fun a t' => P a t'.left ∧ P' a t'.right := by
  unfold WF at hleft hright
  unfold Agree
  cases hrun : m t.left.store <;> cases hrun' : m t.right.store <;>
    rw [hrun, hrun'] at h <;> cases h <;> simp only [hrun, hrun'] at hleft hright
  · rename_i a _ _ hsize
    obtain ⟨c, rfl, hle, hP⟩ := hleft
    obtain ⟨c', rfl, hle', hP'⟩ := hright
    exact .inl ⟨a, t.goOn hle hle' hsize, ⟨hle, hle'⟩, rfl, rfl, hP, hP'⟩
  · rename_i fault _ _ hsize
    obtain ⟨c, rfl, hle, -⟩ := hleft
    obtain ⟨c', rfl, hle', -⟩ := hright
    exact .inr ⟨fault, t.goOn hle hle' hsize, ⟨hle, hle'⟩, rfl, rfl⟩

theorem of_blind {P : α → Census → Prop} {E E' : Fault → Prop} (h : Blind m)
    (hleft : WF t.left m P E) (hright : WF t.right m P E') :
    Agree t m fun a t' => P a t'.left ∧ P a t'.right :=
  of_match (h _ _ t.size_eq) hleft hright

/-- A computation that leaves both stores as they are. -/
theorem of_eq {a : α} (hleft : m t.left.store = .ok a t.left.store)
    (hright : m t.right.store = .ok a t.right.store) (hQ : Q a t) : Agree t m Q :=
  .inl ⟨a, t, t.le_refl, hleft, hright, hQ⟩

theorem of_error {fault : Fault} (hleft : m t.left.store = .error fault t.left.store)
    (hright : m t.right.store = .error fault t.right.store) : Agree t m Q :=
  .inr ⟨fault, t, t.le_refl, hleft, hright⟩

theorem reads {a : α} (hleft : m t.left.store = .ok a t.left.store)
    (hright : m t.right.store = .ok a t.right.store) (hf : Agree t (f a) R) :
    Agree t (m >>= f) R := by
  refine bind (of_eq (Q := fun b t' => b = a ∧ t' = t) hleft hright ⟨rfl, rfl⟩) ?_
  rintro _ _ - ⟨rfl, rfl⟩
  exact hf

theorem lift {x : Except Fault α} (h : ∀ a, x = .ok a → Agree t (f a) R) :
    Agree t ((liftM x : RopeM α) >>= f) R := by
  cases x with
  | ok a => exact reads rfl rfl (h a rfl)
  | error fault => exact bind (Q := fun _ _ => False) throw fun _ _ _ => nofun

theorem emit {event : Event} {f : Unit → RopeM β} (h : ∀ t', t ≤ t' → Agree t' (f ()) R) :
    Agree t (RopeM.emit event >>= f) R := by
  refine bind (Q := fun _ _ => True) (.inl ⟨(), t.goOn Census.le_record Census.le_record t.size_eq,
    ⟨Census.le_record, Census.le_record⟩, rfl, rfl, trivial⟩) fun _ t' hle _ => h t' hle

theorem insist {careful : RopeM (Except Refusal α)}
    (h : Agree t careful fun result t' => ∀ a, result = .ok a → Q a t') :
    Agree t (RopeM.insist careful) Q := by
  apply h.bind
  rintro (refusal | a) t' - hresult
  · exact throw
  · exact pure (hresult a rfl)

/-- A step for every element, of which nothing that holds is undone by the steps after it. -/
theorem mapM {step : α → RopeM β} {P : β → Twins → Prop}
    (hkeep : ∀ {b t' t''}, t' ≤ t'' → P b t' → P b t'') {as : List α}
    (hstep : ∀ a ∈ as, ∀ t', t ≤ t' → Agree t' (step a) P) :
    Agree t (as.mapM step) fun bs t' => ∀ b ∈ bs, P b t' := by
  induction as generalizing t with
  | nil => exact pure nofun
  | cons a as ih =>
    rw [List.mapM_cons]
    refine (hstep a (List.mem_cons_self ..) t t.le_refl).bind fun b t' hle hb => ?_
    refine (ih fun a' ha' t'' hle' => ?_).bind fun bs t'' hle' hbs => ?_
    · exact hstep a' (List.mem_cons_of_mem _ ha') t'' (Twins.le_trans hle hle')
    · exact pure (List.forall_mem_cons.mpr ⟨hkeep hle' hb, hbs⟩)

theorem foldlM {step : β → α → RopeM β} {as : List α} {b : β}
    (hstep : ∀ a ∈ as, ∀ b t', t ≤ t' → R b t' → Agree t' (step b a) R) (hb : R b t) :
    Agree t (as.foldlM step b) R := by
  induction as generalizing t b with
  | nil => exact pure hb
  | cons a as ih =>
    rw [List.foldlM_cons]
    refine (hstep a (List.mem_cons_self ..) b t t.le_refl hb).bind fun b' t' hle hb' => ?_
    refine ih (fun a' ha' b'' t'' hle' => ?_) hb'
    exact hstep a' (List.mem_cons_of_mem _ ha') b'' t'' (Twins.le_trans hle hle')

theorem iterate {step : α → RopeM α} (hstep : ∀ a t', t ≤ t' → Q a t' → Agree t' (step a) Q)
    (count : Nat) {a : α} (ha : Q a t) : Agree t (RopeM.iterate step count a) Q := by
  induction count generalizing a t with
  | zero => exact pure ha
  | succ count ih =>
    refine (hstep a t t.le_refl ha).bind fun a' t' hle ha' => ?_
    exact ih (fun b t'' hle' => hstep b t'' (Twins.le_trans hle hle')) ha'

end Agree

end RopeM

end ByteRope
