import Mathlib.Algebra.GroupWithZero.Nat
import Mathlib.Data.List.Forall2
import ByteRope.Proofs.Store.Census

/-!
# Computations over a census

`RopeM.WF c m Q E` says of a computation that from the census `c` it ends in one that goes on from
`c`, with a value of which `Q` holds or a fault of which `E` holds. What a faulted computation has
done to the store stays done, so the second case speaks of a census too. The lemmas follow the
shape of computations; each operation on ropes gets one statement of this form.
-/

namespace List.Forall₂

variable {α β γ : Type} {R : α → β → Prop} {as : List α} {bs : List β}

theorem map_eq (h : Forall₂ R as bs) {f : β → γ} {g : α → γ} (hfg : ∀ a b, R a b → f b = g a) :
    bs.map f = as.map g := by
  induction h with
  | nil => rfl
  | cons hab _ ih => rw [map_cons, map_cons, hfg _ _ hab, ih]

theorem exists_left (h : Forall₂ R as bs) {b : β} (hb : b ∈ bs) : ∃ a ∈ as, R a b := by
  induction h with
  | nil => cases hb
  | cons hab _ ih =>
    rcases mem_cons.mp hb with rfl | hb
    · exact ⟨_, mem_cons_self .., hab⟩
    · obtain ⟨a, ha, hab'⟩ := ih hb
      exact ⟨a, mem_cons_of_mem _ ha, hab'⟩

theorem exists_right (h : Forall₂ R as bs) {a : α} (ha : a ∈ as) : ∃ b, R a b := by
  induction h with
  | nil => cases ha
  | cons hab _ ih =>
    rcases mem_cons.mp ha with rfl | ha
    · exact ⟨_, hab⟩
    · exact ih ha

end List.Forall₂

namespace ByteRope.RopeM

variable {α β : Type} {c : Census} {m : RopeM α} {f : α → RopeM β} {Q : α → Census → Prop}
  {R : β → Census → Prop} {E : Fault → Prop}

theorem run_lift_bind (x : Except Fault α) (f : α → RopeM β) (store : Store) :
    ((liftM x : RopeM α) >>= f) store =
      match x with
      | .ok a => f a store
      | .error fault => .error fault store := by
  cases x <;> rfl

theorem exists_of_run_lift {x : Except Fault α} {f : α → RopeM β} {b : β} {store store' : Store}
    (h : ((liftM x : RopeM α) >>= f) store = .ok b store') :
    ∃ a, x = .ok a ∧ f a store = .ok b store' := by
  rw [run_lift_bind] at h
  cases x with
  | ok a => exact ⟨a, rfl, h⟩
  | error => cases h

theorem run_bind {a : α} {store store' : Store} (h : m store = .ok a store') (f : α → RopeM β) :
    (m >>= f) store = f a store' := by
  change EStateM.bind _ _ _ = _
  rw [EStateM.bind, h]

theorem exists_of_run_bind {b : β} {store store' : Store} (h : (m >>= f) store = .ok b store') :
    ∃ a store₁, m store = .ok a store₁ ∧ f a store₁ = .ok b store' := by
  change EStateM.bind _ _ _ = _ at h
  unfold EStateM.bind at h
  cases hm : m store with
  | ok a store₁ =>
    rw [hm] at h
    exact ⟨a, store₁, rfl, h⟩
  | error fault store₁ =>
    rw [hm] at h
    cases h

theorem run_get_bind (f : Store → RopeM β) (store : Store) :
    ((get : RopeM Store) >>= f) store = f store store := rfl

theorem exists_of_insist {careful : RopeM (Except Refusal α)} {a : α} {store store' : Store}
    (h : insist careful store = .ok a store') : careful store = .ok (.ok a) store' := by
  obtain ⟨answer, store₁, hrun, h⟩ := exists_of_run_bind h
  cases answer with
  | ok b =>
    cases h
    exact hrun
  | error refusal => cases h

theorem insist_of_error {careful : RopeM (Except Refusal α)} {fault : Fault} {store store' : Store}
    (h : careful store = .error fault store') : insist careful store = .error fault store' := by
  change EStateM.bind _ _ _ = _
  rw [EStateM.bind, h]

/-- Tests that leave the store as it is. -/
theorem run_anyM {test : α → RopeM Bool} {value : α → Bool} {store : Store} {as : List α}
    (htest : ∀ a ∈ as, test a store = .ok (value a) store) :
    as.anyM test store = .ok (as.any value) store := by
  induction as with
  | nil => rfl
  | cons a as ih =>
    change (test a >>= _) store = _
    rw [run_bind (htest a (List.mem_cons_self ..)), List.any_cons]
    cases value a with
    | true => rfl
    | false => exact ih fun other hmem => htest other (List.mem_cons_of_mem _ hmem)

/-- From the census the computation ends in one that goes on from it, with a value as `Q` says or a
fault as `E` says. -/
def WF (c : Census) (m : RopeM α) (Q : α → Census → Prop) (E : Fault → Prop) : Prop :=
  match m c.store with
  | .ok a store => ∃ c', c'.store = store ∧ c ≤ c' ∧ Q a c'
  | .error fault store => ∃ c', c'.store = store ∧ c ≤ c' ∧ E fault

/-- The value or the fault that the computation ends with from the store. -/
def outcome (m : RopeM α) (store : Store) : Except Fault α :=
  match m store with
  | .ok a _ => .ok a
  | .error fault _ => .error fault

theorem outcome_eq_ok_iff {a : α} {store : Store} :
    m.outcome store = .ok a ↔ ∃ store', m store = .ok a store' := by
  unfold outcome
  cases m store <;> simp

theorem outcome_eq_error_iff {fault : Fault} {store : Store} :
    m.outcome store = .error fault ↔ ∃ store', m store = .error fault store' := by
  unfold outcome
  cases m store <;> simp

/-- A fault of the plain form is one of the careful form, or a refusal. -/
theorem outcome_insist {careful : RopeM (Except Refusal α)} {fault : Fault} {store : Store}
    (h : (insist careful).outcome store = .error fault) :
    careful.outcome store = .error fault ∨ ∃ refusal, fault = .refused refusal := by
  cases hcareful : careful store with
  | error fault' store' =>
    rw [outcome, insist_of_error hcareful] at h
    cases h
    exact .inl (outcome_eq_error_iff.mpr ⟨store', hcareful⟩)
  | ok answer store' =>
    rw [outcome, insist, run_bind hcareful] at h
    cases answer with
    | ok a => cases h
    | error refusal =>
      cases h
      exact .inr ⟨refusal, rfl⟩

/-- From the store the computation ends with a value. -/
def Succeeds (m : RopeM α) (store : Store) : Prop := ∃ a store', m store = .ok a store'

/-- The fault of a buffer that would be too long. -/
def Overlong (len : Nat) (fault : Fault) : Prop :=
  fault = .capacityOverflow ∧ Size.maxBuffer < len

/-- The fault of a size that would be too large. -/
def Oversize (size : Nat) (fault : Fault) : Prop :=
  fault = .sizeOverflow ∧ Size.max < size

namespace WF

theorem pure {a : α} (h : Q a c) : WF c (pure a) Q E := ⟨c, rfl, c.le_refl, h⟩

theorem throw {fault : Fault} (h : E fault) : WF c (throw fault : RopeM α) Q E :=
  ⟨c, rfl, c.le_refl, h⟩

theorem mono {Q' : α → Census → Prop} {E' : Fault → Prop} (h : WF c m Q E)
    (hq : ∀ a c', c ≤ c' → Q a c' → Q' a c') (he : ∀ fault, E fault → E' fault) :
    WF c m Q' E' := by
  unfold WF at h ⊢
  split at h
  · obtain ⟨c', hs, hle, hQ⟩ := h
    exact ⟨c', hs, hle, hq _ _ hle hQ⟩
  · obtain ⟨c', hs, hle, hE⟩ := h
    exact ⟨c', hs, hle, he _ hE⟩

theorem results {Q' : α → Census → Prop} (h : WF c m Q E)
    (hq : ∀ a c', c ≤ c' → Q a c' → Q' a c') : WF c m Q' E :=
  h.mono hq fun _ he => he

theorem faults {E' : Fault → Prop} (h : WF c m Q E) (he : ∀ fault, E fault → E' fault) :
    WF c m Q E' :=
  h.mono (fun _ _ _ hq => hq) he

theorem of_run {a : α} {store : Store} (h : WF c m Q E) (hrun : m c.store = .ok a store) :
    ∃ c', c'.store = store ∧ c ≤ c' ∧ Q a c' := by
  rwa [WF, hrun] at h

theorem of_fault {fault : Fault} {store : Store} (h : WF c m Q E)
    (hrun : m c.store = .error fault store) : E fault := by
  rw [WF, hrun] at h
  obtain ⟨_, -, -, hE⟩ := h
  exact hE

theorem of_outcome {fault : Fault} (h : WF c m Q E) (hm : m.outcome c.store = .error fault) :
    E fault := by
  obtain ⟨_, hrun⟩ := outcome_eq_error_iff.mp hm
  exact h.of_fault hrun

/-- The computation ends with a value or a fault. -/
theorem outcome (h : WF c m Q E) :
    (∃ a c', m c.store = .ok a c'.store ∧ c ≤ c' ∧ Q a c') ∨
      ∃ fault store, m c.store = .error fault store ∧ E fault := by
  cases hrun : m c.store with
  | ok a store =>
    obtain ⟨c', rfl, hle, hQ⟩ := h.of_run hrun
    exact .inl ⟨a, c', rfl, hle, hQ⟩
  | error fault store => exact .inr ⟨fault, store, rfl, h.of_fault hrun⟩

theorem succeeds_iff {P : Prop} (h : WF c m Q E) (hok : ∀ a c', Q a c' → P)
    (herror : ∀ fault, E fault → ¬P) : m.Succeeds c.store ↔ P := by
  rcases h.outcome with ⟨a, c', hrun, -, hQ⟩ | ⟨fault, store, hrun, hE⟩
  · exact ⟨fun _ => hok a c' hQ, fun _ => ⟨a, c'.store, hrun⟩⟩
  · refine ⟨fun ⟨a, store', hrun'⟩ => ?_, fun hP => absurd hP (herror fault hE)⟩
    rw [hrun] at hrun'
    cases hrun'

theorem succeeds (h : WF c m Q fun _ => False) : m.Succeeds c.store := by
  rcases h.outcome with ⟨a, c', hrun, -⟩ | ⟨_, _, -, hfalse⟩
  · exact ⟨a, c'.store, hrun⟩
  · exact hfalse.elim

/-- A computation that gives one value if the condition holds, and faults in one way if not. -/
theorem outcome_eq {P : Prop} [Decidable P] {a : α} {fault : Fault}
    (h : WF c m (fun b _ => b = a ∧ P) fun found => found = fault ∧ ¬P) :
    m.outcome c.store = if P then .ok a else .error fault := by
  rcases h.outcome with ⟨b, c', hrun, -, rfl, hP⟩ | ⟨found, store, hrun, rfl, hP⟩
  · rw [RopeM.outcome, hrun, if_pos hP]
  · rw [RopeM.outcome, hrun, if_neg hP]

/-- A computation that gives one value and never faults. -/
theorem outcome_ok {a : α} (h : WF c m (fun b _ => b = a) fun _ => False) :
    m.outcome c.store = .ok a := by
  rcases h.outcome with ⟨b, c', hrun, -, rfl⟩ | ⟨_, _, -, hfalse⟩
  · rw [RopeM.outcome, hrun]
  · exact hfalse.elim

theorem bind (hm : WF c m Q E) (hf : ∀ a c', c ≤ c' → Q a c' → WF c' (f a) R E) :
    WF c (m >>= f) R E := by
  change match EStateM.bind m f c.store with
    | .ok b store => ∃ c', c'.store = store ∧ c ≤ c' ∧ R b c'
    | .error fault store => ∃ c', c'.store = store ∧ c ≤ c' ∧ E fault
  unfold WF at hm
  unfold EStateM.bind
  cases hr : m c.store with
  | error fault store => simpa only [hr] using hm
  | ok a store =>
    simp only [hr] at hm ⊢
    obtain ⟨c', rfl, hle, hQ⟩ := hm
    have hf := hf a c' hle hQ
    unfold WF at hf
    split at hf
    next =>
      obtain ⟨c'', hs, hle', hR⟩ := hf
      exact ⟨c'', hs, Census.le_trans hle hle', hR⟩
    next =>
      obtain ⟨c'', hs, hle', hE⟩ := hf
      exact ⟨c'', hs, Census.le_trans hle hle', hE⟩

/-- A computation whose outcome is known and which leaves the store as it is. -/
theorem of_eq {a : α} (hm : m c.store = .ok a c.store) (hQ : Q a c) : WF c m Q E := by
  rw [WF, hm]
  exact ⟨c, rfl, c.le_refl, hQ⟩

theorem of_error {fault : Fault} (hm : m c.store = .error fault c.store) (hE : E fault) :
    WF c m Q E := by
  rw [WF, hm]
  exact ⟨c, rfl, c.le_refl, hE⟩

/-- A computation that only reads the store. -/
theorem reads {a : α} (hm : m c.store = .ok a c.store) (hf : WF c (f a) R E) :
    WF c (m >>= f) R E := by
  refine bind (Q := fun b c' => b = a ∧ c' = c) (of_eq hm ⟨rfl, rfl⟩) ?_
  intro _ _ _ hresult
  obtain ⟨rfl, rfl⟩ := hresult
  exact hf

theorem get {f : Store → RopeM β} (h : WF c (f c.store) R E) : WF c (get >>= f) R E :=
  reads rfl h

theorem lift {x : Except Fault α} (hok : ∀ a, x = .ok a → WF c (f a) R E)
    (herror : ∀ fault, x = .error fault → E fault) :
    WF c ((liftM x : RopeM α) >>= f) R E := by
  cases x with
  | ok a => exact reads rfl (hok a rfl)
  | error fault => exact bind (Q := fun _ _ => False) (throw (herror fault rfl)) fun _ _ _ => nofun

theorem checkBuffer {len : Nat} {f : Unit → RopeM β} (hok : len ≤ Size.maxBuffer → WF c (f ()) R E)
    (herror : ∀ fault, Overlong len fault → E fault) :
    WF c ((liftM (Size.checkBuffer len) : RopeM Unit) >>= f) R E := by
  unfold Size.checkBuffer
  split
  next hle => exact reads rfl (hok hle)
  next hgt =>
    refine lift nofun fun fault hf => herror fault ?_
    cases hf
    exact ⟨rfl, Nat.lt_of_not_le hgt⟩

theorem add {a b : Nat} {f : Nat → RopeM β} (hok : a + b ≤ Size.max → WF c (f (a + b)) R E)
    (herror : ∀ fault, Oversize (a + b) fault → E fault) :
    WF c ((liftM (Size.add a b) : RopeM Nat) >>= f) R E := by
  unfold Size.add
  split
  next hle => exact reads rfl (hok hle)
  next hgt =>
    refine lift nofun fun fault hf => herror fault ?_
    cases hf
    exact ⟨rfl, Nat.lt_of_not_le hgt⟩

theorem emit {event : Event} {f : Unit → RopeM β} (h : ∀ c', c ≤ c' → WF c' (f ()) R E) :
    WF c (RopeM.emit event >>= f) R E :=
  bind (Q := fun _ _ => True) ⟨c.record event, rfl, Census.le_record, trivial⟩
    (fun _ c' hle _ => h c' hle)

theorem fresh {bytes? : Option Bytes} {f : NodeId → RopeM β} (rope : Rope)
    (hid : rope.id = c.store.cells.size) (hwf : rope.WF)
    (hc : ∀ child ∈ rope.children, c.live child)
    (hb : ∀ bytes, bytes? = some bytes → rope.HeldBy bytes)
    (hf : ∀ c', c ≤ c' → c'.live rope → WF c' (f rope.id) R E) :
    WF c (RopeM.fresh bytes? >>= f) R E :=
  bind (Q := fun id c' => id = rope.id ∧ c'.live rope)
    ⟨c.add rope bytes? hid hwf hc hb, rfl, Census.le_add, hid.symm, .inr rfl⟩
    (fun _ c' hle ⟨hid, hlive⟩ => hid ▸ hf c' hle hlive)

theorem publish {rope : Rope} {bytes : Bytes} {f : PUnit → RopeM β} (h : c.live rope)
    (hb : rope.HeldBy bytes) (hf : ∀ c', c ≤ c' → WF c' (f ⟨⟩) R E) :
    WF c ((modify fun store => store.publish rope.id bytes) >>= f) R E :=
  bind (Q := fun _ _ => True) ⟨c.publish rope bytes h hb, rfl, Census.le_publish, trivial⟩
    (fun _ c' hle _ => hf c' hle)

theorem memoize {rope : Rope} {digest : UInt64} {f : PUnit → RopeM β} (h : c.live rope)
    (hd : digest = c.store.digestOf rope.encoding rope.content.toArray)
    (hmax : rope.byteLen ≤ Size.maxBuffer) (hf : ∀ c', c ≤ c' → WF c' (f ⟨⟩) R E) :
    WF c ((modify fun store => store.memoize rope.id digest) >>= f) R E :=
  bind (Q := fun _ _ => True) ⟨c.memoize rope digest h hd hmax, rfl, Census.le_memoize, trivial⟩
    (fun _ c' hle _ => hf c' hle)

/-- The plain form of an operation ends well where the careful form has no refusal. -/
theorem insist {careful : RopeM (Except Refusal α)}
    (h : WF c careful (fun a c' => (∀ x, a = .ok x → Q x c') ∧
      ∀ refusal, a = .error refusal → E (.refused refusal)) E) :
    WF c (RopeM.insist careful) Q E := by
  apply bind h
  rintro (refusal | x) c' - ⟨hok, herror⟩
  · exact throw (herror refusal rfl)
  · exact pure (hok x rfl)

/-- A step for every element, of which nothing that holds is undone by the steps after it. -/
theorem mapM {step : α → RopeM β} {P : α → β → Census → Prop}
    (hkeep : ∀ {a b c' c''}, c' ≤ c'' → P a b c' → P a b c'') {as : List α}
    (hstep : ∀ a ∈ as, ∀ c', c ≤ c' → WF c' (step a) (P a) E) :
    WF c (as.mapM step) (fun bs c' => List.Forall₂ (fun a b => P a b c') as bs) E := by
  induction as generalizing c with
  | nil => exact pure .nil
  | cons a as ih =>
    rw [List.mapM_cons]
    refine bind (hstep a (List.mem_cons_self ..) c c.le_refl) fun b c' hle hb => ?_
    refine bind (ih fun a' ha' c'' hle' => ?_) fun bs c'' hle' hbs => ?_
    · exact hstep a' (List.mem_cons_of_mem _ ha') c'' (Census.le_trans hle hle')
    · exact pure (.cons (hkeep hle' hb) hbs)

/-- What holds of the steps done is kept by one step more, and so it holds of all. -/
theorem foldlM {step : β → α → RopeM β} {Q : List α → β → Census → Prop} {as : List α}
    (hstep : ∀ done a rest, done ++ a :: rest = as → ∀ b c', c ≤ c' → Q done b c' →
      WF c' (step b a) (Q (done ++ [a])) E) {b : β} (hb : Q [] b c) :
    WF c (as.foldlM step b) (Q as) E := by
  suffices h : ∀ (rest done : List α), done ++ rest = as → ∀ (b : β) (c' : Census), c ≤ c' →
      Q done b c' → WF c' (rest.foldlM step b) (Q as) E from h as [] rfl b c c.le_refl hb
  intro rest
  induction rest with
  | nil =>
    rintro done rfl b c' - hq
    rw [List.append_nil]
    exact pure hq
  | cons a rest ih =>
    intro done hdone b c' hle hq
    rw [List.foldlM_cons]
    refine bind (hstep done a rest hdone b c' hle hq) fun b' c'' hle' hq' => ?_
    exact ih (done ++ [a]) (by simpa using hdone) b' c'' (Census.le_trans hle hle') hq'

/-- What one step keeps, every number of steps keeps. -/
theorem iterate {step : α → RopeM α} (hstep : ∀ a c', c ≤ c' → Q a c' → WF c' (step a) Q E)
    (count : Nat) {a : α} (ha : Q a c) : WF c (RopeM.iterate step count a) Q E := by
  induction count generalizing a c with
  | zero => exact pure ha
  | succ count ih =>
    refine bind (hstep a c c.le_refl ha) fun a' c' hle ha' => ?_
    exact ih (fun b c'' hle' => hstep b c'' (Census.le_trans hle hle')) ha'

end WF

end ByteRope.RopeM
