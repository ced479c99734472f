import ByteRope.Proofs.Rope.WellFormed
import ByteRope.Store

/-!
# Censuses

A census is a store with the nodes in use, and holds what every computation on ropes relies on and
keeps up: the nodes in use are well formed, a name stands for one of them at most, and what the
store remembers of a node is true of it. Nodes are shared and their cells are not, so the last of
these needs the names: two handles to one cell are handles to one node.
-/

namespace ByteRope

namespace Store

variable {store : Store} {id name : NodeId}

theorem cell_allocate (bytes? : Option Bytes) :
    (store.allocate bytes?).2.cell id =
      if id = store.cells.size then { bytes? } else store.cell id := by
  simp only [allocate, cell, Array.getElem?_push]
  split <;> simp

theorem cell_publish (bytes : Bytes) (h : name < store.cells.size) :
    (store.publish name bytes).cell id =
      if id = name then
        { store.cell id with bytes? := (store.cell id).bytes? <|> some bytes }
      else store.cell id := by
  simp only [publish, cell, Array.getElem?_modify]
  split
  next heq =>
    subst heq
    simp [h]
  next hne => rw [if_neg (Ne.symm hne)]

theorem cell_memoize (digest : UInt64) (h : name < store.cells.size) :
    (store.memoize name digest).cell id =
      if id = name then { store.cell id with digest? := some digest } else store.cell id := by
  simp only [memoize, cell, Array.getElem?_modify]
  split
  next heq =>
    subst heq
    simp [h]
  next hne => rw [if_neg (Ne.symm hne)]

@[simp] theorem size_publish (store : Store) (bytes : Bytes) :
    (store.publish name bytes).cells.size = store.cells.size := Array.size_modify ..

@[simp] theorem size_memoize (store : Store) (digest : UInt64) :
    (store.memoize name digest).cells.size = store.cells.size := Array.size_modify ..

end Store

/-- A store with the nodes in use. -/
structure Census where
  store : Store
  /-- The nodes in use. -/
  live : Rope → Prop
  wf : ∀ {rope}, live rope → rope.WF
  named : ∀ {rope}, live rope → rope.id < store.cells.size
  unique : ∀ {rope other}, live rope → live other → rope.id = other.id → rope = other
  closed : ∀ {rope child}, live rope → child ∈ rope.children → live child
  bytes : ∀ {rope bytes}, live rope → (store.cell rope.id).bytes? = some bytes → rope.HeldBy bytes
  digest : ∀ {rope digest}, live rope → (store.cell rope.id).digest? = some digest →
    digest = store.digestOf rope.encoding rope.content.toArray ∧ rope.byteLen ≤ Size.maxBuffer

namespace Census

variable {c c' c'' : Census} {rope child : Rope} {bytes : Bytes}

/-- No nodes. -/
def empty (digestOf : Encoding → Bytes → UInt64) : Census where
  store := .empty digestOf
  live _ := False
  wf h := h.elim
  named h := h.elim
  unique h := h.elim
  closed h := h.elim
  bytes h := h.elim
  digest h := h.elim

theorem live_of_within (h : c.live rope) {node : Rope} (hn : node.Within rope) : c.live node := by
  induction hn with
  | refl => exact h
  | child hc _ ih => exact ih (c.closed h hc)

/-- A buffer that a node has holds its content. -/
theorem raw (h : c.live rope) (hb : c.store.raw? rope = some bytes) : rope.HeldBy bytes := by
  cases rope with
  | leaf id kind encoding charLen octets =>
    cases hb
    cases c.wf h with
    | leaf hsize => exact ⟨rfl, hsize⟩
  | join | view => exact c.bytes h hb

/-! ## Growth -/

/-- The second census goes on from the first: nodes stay in use, buffers stay, and so does what
digests are. -/
structure Extends (c c' : Census) : Prop where
  live : ∀ {rope}, c.live rope → c'.live rope
  size : c.store.cells.size ≤ c'.store.cells.size
  bytes : ∀ {id bytes}, (c.store.cell id).bytes? = some bytes →
    (c'.store.cell id).bytes? = some bytes
  digestOf : c'.store.digestOf = c.store.digestOf

instance : LE Census := ⟨Extends⟩

theorem le_refl (c : Census) : c ≤ c := ⟨id, Nat.le_refl _, id, rfl⟩

theorem le_trans (h : c ≤ c') (h' : c' ≤ c'') : c ≤ c'' where
  live hl := h'.live (h.live hl)
  size := Nat.le_trans h.size h'.size
  bytes hb := h'.bytes (h.bytes hb)
  digestOf := h'.digestOf.trans h.digestOf

/-! ## Steps -/

/-- A new node, which starts with this buffer. -/
def add (c : Census) (rope : Rope) (bytes? : Option Bytes) (hid : rope.id = c.store.cells.size)
    (hwf : rope.WF) (hc : ∀ child ∈ rope.children, c.live child)
    (hb : ∀ bytes, bytes? = some bytes → rope.HeldBy bytes) : Census where
  store := (c.store.allocate bytes?).2
  live node := c.live node ∨ node = rope
  wf := by
    intro node hcases
    rcases hcases with h | rfl
    · exact c.wf h
    · exact hwf
  named := by
    have hsize : (c.store.allocate bytes?).2.cells.size = c.store.cells.size + 1 :=
      Array.size_push ..
    intro node hcases
    rcases hcases with h | rfl
    · exact hsize ▸ Nat.lt_succ_of_lt (c.named h)
    · exact hsize ▸ hid ▸ Nat.lt_succ_self _
  unique := by
    rintro node other (h | rfl) (h' | rfl) heq
    · exact c.unique h h' heq
    · exact absurd (c.named h) (by rw [heq, hid]; exact Nat.lt_irrefl _)
    · exact absurd (c.named h') (by rw [← heq, hid]; exact Nat.lt_irrefl _)
    · rfl
  closed := by
    rintro node child (h | rfl) hchild
    · exact .inl (c.closed h hchild)
    · exact .inl (hc _ hchild)
  bytes := by
    rintro node bytes (h | rfl) hcell <;> rw [Store.cell_allocate] at hcell
    · rw [if_neg (Nat.ne_of_lt (c.named h))] at hcell
      exact c.bytes h hcell
    · rw [if_pos hid] at hcell
      exact hb _ hcell
  digest := by
    rintro node digest (h | rfl) hcell <;> rw [Store.cell_allocate] at hcell
    · rw [if_neg (Nat.ne_of_lt (c.named h))] at hcell
      exact c.digest h hcell
    · rw [if_pos hid] at hcell
      cases hcell

theorem le_add {bytes? : Option Bytes} {hid hwf hc hb} : c ≤ c.add rope bytes? hid hwf hc hb where
  live := .inl
  size := Nat.le_of_lt (Nat.lt_of_lt_of_eq (Nat.lt_succ_self _) (Array.size_push ..).symm)
  bytes {id bytes} h := by
    have hlt : id < c.store.cells.size := by
      rcases Nat.lt_or_ge id c.store.cells.size with hlt | hge
      · exact hlt
      · rw [Store.cell, Array.getElem?_eq_none hge] at h
        cases h
    rw [add, Store.cell_allocate, if_neg (Nat.ne_of_lt hlt)]
    exact h
  digestOf := rfl

/-- A node comes to remember its content. -/
def publish (c : Census) (rope : Rope) (bytes : Bytes) (h : c.live rope)
    (hb : rope.HeldBy bytes) : Census where
  store := c.store.publish rope.id bytes
  live := c.live
  wf := c.wf
  named h := Store.size_publish c.store bytes ▸ c.named h
  unique := c.unique
  closed := c.closed
  bytes {node found} hnode hcell := by
    rw [Store.cell_publish _ (c.named h)] at hcell
    split at hcell
    next heq =>
      cases c.unique hnode h heq
      cases hold : (c.store.cell rope.id).bytes? with
      | none =>
        simp only [hold] at hcell
        cases hcell
        exact hb
      | some old =>
        simp only [hold] at hcell
        cases hcell
        exact c.bytes h hold
    next => exact c.bytes hnode hcell
  digest {node found} hnode hcell := by
    rw [Store.cell_publish _ (c.named h)] at hcell
    split at hcell <;> exact c.digest hnode hcell

theorem le_publish {h hb} : c ≤ c.publish rope bytes h hb where
  live := id
  size := Nat.le_of_eq (Store.size_publish c.store bytes).symm
  bytes {id found} hcell := by
    rw [publish, Store.cell_publish _ (c.named h)]
    split
    · simp only [hcell]
      rfl
    · exact hcell
  digestOf := rfl

/-- A node comes to remember its digest. -/
def memoize (c : Census) (rope : Rope) (digest : UInt64) (h : c.live rope)
    (hd : digest = c.store.digestOf rope.encoding rope.content.toArray)
    (hmax : rope.byteLen ≤ Size.maxBuffer) : Census where
  store := c.store.memoize rope.id digest
  live := c.live
  wf := c.wf
  named h := Store.size_memoize c.store digest ▸ c.named h
  unique := c.unique
  closed := c.closed
  bytes {node found} hnode hcell := by
    rw [Store.cell_memoize _ (c.named h)] at hcell
    split at hcell <;> exact c.bytes hnode hcell
  digest {node found} hnode hcell := by
    rw [Store.cell_memoize _ (c.named h)] at hcell
    split at hcell
    next heq =>
      cases c.unique hnode h heq
      cases hcell
      exact ⟨hd, hmax⟩
    next => exact c.digest hnode hcell

theorem le_memoize {digest : UInt64} {h hd hmax} : c ≤ c.memoize rope digest h hd hmax where
  live := id
  size := Nat.le_of_eq (Store.size_memoize c.store digest).symm
  bytes {id found} hcell := by
    rw [memoize, Store.cell_memoize _ (c.named h)]
    split <;> exact hcell
  digestOf := rfl

/-- An event more. -/
def record (c : Census) (event : Event) : Census := { c with store := c.store.record event }

theorem le_record {event : Event} : c ≤ c.record event := ⟨id, Nat.le_refl _, id, rfl⟩

/-- No events. -/
def quiet (c : Census) : Census := { c with store := { c.store with events := #[] } }

theorem le_quiet : c ≤ c.quiet := ⟨id, Nat.le_refl _, id, rfl⟩

end Census

end ByteRope
