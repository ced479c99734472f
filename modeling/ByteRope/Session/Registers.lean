/-!
# Registers

Values by name. Setting a name again replaces its value.
-/

namespace ByteRope

/-- Values by name, each name at most once. -/
structure Registers (α : Type) where
  entries : List (String × α)

namespace Registers

variable {α : Type}

/-- No names. -/
def empty : Registers α := ⟨[]⟩

instance : Inhabited (Registers α) := ⟨empty⟩

/-- The value of a name. -/
def get? (registers : Registers α) (name : String) : Option α :=
  registers.entries.lookup name

/-- Forgets a name. -/
def erase (registers : Registers α) (name : String) : Registers α :=
  ⟨registers.entries.filter fun entry => entry.1 != name⟩

/-- Gives a name a value. -/
def set (registers : Registers α) (name : String) (value : α) : Registers α :=
  ⟨(name, value) :: (registers.erase name).entries⟩

/-- The names whose values pass a test, in alphabetical order. -/
def namesWhere (registers : Registers α) (test : α → Bool) : List String :=
  ((registers.entries.filter fun entry => test entry.2).map Prod.fst).mergeSort

@[simp] theorem get?_empty (name : String) : (empty : Registers α).get? name = none := rfl

@[simp] theorem get?_erase_self (registers : Registers α) (name : String) :
    (registers.erase name).get? name = none := by
  rw [get?, List.lookup_eq_none_iff]
  intro entry h
  have hne : entry.1 ≠ name := by simpa using (List.mem_filter.mp h).2
  simpa using hne.symm

theorem get?_erase_of_ne (registers : Registers α) {name other : String} (h : other ≠ name) :
    (registers.erase name).get? other = registers.get? other := by
  obtain ⟨entries⟩ := registers
  simp only [erase, get?]
  induction entries with
  | nil => rfl
  | cons entry rest ih =>
    obtain ⟨key, value⟩ := entry
    by_cases hk : key = name
    · subst hk
      simp [List.lookup_cons, beq_false_of_ne h, ih]
    · simp [List.lookup_cons, hk, ih]

@[simp] theorem get?_set_self (registers : Registers α) (name : String) (value : α) :
    (registers.set name value).get? name = some value := by
  simp [set, get?]

theorem get?_set_of_ne (registers : Registers α) {name other : String} (h : other ≠ name)
    (value : α) : (registers.set name value).get? other = registers.get? other := by
  rw [← get?_erase_of_ne registers h]
  simp [set, get?, List.lookup_cons, beq_false_of_ne h]

end Registers

end ByteRope
