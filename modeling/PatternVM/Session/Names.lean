/-!
# Named values

A list of values under distinct names, for the few things that a session gives names to.
-/

namespace PatternVM

/-- Values under names. -/
abbrev Names (α : Type) := List (String × α)

namespace Names

variable {α : Type}

/-- The value under a name. -/
def find? (names : Names α) (name : String) : Option α := names.lookup name

/-- Frees a name. -/
def erase (names : Names α) (name : String) : Names α := names.filter (·.1 != name)

/-- Puts a value under a name, in place of any other. -/
def insert (names : Names α) (name : String) (value : α) : Names α :=
  (name, value) :: names.erase name

/-- Nothing is found under a name that has been freed. -/
@[simp] theorem find?_erase_self (names : Names α) (name : String) :
    (names.erase name).find? name = none := by
  rw [find?, erase, List.lookup_eq_none_iff]
  intro entry mem
  have differs : entry.1 ≠ name := by simpa using (List.mem_filter.mp mem).2
  exact bne_iff_ne.mpr differs.symm

/-- Freeing a name leaves what is under other names. -/
@[simp] theorem find?_erase_of_ne (names : Names α) {name other : String} (h : other ≠ name) :
    (names.erase name).find? other = names.find? other := by
  simp only [find?, erase]
  induction names with
  | nil => rfl
  | cons entry rest ih =>
    obtain ⟨key, value⟩ := entry
    by_cases freed : key = name
    · subst freed
      have differs : (other == key) = false := beq_false_of_ne h
      simp [List.lookup_cons, differs, ih]
    · simp [freed, List.lookup_cons, ih]

/-- What has been put under a name is found there. -/
@[simp] theorem find?_insert_self (names : Names α) (name : String) (value : α) :
    (names.insert name value).find? name = some value := by
  simp [find?, insert]

/-- Putting something under a name leaves what is under other names. -/
@[simp] theorem find?_insert_of_ne (names : Names α) {name other : String} (value : α)
    (h : other ≠ name) : (names.insert name value).find? other = names.find? other := by
  have differs : (other == name) = false := beq_false_of_ne h
  rw [← find?_erase_of_ne names h]
  simp [find?, insert, List.lookup_cons, differs]

end Names

end PatternVM
