import ThreadedForth.Dictionary.Word

/-!
# The dictionary

The dictionary is kept in two forms side by side.  One is the list of all entries in the
order of their registration.  It only ever grows at its end; compiled code refers to
entries by their number in it.  The other is a table that leads from each name to the
number of one entry.  Names are looked up in the table, and the list is not searched.

A registration changes both: the entry goes to the end of the list, and the table leads
from its name to it from then on (`Dictionary.push`).  Older entries of the same name stay
in the list, where code may refer to them.

A row of the table is the number of an entry that has the name of the row
(`Dictionary.named`).  That the entry is the last one of its name, and that no name of an
entry lacks a row, is not said here.
-/

namespace ThreadedForth

/-- All entries ever registered, the oldest first, and what each name leads to. -/
structure Dictionary where
  entries : Array Word
  /-- The number of an entry for each name. -/
  names : List (String × Nat)
  named : ∀ row ∈ names, (entries[row.2]?).map Word.name = some row.1
  deriving DecidableEq

namespace Dictionary

@[ext (iff := false)] theorem ext {d e : Dictionary} (entries : d.entries = e.entries)
    (names : d.names = e.names) : d = e := by
  obtain ⟨_, _, _⟩ := d
  obtain ⟨_, _, _⟩ := e
  cases entries
  cases names
  rfl

/-- The dictionary without entries. -/
def empty : Dictionary := ⟨#[], [], nofun⟩

/-- The entry with the given number. -/
def get? (d : Dictionary) (entry : Nat) : Option Word := d.entries[entry]?

/-- The number of the entry that a name leads to. -/
def find? (d : Dictionary) (name : String) : Option Nat := d.names.lookup name

/-- The number of entries. -/
def size (d : Dictionary) : Nat := d.entries.size

/-- The number of different names. -/
def nameCount (d : Dictionary) : Nat := d.names.length

/-- The table in which a name leads to an entry, whatever it led to before. -/
def rebind (name : String) (entry : Nat) (names : List (String × Nat)) : List (String × Nat) :=
  (name, entry) :: names.filter fun row => row.1 != name

/-- Adds an entry at the end, and lets its name lead to it. -/
def push (d : Dictionary) (w : Word) : Dictionary where
  entries := d.entries.push w
  names := rebind w.name d.entries.size d.names
  named := by
    intro row inside
    rcases List.mem_cons.mp inside with rfl | old
    · simp
    · obtain ⟨v, known, same⟩ := Option.map_eq_some_iff.mp (d.named row (List.mem_filter.mp old).1)
      have low := (Array.getElem?_eq_some_iff.mp known).1
      rw [Array.getElem?_push_lt low, ← Array.getElem?_eq_getElem low, known, ← same]
      rfl

/-- Changes an entry, and no name. -/
def modify (d : Dictionary) (entry : Nat) (change : Word → Word)
    (same : ∀ w, (change w).name = w.name) : Dictionary where
  entries := d.entries.modify entry change
  names := d.names
  named := by
    intro row inside
    rw [Array.getElem?_modify]
    split
    · rw [Option.map_map, ← d.named row inside]
      exact congrArg (Option.map · _) (funext same)
    · exact d.named row inside

/-- Marks an entry as immediate. -/
def markImmediate (d : Dictionary) (entry : Nat) : Dictionary :=
  d.modify entry (fun w => { w with immediate := true }) fun _ => rfl

/-- What giving a behavior does to a word.  Words that were not created take none. -/
def givenBehavior (behavior : Value) (w : Word) : Word :=
  match w.body with
  | .created slot _ => { w with body := .created slot behavior }
  | _ => w

theorem name_givenBehavior (behavior : Value) (w : Word) :
    (givenBehavior behavior w).name = w.name := by
  obtain ⟨name, immediate, body⟩ := w
  cases body <;> rfl

/-- Gives a created word a behavior. -/
def setBehavior (d : Dictionary) (entry : Nat) (behavior : Value) : Dictionary :=
  d.modify entry (givenBehavior behavior) (name_givenBehavior behavior)

/-! ## Looking up -/

theorem lookup_filter_of_ne {name other : String} (different : name ≠ other) :
    ∀ names : List (String × Nat),
      (names.filter fun row => row.1 != other).lookup name = names.lookup name
  | [] => rfl
  | (first, entry) :: rest => by
    have ih := lookup_filter_of_ne different rest
    by_cases same : first = other
    · have skipped : (name == first) = false := by simpa [same] using different
      rw [List.filter_cons_of_neg (by simp [same]), ih, List.lookup_cons, skipped]
    · rw [List.filter_cons_of_pos (by simpa using same), List.lookup_cons, List.lookup_cons, ih]

/-- A name in the table leads to an entry that has the name. -/
theorem exists_get?_of_find? {d : Dictionary} {name : String} {entry : Nat}
    (found : d.find? name = some entry) : ∃ w, d.get? entry = some w ∧ w.name = name := by
  obtain ⟨before, after, rows, -⟩ := List.lookup_eq_some_iff.mp found
  have inside : (name, entry) ∈ d.names := by simp [rows]
  exact Option.map_eq_some_iff.mp (d.named _ inside)

/-! ## Adding an entry -/

@[simp] theorem size_push (d : Dictionary) (w : Word) : (d.push w).size = d.size + 1 := by
  simp [size, push]

/-- The number of a new entry is the old number of entries. -/
@[simp] theorem get?_push_size (d : Dictionary) (w : Word) :
    (d.push w).get? d.size = some w := by
  simp [get?, push, size]

/-- Older entries keep their numbers. -/
theorem get?_push_of_lt {d : Dictionary} {entry : Nat} (w : Word) (h : entry < d.size) :
    (d.push w).get? entry = d.get? entry := by
  simp only [get?, push, size] at *
  rw [Array.getElem?_push_lt h, Array.getElem?_eq_getElem h]

theorem find?_push (d : Dictionary) (w : Word) (name : String) :
    (d.push w).find? name = if w.name = name then some d.size else d.find? name := by
  unfold find? push rebind
  rw [List.lookup_cons]
  by_cases same : w.name = name
  · rw [if_pos same, beq_iff_eq.mpr same.symm]
    rfl
  · rw [if_neg same, beq_eq_false_iff_ne.mpr (Ne.symm same)]
    exact lookup_filter_of_ne (Ne.symm same) d.names

/-- A new entry is what its name means. -/
@[simp] theorem find?_push_self (d : Dictionary) (w : Word) :
    (d.push w).find? w.name = some d.size := by
  simp [find?_push]

/-- A new entry changes no other name. -/
theorem find?_push_of_ne (d : Dictionary) {w : Word} {name : String} (h : w.name ≠ name) :
    (d.push w).find? name = d.find? name := by
  simp [find?_push, h]

/-! ## Changing an entry -/

@[simp] theorem size_markImmediate (d : Dictionary) (entry : Nat) :
    (d.markImmediate entry).size = d.size := by
  simp [size, markImmediate, modify]

@[simp] theorem size_setBehavior (d : Dictionary) (entry : Nat) (behavior : Value) :
    (d.setBehavior entry behavior).size = d.size := by
  simp [size, setBehavior, modify]

@[simp] theorem find?_markImmediate (d : Dictionary) (entry : Nat) (name : String) :
    (d.markImmediate entry).find? name = d.find? name := rfl

/-- Behaviors do not change what names mean. -/
@[simp] theorem find?_setBehavior (d : Dictionary) (entry : Nat) (behavior : Value)
    (name : String) : (d.setBehavior entry behavior).find? name = d.find? name := rfl

end Dictionary
end ThreadedForth
