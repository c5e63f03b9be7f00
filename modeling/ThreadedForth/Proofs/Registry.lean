import ThreadedForth.Proofs.Chronicle

/-!
# The dictionary in the course of a session

Words come into the dictionary by several ways.  They are there from the start, they are
registered or imported from outside, created, or defined.  Compiled code refers to them by
their numbers, and names refer to them too, so neither may come to mean something else by
accident.

The machine keeps its words in two forms: a list, which numbers them, and a table, in which names
are looked up.  Nothing but the way they are changed keeps the two in step (`Dictionary.InStep`).
They are changed together when a word is registered (`Dictionary.InStep.push`), and all the ways by
which a word comes in end there (`Machine.registers_push`); whatever else is done to a word leaves
its name alone (`Dictionary.InStep.modify`).

What the dictionary can become is told by `Dictionary.Extends`: every entry keeps its number
and everything but two things, namely the mark of being immediate and the behavior of a created
word.  Here it is shown of any two moments of any session that the later dictionary extends the
earlier one.  Nothing is excluded: callables may be registered, cells handed in, code run from
any address, and compiling switched.

* `Dictionary.InStep.find?_eq_some_iff`, `Dictionary.InStep.find?_eq_none_iff`: what a name means
  while the table is in step with the entries;
* `Machine.Registered`: it is, and all names are fit to be names, that of the open definition
  included;
* `Session.dictionary_lasting`: names and numbers at every moment of a session.
-/

namespace ThreadedForth

/-! ## What a name means -/

namespace Dictionary

variable {d : Dictionary} {name : String} {entry : Nat}

/-- The entry is the last one with the name. -/
def IsLast (d : Dictionary) (name : String) (entry : Nat) : Prop :=
  (∃ w, d.get? entry = some w ∧ w.name = name) ∧
    ∀ later w, d.get? later = some w → w.name = name → later ≤ entry

/-- The table is in step with the entries: the name of an entry leads to that entry or to a later
one. -/
def InStep (d : Dictionary) : Prop :=
  ∀ entry w, d.get? entry = some w → ∃ last, d.find? w.name = some last ∧ entry ≤ last

/-- In step, a name leads to the last entry that has it. -/
theorem InStep.find?_eq_some_iff (inStep : d.InStep) :
    d.find? name = some entry ↔ d.IsLast name entry := by
  constructor
  · intro found
    refine ⟨exists_get?_of_find? found, fun later w known same => ?_⟩
    obtain ⟨last, found', below⟩ := inStep later w known
    rw [same, found] at found'
    cases found'
    exact below
  · rintro ⟨⟨w, known, rfl⟩, last⟩
    obtain ⟨later, found, below⟩ := inStep entry w known
    obtain ⟨v, known', same⟩ := exists_get?_of_find? found
    rw [found, Nat.le_antisymm below (last later v known' same)]

/-- In step, a name that leads nowhere is the name of no entry. -/
theorem InStep.find?_eq_none_iff (inStep : d.InStep) :
    d.find? name = none ↔ ∀ entry w, d.get? entry = some w → w.name ≠ name := by
  constructor
  · rintro missing entry w known rfl
    obtain ⟨last, found, -⟩ := inStep entry w known
    cases missing.symm.trans found
  · intro none_
    cases found : d.find? name with
    | none => rfl
    | some last =>
      obtain ⟨w, known, same⟩ := exists_get?_of_find? found
      exact absurd same (none_ last w known)

theorem inStep_empty : empty.InStep := fun _ _ known => by cases known

/-- A registration changes the list and the table in step. -/
theorem InStep.push (inStep : d.InStep) (w : Word) : (d.push w).InStep := by
  intro entry v known
  rcases get?_push known with old | ⟨rfl, rfl⟩
  · have low : entry < d.size := get?_eq_some_iff_lt.mp ⟨v, old⟩
    by_cases same : w.name = v.name
    · exact ⟨d.size, by rw [find?_push, if_pos same], Nat.le_of_lt low⟩
    · rw [find?_push_of_ne d same]
      exact inStep entry v old
  · exact ⟨d.size, d.find?_push_self v, Nat.le_refl _⟩

theorem InStep.foldl_push (inStep : d.InStep) (words : List Word) :
    (words.foldl Dictionary.push d).InStep := by
  induction words generalizing d with
  | nil => exact inStep
  | cons w rest ih => exact ih (inStep.push w)

theorem get?_modify (d : Dictionary) (target other : Nat) (change : Word → Word)
    (same : ∀ w, (change w).name = w.name) :
    (d.modify target change same).get? other =
      if target = other then (d.get? other).map change else d.get? other :=
  Array.getElem?_modify ..

/-- A change that leaves the name alone needs no change of the table. -/
theorem InStep.modify {change : Word → Word} (inStep : d.InStep) (target : Nat)
    (same : ∀ w, (change w).name = w.name) : (d.modify target change same).InStep := by
  intro other v known
  rw [get?_modify] at known
  split at known
  · obtain ⟨w, old, rfl⟩ := Option.map_eq_some_iff.mp known
    rw [same w]
    exact inStep other w old
  · exact inStep other v known

end Dictionary

theorem Store.lookup_eq_ok_iff {s : Store} {name : String} {entry : Nat}
    (inStep : s.dictionary.InStep) :
    s.lookup name = .ok entry ↔ s.dictionary.IsLast name entry := by
  rw [← inStep.find?_eq_some_iff, lookup]
  cases s.dictionary.find? name with
  | none => simp
  | some last => simp

theorem Store.lookup_eq_error_iff {s : Store} {name : String} (inStep : s.dictionary.InStep) :
    s.lookup name = .error (.undefinedWord name) ↔
      ∀ entry w, s.dictionary.get? entry = some w → w.name ≠ name := by
  rw [← inStep.find?_eq_none_iff, lookup]
  cases s.dictionary.find? name with
  | none => simp
  | some last => simp

/-! ## Names -/

/-- The text has something to show. -/
def Text.IsName (name : String) : Prop := ∃ c ∈ name.toList, Text.isBlank c = false

theorem Text.isName_iff {name : String} : IsName name ↔ allBlank name.toList = false := by
  unfold IsName allBlank
  rw [List.all_eq_false]
  simp

namespace Machine

/-- The names lead where they should, and the names of all words are fit to be names. -/
structure Registered (m : Machine) : Prop where
  inStep : m.dictionary.InStep
  words : ∀ w ∈ m.dictionary.entries, Text.IsName w.name

/-- The dictionary has at most grown, by words with proper names. -/
structure Registers (m after : Machine) : Prop where
  grown : m.dictionary.Extends after.dictionary
  registered : m.Registered → after.Registered

variable {m after : Machine}

theorem Registers.refl (m : Machine) : m.Registers m := ⟨.refl _, id⟩

theorem Registers.trans {ended : Machine} (first : m.Registers after)
    (second : after.Registers ended) : m.Registers ended :=
  ⟨first.grown.trans second.grown, second.registered ∘ first.registered⟩

/-- What the dictionary has no part in. -/
theorem registers_of_eq (dictionary : after.dictionary = m.dictionary) : m.Registers after := by
  refine ⟨?_, fun registered => ⟨?_, ?_⟩⟩
  · rw [dictionary]
    exact .refl _
  · rw [dictionary]
    exact registered.inStep
  · rw [dictionary]
    exact registered.words

/-- A word is registered.  By whatever way a word comes in, this is what happens. -/
theorem registers_push {w : Word} (named : Text.IsName w.name)
    (dictionary : after.dictionary = m.dictionary.push w) : m.Registers after := by
  refine ⟨?_, fun registered => ⟨?_, fun v inside => ?_⟩⟩
  · rw [dictionary]
    exact Dictionary.extends_push w
  · rw [dictionary]
    exact registered.inStep.push w
  · rw [dictionary, Dictionary.push, Array.mem_push] at inside
    rcases inside with old | rfl
    · exact registered.words v old
    · exact named

/-- A word that becomes another one keeps its name. -/
theorem registers_become {change : Word → Word} {entry : Nat}
    (becomes : ∀ w : Word, w.Becomes (change w))
    (dictionary : after.dictionary =
      m.dictionary.modify entry change fun w => (becomes w).name) : m.Registers after := by
  have each : ∀ other, after.dictionary.get? other =
      if entry = other then (m.dictionary.get? other).map change else m.dictionary.get? other := by
    intro other
    rw [dictionary, Dictionary.get?_modify]
  refine ⟨fun other w known => ?_, fun registered => ⟨?_, fun v inside => ?_⟩⟩
  · rw [each, known]
    split
    · exact ⟨change w, rfl, becomes w⟩
    · exact ⟨w, rfl, .refl w⟩
  · rw [dictionary]
    exact registered.inStep.modify entry _
  · obtain ⟨other, low, rfl⟩ := Array.mem_iff_getElem.mp inside
    have known : after.dictionary.get? other = some after.dictionary.entries[other] :=
      Array.getElem?_eq_getElem low
    rw [each] at known
    split at known
    · obtain ⟨w, old, same⟩ := Option.map_eq_some_iff.mp known
      rw [← same, (becomes w).name]
      exact registered.words w (Array.mem_of_getElem? old)
    · exact registered.words _ (Array.mem_of_getElem? known)

theorem Edit.registers (changed : Edit m after) : m.Registers after := by
  cases changed with
  | data same => exact registers_of_eq same.dictionary
  | @markEntry entry last =>
    have marked : ∀ w : Word, w.Becomes { w with immediate := true } :=
      fun w => ⟨rfl, fun _ => rfl, .inl rfl⟩
    exact registers_become marked rfl
  | create valid => exact registers_push (Text.isName_iff.mpr valid) rfl
  | @finish draft compiling open_ => exact registers_push (Text.isName_iff.mpr draft.valid) rfl
  | openDraft | dropDraft | markDraft | append | join | does | close => exact registers_of_eq rfl

theorem Edits.registers (changed : Edits m after) : m.Registers after := by
  induction changed with
  | refl => exact .refl m
  | tail _ last ih => exact ih.trans last.registers

theorem registers_bindBehavior (behavior : Value) (m : Machine) :
    m.Registers (m.bindBehavior behavior).machine := by
  rcases bindBehavior_cases behavior m with ⟨-, ends⟩ | ⟨entry, s, -, books, ends⟩
  · rw [ends]
    exact .refl m
  · rw [ends]
    exact registers_become (Dictionary.becomes_givenBehavior behavior) books.dictionary

theorem Leaves.registers (left : m.Leaves after) : m.Registers after := by
  cases left with
  | place returns ip => exact registers_of_eq rfl
  | pushed at_ pushes returns ip => exact registers_of_eq rfl
  | primitive at_ known kind resume =>
    have moved : m.Registers (m.moved resume) := registers_of_eq rfl
    exact moved.trans (edits_callPrimitive ..).registers
  | behavior at_ gives resume =>
    have moved : m.Registers (m.moved resume) := registers_of_eq rfl
    exact moved.trans (registers_bindBehavior _ _)

theorem Aside.registers {scope : Session.Scope} (changed : m.Aside scope after) :
    m.Registers after := by
  cases changed with
  | data stack nextMark transcript => exact registers_of_eq rfl
  | sweep => exact registers_of_eq rfl
  | unwind popped => exact registers_of_eq rfl
  | rest => exact registers_of_eq rfl
  | note level channel text other =>
    have books := m.toStore.sameBooks_note level channel text
    exact registers_of_eq books.dictionary
  | compile compiling made => exact registers_of_eq rfl
  | join compiling last free joined => exact registers_of_eq rfl
  | abandon => exact (edits_abandon m).registers
  | register valid own allowed => exact registers_push (Text.isName_iff.mpr valid) rfl

end Machine

/-! ## Sessions -/

namespace Session

/-- Sessions that may do anything. -/
def everything : Scope where
  callables := fun _ => True
  addresses := True
  switches := True
  cells := True

theorem Operation.within_everything (operation : Operation) : operation.Within everything := by
  cases operation with
  | defineNative name item options => exact fun f _ => trivial
  | importMapping pairs => exact fun pair _ f _ => trivial
  | importObject attributes => exact fun own _ item _ f _ => trivial
  | _ => trivial

/-- The names are in order, and the dictionary extends all the dictionaries there have been. -/
def Lasting (past : List Moment) (m : Machine) : Prop :=
  m.Registered ∧ ∀ x ∈ past, x.machine.dictionary.Extends m.dictionary

theorem Lasting.after {past : List Moment} {m after : Machine} (lasting : Lasting past m)
    (registers : m.Registers after) : Lasting past after :=
  ⟨registers.registered lasting.1, fun x before => (lasting.2 x before).trans registers.grown⟩

theorem Lasting.concat {past : List Moment} {x : Moment} (lasting : Lasting past x.machine) :
    Lasting (past ++ [x]) x.machine := by
  refine ⟨lasting.1, fun y inside => ?_⟩
  rcases List.mem_append.mp inside with before | now
  · exact lasting.2 y before
  · rw [List.mem_singleton.mp now]
    exact .refl _

theorem tracks_lasting : Tracks Lasting everything where
  begins _ _ lasting := lasting.concat
  native {_ depth name n m} own lasting :=
    Lasting.after (Lasting.concat (x := ⟨depth, .native name n, m⟩) lasting)
      (Machine.edits_callNative _ own).registers
  turn {_ m} depth base credit lasting :=
    Lasting.after (Lasting.concat (x := ⟨depth, .turns base credit, m⟩) lasting)
      (m.leaves_turn base).registers
  aside changed lasting := lasting.after changed.registers
  enter _ _ lasting := lasting.after (Machine.registers_of_eq rfl)
  leave _ lasting := lasting.after (Machine.registers_of_eq rfl)
  switch _ lasting := lasting.after (Machine.registers_of_eq rfl)
  insert _ lasting := lasting.after (Machine.registers_of_eq rfl)

theorem lasting_bare (capacity : Int) (verbose : Bool) :
    Lasting [] (Machine.bare capacity verbose) := by
  have proper : ∀ w ∈ Builtin.words, Text.allBlank w.name.toList = false := by decide
  have entries : (Machine.bare capacity verbose).dictionary.entries = Builtin.words.toArray := by
    rw [Machine.bare, Dictionary.entries_foldl_push]
    exact Array.empty_append
  refine ⟨⟨Dictionary.inStep_empty.foldl_push Builtin.words, fun w inside => ?_⟩,
    fun x inside => ?_⟩
  · rw [entries] at inside
    exact Text.isName_iff.mpr (proper w (List.mem_toArray.mp inside))
  · cases inside

/-- Names and numbers in the course of a session, whatever it does.  At every moment a name
means the last entry that has it, and looking it up fails if there is none; every entry has a
proper name; and at every later moment the entries that were there are still there, at the same
numbers, and of what they were nothing has changed but the mark of being immediate and the
behavior of a created word. -/
theorem dictionary_lasting (capacity : Int) (withPrelude verbose : Bool)
    (session : List Operation) (i k : Nat) :
    let m := stateAt capacity withPrelude verbose session i
    let later := stateAt capacity withPrelude verbose session (i + k)
    (∀ name entry, m.lookup name = .ok entry ↔ m.dictionary.IsLast name entry) ∧
      (∀ name, m.lookup name = .error (.undefinedWord name) ↔
        ∀ entry w, m.dictionary.get? entry = some w → w.name ≠ name) ∧
      (∀ w ∈ m.dictionary.entries, Text.IsName w.name) ∧
      m.dictionary.Extends later.dictionary := by
  have kept := tracks_lasting.history capacity withPrelude verbose
    (fun operation (_ : operation ∈ session) => operation.within_everything)
    (lasting_bare capacity verbose)
  have grown := stateAt_since (R := fun m after => m.dictionary.Extends after.dictionary)
    (fun _ => .refl _) (fun i => (kept i).2) i k
  have registered := (kept i).1
  generalize stateAt capacity withPrelude verbose session i = m at grown registered
  exact ⟨fun name entry => Store.lookup_eq_ok_iff registered.inStep,
    fun name => Store.lookup_eq_error_iff registered.inStep, registered.words, grown⟩

end Session

end ThreadedForth
