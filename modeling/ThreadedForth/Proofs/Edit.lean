import Mathlib.Logic.Relation
import ThreadedForth.Proofs.Steady

/-!
# What the words can do to a machine

There are many words and few things that they can do.  Most of them change *data*:
the data stack, what the slots hold, the marks, and the two records.  What is left is
a short list: a definition is opened, dropped, marked or finished, a word is created
or marked, and a cell is added to the open code or joined to its last one.

`Machine.Edit` is that list.  An invariant that survives every edit survives every
word, so that nothing later has to go through the words again.  The edits do not touch
the return stack, the place of execution and the capacity, and they do not give a word
a behavior; this is left to the code that runs.

* `Primitive.edits_perform` and `Directive.edits_perform`: a native action that is not
  a host callable amounts to a sequence of edits, whether it succeeds or fails;
* `Machine.edits_interpretLiterals` and `Machine.edit_append_own`: so does the compilation
  of literals and of the name of the open definition.
-/

namespace ThreadedForth

/-- A computation that may fail has succeeded in both of its parts if it has
succeeded. -/
theorem exists_of_bind_ok {α β : Type} {work : Except Fault α} {next : α → Except Fault β}
    {b : β} (h : work >>= next = .ok b) : ∃ a, work = .ok a ∧ next a = .ok b := by
  cases work with
  | error f => cases h
  | ok a => exact ⟨a, rfl, h⟩

theorem exists_of_map_ok {α β : Type} {work : Except Fault α} {g : α → β} {b : β}
    (made : work.map g = .ok b) : ∃ a, work = .ok a ∧ g a = b := by
  cases work with
  | error f => cases made
  | ok a => exact ⟨a, rfl, Except.ok.inj made⟩

/-! ## Data -/

namespace Store

/-- The two stores keep the same books: the same dictionary, the same number of slots
and the same state of compilation.  They may differ in their data. -/
structure SameBooks (s t : Store) : Prop where
  size : t.slots.size = s.slots.size
  dictionary : t.dictionary = s.dictionary
  compiling : t.compiling = s.compiling
  draft : t.draft = s.draft
  lastDefined : t.lastDefined = s.lastDefined
  lastCreated : t.lastCreated = s.lastCreated
  barrier : t.barrier = s.barrier
  verbose : t.verbose = s.verbose

namespace SameBooks

theorem refl (s : Store) : s.SameBooks s := ⟨rfl, rfl, rfl, rfl, rfl, rfl, rfl, rfl⟩

theorem trans {s t u : Store} (first : s.SameBooks t) (second : t.SameBooks u) :
    s.SameBooks u where
  size := second.size.trans first.size
  dictionary := second.dictionary.trans first.dictionary
  compiling := second.compiling.trans first.compiling
  draft := second.draft.trans first.draft
  lastDefined := second.lastDefined.trans first.lastDefined
  lastCreated := second.lastCreated.trans first.lastCreated
  barrier := second.barrier.trans first.barrier
  verbose := second.verbose.trans first.verbose

end SameBooks

variable {s t : Store}

theorem sameBooks_pushAll (values : List Value) (s : Store) : s.SameBooks (s.pushAll values) :=
  ⟨rfl, rfl, rfl, rfl, rfl, rfl, rfl, rfl⟩

theorem sameBooks_take (n : Nat) (s : Store) : s.SameBooks (s.take n).2 :=
  ⟨rfl, rfl, rfl, rfl, rfl, rfl, rfl, rfl⟩

theorem sameBooks_tell (u : Utterance) (s : Store) : s.SameBooks (s.tell u) :=
  ⟨rfl, rfl, rfl, rfl, rfl, rfl, rfl, rfl⟩

theorem sameBooks_note (level : Level) (channel : Channel) (text : String) (s : Store) :
    s.SameBooks (s.note level channel text) := by
  unfold note
  split
  · exact ⟨rfl, rfl, rfl, rfl, rfl, rfl, rfl, rfl⟩
  · exact .refl s

theorem sameBooks_of_compute {value : Nat → Except Fault Value} {v : Value}
    (h : s.compute value = .ok (v, t)) : s.SameBooks t := by
  obtain ⟨_, _, made⟩ := exists_of_bind_ok h
  cases made
  exact ⟨rfl, rfl, rfl, rfl, rfl, rfl, rfl, rfl⟩

theorem sameBooks_of_swap (h : s.swap = .ok t) : s.SameBooks t := by
  unfold swap at h
  split at h <;> cases h
  exact ⟨rfl, rfl, rfl, rfl, rfl, rfl, rfl, rfl⟩

theorem sameBooks_of_drop (h : s.drop = .ok t) : s.SameBooks t := by
  unfold drop at h
  split at h <;> cases h
  exact ⟨rfl, rfl, rfl, rfl, rfl, rfl, rfl, rfl⟩

theorem sameBooks_of_spread (h : s.spread = .ok t) : s.SameBooks t := by
  unfold spread at h
  split at h <;> cases h
  · exact ⟨rfl, rfl, rfl, rfl, rfl, rfl, rfl, rfl⟩
  · exact ⟨rfl, rfl, rfl, rfl, rfl, rfl, rfl, rfl⟩

theorem sameBooks_of_gather {count : Value} (h : s.gather count = .ok t) :
    s.SameBooks t := by
  obtain ⟨_, _, counted⟩ := exists_of_bind_ok h
  obtain ⟨_, _, made⟩ := exists_of_bind_ok counted
  cases made
  exact ⟨rfl, rfl, rfl, rfl, rfl, rfl, rfl, rfl⟩

theorem sameBooks_of_pluck {index v : Value} (h : s.pluck index = .ok (v, t)) :
    s.SameBooks t := by
  obtain ⟨_, _, counted⟩ := exists_of_bind_ok h
  obtain ⟨_, _, made⟩ := exists_of_bind_ok counted
  cases made
  exact ⟨rfl, rfl, rfl, rfl, rfl, rfl, rfl, rfl⟩

theorem sameBooks_of_pop {count v : Value} (h : s.pop count = .ok (v, t)) :
    s.SameBooks t := by
  obtain ⟨n, _, counted⟩ := exists_of_bind_ok h
  obtain ⟨_, _, made⟩ := exists_of_bind_ok counted
  have taken := s.sameBooks_take n
  split at made
  · next rest took =>
    rw [took] at taken
    cases made
    exact taken
  · next rest _ took =>
    rw [took] at taken
    cases made
    exact taken.trans ⟨rfl, rfl, rfl, rfl, rfl, rfl, rfl, rfl⟩

theorem sameBooks_of_store {v target : Value} (h : s.store v target = .ok t) :
    s.SameBooks t := by
  unfold store at h
  split at h <;> cases h
  exact ⟨by simp, rfl, rfl, rfl, rfl, rfl, rfl, rfl⟩

theorem sameBooks_of_emit {v : Value} (h : s.emit v = .ok t) : s.SameBooks t := by
  obtain ⟨_, _, written⟩ := exists_of_bind_ok h
  cases written
  exact s.sameBooks_tell _

/-! ## Definitions -/

/-- Opens a definition whose code begins at `here`. -/
def openDraft (name : Word.Name) (here : Nat) (s : Store) : Store :=
  { s with draft := some (.opened name here), compiling := true, barrier := here }

/-- Adds a created word with a slot of its own. -/
def addCreated (name : String) (s : Store) : Store :=
  { s with
    dictionary := s.dictionary.push ⟨name, false, .created s.slots.size .none⟩
    slots := s.slots.push .none
    lastCreated := some s.dictionary.size
    lastDefined := some s.dictionary.size }

/-- Making a note changes nothing but the journal. -/
theorem note_eq (level : Level) (channel : Channel) (text : String) (s : Store) :
    ∃ notes, s.note level channel text = { s with journal := notes } := by
  unfold note
  split
  · exact ⟨_, rfl⟩
  · exact ⟨s.journal, rfl⟩

/-- Giving a definition up changes nothing besides but the journal. -/
theorem abandon_eq (s : Store) :
    ∃ notes, s.abandon = { s with journal := notes, compiling := false, draft := none } := by
  unfold abandon
  split
  · next draft _ =>
    obtain ⟨notes, noted⟩ :=
      note_eq .warning .compiler ("abandoning definition of '" ++ draft.name ++ "'") s
    exact ⟨notes, congrArg (fun t => { t with compiling := false, draft := none }) noted⟩
  · exact ⟨s.journal, rfl⟩

/-- Registering a word adds it to the dictionary, and may leave a note. -/
theorem sameBooks_install (w : Word) (s : Store) :
    SameBooks { s with dictionary := s.dictionary.push w } (s.install w) := by
  unfold install
  simp only
  split
  · unfold note
    split <;> exact ⟨rfl, rfl, rfl, rfl, rfl, rfl, rfl, rfl⟩
  · exact ⟨rfl, rfl, rfl, rfl, rfl, rfl, rfl, rfl⟩

theorem readName_eq_ok {v : Value} {name : Word.Name} (h : s.readName v = .ok name) :
    v = .text name.1 := by
  unfold readName Word.readName at h
  split at h
  · split at h <;> cases h
    rfl
  · cases h

/-- A name that passes the check is a text and not a blank one. -/
theorem checkName_eq_ok {v : Value} {name : String} (h : s.checkName v = .ok name) :
    v = .text name ∧ Text.allBlank name.toList = false := by
  obtain ⟨own, read, rfl⟩ := exists_of_map_ok h
  exact ⟨readName_eq_ok read, own.2⟩

theorem checkIdle_eq_ok {name : String} (h : s.checkIdle name = .ok ()) : s.compiling = false := by
  unfold checkIdle at h
  split at h
  · split at h <;> cases h
  · next idle => exact Bool.eq_false_iff.mpr idle

theorem define_eq_ok {here : Nat} {v : Value} (h : s.define here v = .ok t) :
    ∃ name, s.readName v = .ok name ∧ s.compiling = false ∧ t = s.openDraft name here := by
  obtain ⟨name, read, opened⟩ := exists_of_bind_ok h
  obtain ⟨_, idle, made⟩ := exists_of_bind_ok opened
  cases made
  exact ⟨name, read, checkIdle_eq_ok idle, rfl⟩

/-- A valid name opens a definition when nothing is compiled. -/
theorem define_text (here : Nat) {name : String} (valid : Text.allBlank name.toList = false)
    (idle : s.compiling = false) :
    s.define here (.text name) = .ok (s.openDraft ⟨name, valid⟩ here) := by
  have read : s.readName (.text name) = .ok ⟨name, valid⟩ := Word.readName_text valid
  have free : s.checkIdle name = .ok () := if_neg (Bool.eq_false_iff.mp idle)
  rw [define, read]
  simp only [bind, Except.bind, free]
  rfl

theorem create_eq_ok {v result : Value} (h : s.create v = .ok (result, t)) :
    ∃ name, s.checkName v = .ok name ∧ result = .cell s.slots.size ∧
      (s.addCreated name).SameBooks t := by
  obtain ⟨name, valid, made⟩ := exists_of_bind_ok h
  cases made
  refine ⟨name, valid, rfl, .trans ?_ (sameBooks_note ..)⟩
  have books := sameBooks_install ⟨name, false, .created s.slots.size .none⟩ s
  exact ⟨by simp [addCreated, books.size], books.dictionary, books.compiling, books.draft, rfl, rfl,
    books.barrier, books.verbose⟩

/-- What a primitive can do to the store. -/
theorem apply_cases {here : Nat} {p : Primitive} {arguments : List Value} {v : Value}
    (h : p.apply here arguments s = .ok (v, t)) :
    s.SameBooks t ∨
      (p = .define ∧ ∃ name, s.compiling = false ∧ t = s.openDraft name here) ∨
      (p = .create ∧ ∃ name, Text.allBlank name.toList = false ∧
        (s.addCreated name).SameBooks t) := by
  unfold Primitive.apply at h
  split at h
  case h_9 =>
    obtain ⟨_, defined, made⟩ := exists_of_bind_ok h
    obtain ⟨name, -, idle, opened⟩ := define_eq_ok defined
    cases made
    exact .inr (.inl ⟨rfl, name, idle, opened⟩)
  case h_12 =>
    obtain ⟨name, valid, _, books⟩ := create_eq_ok h
    exact .inr (.inr ⟨rfl, name, (checkName_eq_ok valid).2, books⟩)
  case h_28 => cases h
  -- what is left changes data only
  all_goals left
  case h_5 => exact sameBooks_of_pluck h
  case h_7 | h_19 | h_21 | h_27 =>
    cases h
    exact .refl _
  case h_8 =>
    cases h
    exact ⟨rfl, rfl, rfl, rfl, rfl, rfl, rfl, rfl⟩
  case h_13 | h_14 | h_15 | h_16 | h_17 | h_18 => exact sameBooks_of_compute h
  case h_24 =>
    cases h
    exact s.sameBooks_tell _
  all_goals
    obtain ⟨_, done, made⟩ := exists_of_bind_ok h
    cases made
  case h_1 => exact sameBooks_of_swap done
  case h_2 => exact sameBooks_of_drop done
  case h_3 => exact sameBooks_of_gather done
  case h_4 => exact sameBooks_of_spread done
  case h_11 => exact sameBooks_of_store done
  case h_25 => exact sameBooks_of_emit done
  case h_6 | h_10 | h_20 => exact .refl _
  case h_22 | h_23 | h_26 => exact s.sameBooks_tell _

end Store

/-! ## Edits -/

namespace Machine

/-- Finishes an open definition: its code gets its last exit and the dictionary its
word. -/
def closeDraft (draft : Draft) (m : Machine) : Machine :=
  { m.append .exit with
    compiling := false
    draft := none
    dictionary := m.dictionary.push ⟨draft.name, draft.immediate, .colon draft.address⟩
    lastDefined := some m.dictionary.size }

/-- The cells that are compiled one at a time: an exit, literals, the cell of a word that
is not immediate, and the call of the open definition by its own name. -/
inductive Compiled (m : Machine) : Cell → Prop where
  | exit : Compiled m .exit
  | literal (values : List Value) : Compiled m (.literal values)
  | entry {entry : Nat} {w : Word} (known : m.dictionary.get? entry = some w)
      (plain : w.immediate = false) : Compiled m (cellOf entry w)
  | own {draft : Draft} (open_ : m.draft = some draft) :
      Compiled m (.call draft.address draft.name)

/-- One elementary change of a machine. -/
inductive Edit (m : Machine) : Machine → Prop where
  /-- The data change, and the books do not. -/
  | data {s : Store} (same : m.toStore.SameBooks s) : Edit m { m with toStore := s }
  /-- A definition is opened. -/
  | openDraft {name : Word.Name} (idle : m.compiling = false) :
      Edit m { m with toStore := m.toStore.openDraft name m.code.size }
  /-- The open definition is dropped. -/
  | dropDraft : Edit m { m with compiling := false, draft := none }
  /-- The open definition is marked as immediate. -/
  | markDraft {draft : Draft} (open_ : m.draft = some draft) :
      Edit m { m with draft := some { draft with immediate := true } }
  /-- The word that was defined last is marked as immediate. -/
  | markEntry {entry : Nat} (last : m.lastDefined = some entry) :
      Edit m { m with dictionary := m.dictionary.markImmediate entry }
  /-- A word is created. -/
  | create {name : String} (valid : Text.allBlank name.toList = false) :
      Edit m { m with toStore := m.toStore.addCreated name }
  /-- A cell is compiled. -/
  | append {cell : Cell} (compiling : m.compiling = true) (made : Compiled m cell) :
      Edit m (m.append cell)
  /-- Literals are joined to the last cell. -/
  | join {cell : Cell} {values all : List Value} (compiling : m.compiling = true)
      (last : m.code.back? = some cell) (free : m.barrier ≤ m.code.size - 1)
      (joined : cell.openValues values = .ok (some all)) :
      Edit m { m with code := m.code.pop.push (.literal all) }
  /-- A behavior is begun. -/
  | does (compiling : m.compiling = true) :
      Edit m { (m.append (.does (m.code.size + 2 : Nat))).append .exit with
        barrier := m.code.size + 2 }
  /-- The open definition is finished. -/
  | finish {draft : Draft} (compiling : m.compiling = true) (open_ : m.draft = some draft) :
      Edit m (m.closeDraft draft)
  /-- Compiling ends when there is no open definition. -/
  | close (compiling : m.compiling = true) (none_ : m.draft = none) :
      Edit m { m.append .exit with compiling := false, draft := none }

/-- Any number of edits, one after another. -/
abbrev Edits : Machine → Machine → Prop := Relation.ReflTransGen Edit

/-- The execution of the two machines stands at the same point. -/
structure SamePoint (m after : Machine) : Prop where
  ip : after.ip = m.ip
  returns : after.returns = m.returns
  capacity : after.capacity = m.capacity

theorem SamePoint.refl (m : Machine) : m.SamePoint m := ⟨rfl, rfl, rfl⟩

theorem SamePoint.trans {a b c : Machine} (first : a.SamePoint b) (second : b.SamePoint c) :
    a.SamePoint c where
  ip := second.ip.trans first.ip
  returns := second.returns.trans first.returns
  capacity := second.capacity.trans first.capacity

variable {m after : Machine}

theorem Edit.samePoint (changed : Edit m after) : m.SamePoint after := by
  cases changed <;> exact ⟨rfl, rfl, rfl⟩

/-- Edits leave the execution alone. -/
theorem Edits.samePoint (changed : Edits m after) : m.SamePoint after := by
  induction changed with
  | refl => exact .refl m
  | tail _ last ih => exact ih.trans last.samePoint

theorem edits_data {s : Store} (same : m.toStore.SameBooks s) :
    Edits m { m with toStore := s } :=
  .single (.data same)

theorem edits_pushAll (values : List Value) (m : Machine) : Edits m (m.pushAll values) :=
  edits_data (m.toStore.sameBooks_pushAll values)

theorem edits_note (level : Level) (channel : Channel) (text : String) (m : Machine) :
    Edits m (m.note level channel text) :=
  edits_data (m.toStore.sameBooks_note level channel text)

theorem edits_tell (u : Utterance) (m : Machine) : Edits m (m.tell u) :=
  edits_data (m.toStore.sameBooks_tell u)

theorem edits_pushResult (n : Native) (v : Value) (m : Machine) :
    Edits m (m.pushResult n v) := by
  unfold pushResult
  split
  · exact m.edits_pushAll [v]
  · exact .refl

theorem edits_marking {α : Type} (work : Value.Marking α) (m : Machine) :
    Edits m (m.marking work).machine := by
  rcases m.marking_cases work with ⟨a, next, made⟩ | ⟨f, made⟩
  · rw [made]
    exact edits_data ⟨rfl, rfl, rfl, rfl, rfl, rfl, rfl, rfl⟩
  · rw [made]
    exact .refl

/-- Dropping a definition leaves a note of it. -/
theorem edits_abandon (m : Machine) : Edits m { m with toStore := m.toStore.abandon } := by
  unfold Store.abandon
  split
  · next draft _ =>
    exact .tail (m.edits_note .warning .compiler _) .dropDraft
  · exact .single .dropDraft

theorem edits_abandonIfCompiling (m : Machine) : Edits m m.abandonIfCompiling := by
  unfold abandonIfCompiling
  split
  · exact m.edits_abandon
  · exact .refl

/-- What stopping leaves. -/
theorem abort_eq (m : Machine) :
    ∃ notes, m.abort = { m with
      journal := notes, compiling := false, draft := none, returns := .empty, ip := none } := by
  obtain ⟨notes, abandoned⟩ := m.toStore.abandon_eq
  obtain ⟨notes', noted⟩ := Store.note_eq .debug .core
    s!"aborted; data stack depth {m.toStore.abandon.stack.depth}" m.toStore.abandon
  refine ⟨notes', congrArg (fun s => { m with toStore := s, returns := .empty, ip := none })
    (noted.trans ?_)⟩
  rw [abandoned]

/-- Stopping empties the return stack, and is made of edits otherwise. -/
theorem edits_abort (m : Machine) : Edits { m with returns := .empty, ip := none } m.abort :=
  .trans (edits_abandon { m with returns := .empty, ip := none }) (edits_note _ _ _ _)

/-! ## Directives -/

/-- Registering the word of a finished definition is one edit and a note. -/
theorem edits_installDraft {draft : Draft} (compiling : m.compiling = true)
    (open_ : m.draft = some draft) :
    Edits m ({ m.append .exit with compiling := false, draft := none }.installDraft draft) := by
  refine .trans (.single (.finish compiling open_)) (.trans ?_ (edits_note _ _ _ _))
  have books := Store.sameBooks_install ⟨draft.name, draft.immediate, .colon draft.address⟩
    { m.toStore with compiling := false, draft := none }
  exact edits_data ⟨books.size, books.dictionary, books.compiling, books.draft, rfl,
    books.lastCreated, books.barrier, books.verbose⟩

theorem compiling_of_require {word : String} (h : m.requireCompiling word = .ok ()) :
    m.compiling = true := by
  unfold requireCompiling at h
  split at h
  · assumption
  · cases h

theorem edits_finish (h : m.finish = .ok after) : Edits m after := by
  obtain ⟨_, required, closed⟩ := exists_of_bind_ok h
  have compiling := compiling_of_require required
  split at closed
  · next draft open_ =>
    cases closed
    exact edits_installDraft compiling open_
  · next none_ =>
    cases closed
    exact .single (.close compiling none_)

theorem edits_markImmediate (h : m.markImmediate = .ok after) : Edits m after := by
  unfold markImmediate at h
  split at h
  · next _ open_ =>
    cases h
    exact .single (.markDraft open_)
  · next last _ =>
    cases h
    exact .single (.markEntry last)
  · cases h

/-- Writing literals is one edit: they are joined to the last cell or get one of their
own. -/
theorem edit_writeLiterals {values : List Value} {joined : Option (List Value)}
    (compiling : m.compiling = true) (h : m.joinedLiterals values = .ok joined) :
    Edit m (m.writeLiterals values joined) := by
  unfold writeLiterals
  cases joined with
  | none => exact .append compiling (.literal values)
  | some all =>
    unfold joinedLiterals at h
    split at h
    · next cell last =>
      split at h
      · next free => exact .join compiling last free h
      · cases h
    · cases h

theorem edits_compileDoes (h : m.compileDoes = .ok after) : Edits m after := by
  obtain ⟨_, required, made⟩ := exists_of_bind_ok h
  cases made
  exact .single (.does (compiling_of_require required))

end Machine

/-- A directive amounts to edits. -/
theorem Directive.edits_apply {d : Directive} {arguments : List Value} {m after : Machine}
    (h : d.apply arguments m = .ok after) : Machine.Edits m after := by
  unfold Directive.apply at h
  split at h
  · exact Machine.edits_finish h
  · exact Machine.edits_markImmediate h
  · obtain ⟨_, required, made⟩ := exists_of_bind_ok h
    cases made
    exact .single (.append (Machine.compiling_of_require required) .exit)
  · obtain ⟨_, required, compiled⟩ := exists_of_bind_ok h
    obtain ⟨joined, found, made⟩ := exists_of_bind_ok compiled
    cases made
    exact .single (Machine.edit_writeLiterals (Machine.compiling_of_require required) found)
  · exact Machine.edits_compileDoes h
  · cases h

theorem Directive.edits_perform (d : Directive) (arguments : List Value) (m : Machine) :
    Machine.Edits m (d.perform arguments m).machine := by
  rw [Directive.perform_eq]
  split
  · next after ends => exact Directive.edits_apply ends
  · exact .refl

/-- A primitive amounts to edits. -/
theorem Primitive.edits_perform (p : Primitive) (arguments : List Value) (m : Machine) :
    Machine.Edits m (p.perform arguments m).machine := by
  rw [Primitive.perform_eq]
  unfold Outcome.ofStore
  split
  · next v s ends =>
    rcases Store.apply_cases ends with same | ⟨-, name, idle, rfl⟩ | ⟨-, name, valid, same⟩
    · exact Machine.edits_data same
    · exact .single (.openDraft idle)
    · exact .tail (.single (.create valid)) (.data same)
  · exact .refl

/-- The operation leaves the machine in one condition if it succeeds, and in another one if it
fails. -/
def Outcome.EndsIn {α : Type} (J K : Machine → Prop) : Outcome α → Prop
  | .done _ m => J m
  | .failed _ m => K m

theorem Outcome.endsIn_iff {α : Type} {J : Machine → Prop} {o : Outcome α} :
    o.EndsIn J J ↔ J o.machine := by
  cases o <;> rfl

/-- What the action of a native word leads to, the call of the word leads to: its arguments are
taken off, it does its work, and its result is pushed, or its arguments are put back. -/
theorem Machine.endsIn_callWith {J K : Machine → Prop} {name : String} {n : Native} {m : Machine}
    {perform : List Value → Machine → Outcome Value}
    (pushed : ∀ values after, J after → J (after.pushAll values))
    (returned : ∀ values after, K after → K (after.pushAll values))
    (short : m.stack.depth < n.arity → K m)
    (performs : n.arity ≤ m.stack.depth → (perform (m.toStore.take n.arity).1
      { m with toStore := (m.toStore.take n.arity).2 }).EndsIn J K) :
    (m.callWith name n perform).EndsIn J K := by
  unfold Machine.callWith
  split
  · next missing => exact short missing
  · next enough =>
    have performed := performs (Nat.le_of_not_lt enough)
    simp only
    cases ends : perform (m.toStore.take n.arity).1
        { m with toStore := (m.toStore.take n.arity).2 } with
    | done result after =>
      rw [ends] at performed
      show J (after.pushResult n result)
      unfold pushResult
      split
      · exact pushed [result] after performed
      · exact performed
    | failed f after =>
      rw [ends] at performed
      simp only [Outcome.onFault, Outcome.bind_failed]
      show K (if f.isInterrupt then after else after.pushAll _)
      split
      · exact performed
      · exact returned _ after performed

/-- Calling a native word amounts to edits if its action does. -/
theorem Machine.edits_callWith {perform : List Value → Machine → Outcome Value}
    (performs : ∀ arguments m, Machine.Edits m (perform arguments m).machine) (name : String)
    (n : Native) (m : Machine) : Machine.Edits m (m.callWith name n perform).machine := by
  have pushed : ∀ values after, Edits m after → Edits m (after.pushAll values) :=
    fun values after changed => changed.trans (after.edits_pushAll values)
  have taken := Machine.edits_data (m.toStore.sameBooks_take n.arity)
  refine Outcome.endsIn_iff.mp (endsIn_callWith pushed pushed (fun _ => .refl) fun _ => ?_)
  exact Outcome.endsIn_iff.mpr (taken.trans (performs _ _))

theorem Machine.edits_callPrimitive (name : String) (n : Native) (p : Primitive) (m : Machine) :
    Machine.Edits m (m.callWith name n p.perform).machine :=
  Machine.edits_callWith p.edits_perform name n m

/-- A native word that is no host callable amounts to edits. -/
theorem Machine.edits_callNative {name : String} {n : Native} {m : Machine} (call : Caller)
    (own : ∀ f, n.action ≠ .host f) : Machine.Edits m (m.callNative call name n).machine := by
  unfold callNative
  cases kind : n.action with
  | primitive p => exact edits_callWith p.edits_perform name n m
  | directive d => exact edits_callWith d.edits_perform name n m
  | host f => exact absurd kind (own f)

/-! ## Feeding -/

namespace Machine

variable {m : Machine}

theorem edits_interpretLiterals (values : List Value) (m : Machine) :
    Edits m (m.interpretLiterals values).machine := by
  unfold interpretLiterals
  split
  · next compiling =>
    split
    · next joined found => exact .single (edit_writeLiterals compiling found)
    · exact .refl
  · exact m.edits_pushAll values

/-- The name of the open definition compiles to a call of it. -/
theorem edit_append_own {name : String} {address : Nat} (h : m.ownAddress? name = some address) :
    Edit m (m.append (.call address name)) := by
  unfold ownAddress? at h
  split at h
  · next draft compiling open_ =>
    split at h
    · next same =>
      cases h
      subst same
      exact .append compiling (.own open_)
    · cases h
  · cases h

/-- A name means an entry of the dictionary that has it. -/
theorem exists_get?_of_lookup {name : String} {entry : Nat} (h : m.lookup name = .ok entry) :
    ∃ w, m.dictionary.get? entry = some w ∧ w.name = name := by
  unfold Store.lookup at h
  split at h
  · next found =>
    cases h
    exact Dictionary.exists_get?_of_find? found
  · cases h

end Machine
end ThreadedForth
