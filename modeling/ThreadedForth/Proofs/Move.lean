import ThreadedForth.Proofs.Known
import ThreadedForth.Proofs.Turn

/-!
# Moves

`Machine.Edit` lists what words can do to the books of a machine, and says nothing about its
data.  Here it is the other way round.  A move (`Machine.Move`) is one change of what the
machine holds: of its data stack, its slots, its code or its dictionary.  Nothing is said
about who makes it and why: a cell may be appended although nothing is being compiled, since
cells are handed in as well, and any word may be marked as immediate.

Two kinds of moves reach back to what has been there for long.  A value is stored into a
slot, and a word is given a behavior.  Both are made only where a `Machine.Permit` says so.
And there is one that changes code: literals are joined to the last cell, if it can be joined.

Whatever a move puts into the machine is known to it (`Value.Known`).  So all values in the
machine stay known, in the code and in the bodies of the words too (`Machine.Moves.tidy`).

The rest of the module takes the parts of the machine one after the other and says that they
amount to moves: notes, literals, directives, primitives (`Machine.brings_primitive`), the
calling convention (`Machine.moves_callWith`), and at last a turn (`Machine.Leaves.moves`).
-/

namespace ThreadedForth

/-- The values in the cell are known. -/
def Cell.Known (b : Bounds) : Cell → Prop
  | .literal values => ∀ v ∈ values, v.Known b
  | .foreign items => ∀ v ∈ items, v.Known b
  | _ => True

/-- The values in the body of a word are known, and so is its slot. -/
def Body.Known (b : Bounds) : Body → Prop
  | .native n => ∀ v, n.action = .primitive (.constant v) → v.Known b
  | .colon _ => True
  | .created slot behavior => slot < b.slots ∧ behavior.Known b

variable {b c : Bounds}

theorem Cell.Known.mono (below : b ≤ c) {cell : Cell} (known : cell.Known b) : cell.Known c := by
  cases cell with
  | literal values => exact fun v inside => (known v inside).mono below
  | foreign items => exact fun v inside => (known v inside).mono below
  | _ => trivial

theorem Body.Known.mono (below : b ≤ c) {body : Body} (known : body.Known b) : body.Known c := by
  cases body with
  | native n => exact fun v same => (known v same).mono below
  | colon address => trivial
  | created slot behavior =>
    exact ⟨Nat.lt_of_lt_of_le known.1 below.2, known.2.mono below⟩

/-- A cell that a row of known values spells is known. -/
theorem Cell.known_ofItems {items : List Value} (known : ∀ v ∈ items, v.Known b) :
    (Cell.ofItems items).Known b := by
  unfold Cell.ofItems
  split
  · trivial
  · next mark values =>
    have row := known (.tuple mark values) (by simp)
    exact (Value.known_tuple.mp row).2
  · trivial
  · trivial
  · exact known

/-- Literals are joined to known ones. -/
theorem Cell.known_openValues {cell : Cell} {values all : List Value} (known : cell.Known b)
    (added : ∀ v ∈ values, v.Known b) (joined : cell.openValues values = .ok (some all)) :
    ∀ v ∈ all, v.Known b := by
  have both : ∀ {old : List Value}, (∀ v ∈ old, v.Known b) → ∀ v ∈ old ++ values, v.Known b := by
    intro old first v inside
    rcases List.mem_append.mp inside with own | new
    · exact first v own
    · exact added v new
  unfold Cell.openValues at joined
  split at joined
  · cases joined
    exact both known
  · cases joined
  · cases joined
  · next v rest =>
    have row := known v (by simp)
    split at joined
    · cases joined
      exact both (Value.known_tuple.mp row).2
    · cases joined
    · cases joined
    · cases joined
  · cases joined

namespace Machine

/-- What the machine knows. -/
abbrev bounds (m : Machine) : Bounds := m.toStore.bounds

/-- All values that the machine holds are known. -/
structure Tidy (m : Machine) : Prop extends m.toStore.Tidy where
  code : ∀ cell ∈ m.code, cell.Known m.bounds
  words : ∀ entry w, m.dictionary.get? entry = some w → w.body.Known m.bounds

/-- Which slots may be stored into, and which words may be given a behavior. -/
structure Permit where
  slot : Nat → Prop
  entry : Nat → Prop

/-- The machines hold the same things.  They may differ in what is being compiled or run. -/
structure SameHoldings (m after : Machine) : Prop where
  stack : after.stack = m.stack
  slots : after.slots = m.slots
  nextMark : after.nextMark = m.nextMark
  code : after.code = m.code
  dictionary : after.dictionary = m.dictionary
  lastCreated : after.lastCreated = m.lastCreated
  capacity : after.capacity = m.capacity

/-- One elementary change of what a machine holds. -/
inductive Move (permit : Permit) (m : Machine) : Machine → Prop where
  | books {after : Machine} (same : m.SameHoldings after) : Move permit m after
  /-- The data stack changes, and marks may be taken. -/
  | data {s : Store} (reckons : m.toStore.Reckons s) : Move permit m { m with toStore := s }
  | store {slot : Nat} {v : Value} (permitted : permit.slot slot) (known : v.Known m.bounds) :
      Move permit m { m with slots := m.slots.setIfInBounds slot v }
  | append {cell : Cell} (known : cell.Known m.bounds) : Move permit m (m.append cell)
  /-- Literals are joined to the last cell. -/
  | join {cell : Cell} {values all : List Value} (last : m.code.back? = some cell)
      (known : ∀ v ∈ values, v.Known m.bounds)
      (joined : cell.openValues values = .ok (some all)) :
      Move permit m { m with code := m.code.pop.push (.literal all) }
  /-- A word is marked as immediate. -/
  | mark (entry : Nat) : Move permit m { m with dictionary := m.dictionary.markImmediate entry }
  | register {w : Word} (known : w.body.Known m.bounds) :
      Move permit m { m with dictionary := m.dictionary.push w }
  /-- A word is registered that has a new slot. -/
  | create (name : String) :
      Move permit m { m with
        slots := m.slots.push .none
        dictionary := m.dictionary.push ⟨name, false, .created m.slots.size .none⟩
        lastCreated := some m.dictionary.size }
  /-- A word is given a behavior. -/
  | bind {entry : Nat} {v : Value} (permitted : permit.entry entry) (known : v.Known m.bounds) :
      Move permit m { m with dictionary := m.dictionary.setBehavior entry v }

/-- Any number of moves, one after another. -/
abbrev Moves (permit : Permit) : Machine → Machine → Prop := Relation.ReflTransGen (Move permit)

variable {permit : Permit} {m after : Machine}

theorem SameHoldings.bounds (same : m.SameHoldings after) : after.bounds = m.bounds := by
  show Bounds.mk after.nextMark after.slots.size = Bounds.mk m.nextMark m.slots.size
  rw [same.nextMark, same.slots]

theorem Move.bounds_le (moved : Move permit m after) : m.bounds ≤ after.bounds := by
  cases moved with
  | books same => exact same.bounds ▸ Bounds.le_refl _
  | data reckons => exact reckons.bounds_le
  | store permitted known =>
    exact ⟨Nat.le_refl _, Nat.le_of_eq (Array.size_setIfInBounds).symm⟩
  | create name => exact ⟨Nat.le_refl _, by simp [Store.bounds]⟩
  | _ => exact Bounds.le_refl _

/-- What is known stays known, so only what has changed has to be looked at. -/
theorem Tidy.of_changed (tidy : m.Tidy) (below : m.bounds ≤ after.bounds)
    (stack : ∀ v ∈ after.stack.items, v ∈ m.stack.items ∨ v.Known after.bounds)
    (slots : ∀ v ∈ after.slots, v ∈ m.slots ∨ v.Known after.bounds)
    (code : ∀ cell ∈ after.code, cell ∈ m.code ∨ cell.Known after.bounds)
    (words : ∀ entry w, after.dictionary.get? entry = some w →
      (∃ v, m.dictionary.get? entry = some v ∧ v.body = w.body) ∨ w.body.Known after.bounds) :
    after.Tidy where
  stack v inside := (stack v inside).elim (fun old => (tidy.stack v old).mono below) id
  slots v inside := (slots v inside).elim (fun old => (tidy.slots v old).mono below) id
  code cell inside := (code cell inside).elim (fun old => (tidy.code cell old).mono below) id
  words entry w known := by
    rcases words entry w known with ⟨v, old, same⟩ | new
    · rw [← same]
      exact (tidy.words entry v old).mono below
    · exact new

theorem Move.tidy (tidy : m.Tidy) (moved : Move permit m after) : after.Tidy := by
  have below := moved.bounds_le
  have same_words : ∀ entry w, m.dictionary.get? entry = some w →
      (∃ v, m.dictionary.get? entry = some v ∧ v.body = w.body) ∨ w.body.Known after.bounds :=
    fun entry w known => .inl ⟨w, known, rfl⟩
  cases moved with
  | books same =>
    refine tidy.of_changed below ?_ ?_ ?_ ?_
    · exact fun v inside => .inl (same.stack ▸ inside)
    · exact fun v inside => .inl (same.slots ▸ inside)
    · exact fun cell inside => .inl (same.code ▸ inside)
    · exact fun entry w known => same_words entry w (same.dictionary ▸ known)
  | data reckons =>
    refine tidy.of_changed below ?_ ?_ (fun _ => .inl) ?_
    · exact fun v inside => .inr (reckons.stack v inside)
    · exact fun v inside => .inl (reckons.slots ▸ inside)
    · exact fun entry w known => same_words entry w (reckons.books.dictionary ▸ known)
  | store permitted known =>
    refine tidy.of_changed below (fun _ => .inl) (fun v inside => ?_) (fun _ => .inl) same_words
    rcases Array.mem_or_eq_of_mem_setIfInBounds inside with old | rfl
    · exact .inl old
    · exact .inr (known.mono below)
  | append known =>
    refine tidy.of_changed below (fun _ => .inl) (fun _ => .inl) (fun cell inside => ?_) same_words
    rcases Array.mem_push.mp inside with old | rfl
    · exact .inl old
    · exact .inr known
  | join last known joined =>
    refine tidy.of_changed below (fun _ => .inl) (fun _ => .inl) (fun cell inside => ?_) same_words
    obtain ⟨earlier, same⟩ := Array.back?_eq_some_iff.mp last
    rcases Array.mem_push.mp inside with old | rfl
    · rw [same, Array.pop_push] at old
      exact .inl (same ▸ Array.mem_push_of_mem _ old)
    · have open_ := tidy.code _ (same ▸ Array.mem_push_self)
      exact .inr (Cell.known_openValues open_ known joined)
  | mark entry =>
    refine tidy.of_changed below (fun _ => .inl) (fun _ => .inl) (fun _ => .inl) ?_
    intro other w known
    rw [Dictionary.get?_markImmediate] at known
    split at known
    · obtain ⟨v, old, rfl⟩ := Option.map_eq_some_iff.mp known
      exact .inl ⟨v, old, rfl⟩
    · exact .inl ⟨w, known, rfl⟩
  | register known =>
    refine tidy.of_changed below (fun _ => .inl) (fun _ => .inl) (fun _ => .inl) ?_
    intro entry w found
    rcases Dictionary.get?_push found with old | ⟨-, rfl⟩
    · exact .inl ⟨w, old, rfl⟩
    · exact .inr known
  | create name =>
    refine tidy.of_changed below (fun _ => .inl) (fun v inside => ?_) (fun _ => .inl) ?_
    · rcases Array.mem_push.mp inside with old | rfl
      · exact .inl old
      · exact .inr Value.known_none
    · intro entry w found
      rcases Dictionary.get?_push found with old | ⟨-, rfl⟩
      · exact .inl ⟨w, old, rfl⟩
      · exact .inr ⟨by simp [Store.bounds], Value.known_none⟩
  | @bind entry v permitted known =>
    refine tidy.of_changed below (fun _ => .inl) (fun _ => .inl) (fun _ => .inl) ?_
    intro other w found
    rw [Dictionary.get?_setBehavior] at found
    split at found
    · obtain ⟨⟨name, immediate, body⟩, old, rfl⟩ := Option.map_eq_some_iff.mp found
      have before := tidy.words other _ old
      cases body with
      | created slot behavior => exact .inr ⟨before.1, known⟩
      | native n => exact .inl ⟨_, old, rfl⟩
      | colon address => exact .inl ⟨_, old, rfl⟩
    · exact .inl ⟨w, found, rfl⟩

theorem Moves.tidy (tidy : m.Tidy) (moved : Moves permit m after) : after.Tidy := by
  induction moved with
  | refl => exact tidy
  | tail _ last ih => exact last.tidy ih

theorem Moves.bounds_le (moved : Moves permit m after) : m.bounds ≤ after.bounds := by
  induction moved with
  | refl => exact Bounds.le_refl _
  | tail _ last ih => exact Bounds.le_trans ih last.bounds_le

/-- Words are never taken away. -/
theorem Move.size_le (moved : Move permit m after) :
    m.dictionary.size ≤ after.dictionary.size := by
  cases moved with
  | books same => exact Nat.le_of_eq (congrArg Dictionary.size same.dictionary).symm
  | data reckons => exact Nat.le_of_eq (congrArg Dictionary.size reckons.books.dictionary).symm
  | mark entry => simp
  | register known => simp
  | create name => simp
  | bind permitted known => simp
  | _ => exact Nat.le_refl _

/-- If nothing had been created, then what has been created last is a new word. -/
theorem Moves.created_since (moved : Moves permit m after) (nothing : m.lastCreated = none) :
    m.dictionary.size ≤ after.dictionary.size ∧
      ∀ entry, after.lastCreated = some entry → m.dictionary.size ≤ entry := by
  induction moved with
  | refl => exact ⟨Nat.le_refl _, fun entry last => absurd last (by simp [nothing])⟩
  | @tail middle after _ step ih =>
    obtain ⟨grown, since⟩ := ih
    refine ⟨Nat.le_trans grown step.size_le, ?_⟩
    cases step with
    | books same => exact fun entry last => since entry (same.lastCreated ▸ last)
    | data reckons => exact fun entry last => since entry (reckons.books.lastCreated ▸ last)
    | create name =>
      rintro entry ⟨⟩
      exact grown
    | _ => exact since

/-! ## What the parts of the machine amount to -/

/-- What goes on after a success goes on from a tidy machine. -/
theorem moves_bind {α β : Type} {o : Outcome α} {next : α → Machine → Outcome β} (tidy : m.Tidy)
    (first : Moves permit m o.machine)
    (second : ∀ a after, o = .done a after → Moves permit m after → after.Tidy →
      Moves permit after (next a after).machine) : Moves permit m (o.bind next).machine := by
  cases o with
  | failed f after => exact first
  | done a after => exact first.trans (second a after rfl first (Moves.tidy tidy first))

theorem moves_books (same : m.SameHoldings after) : Moves permit m after := .single (.books same)

theorem moves_reckons {s : Store} (reckons : m.toStore.Reckons s) :
    Moves permit m { m with toStore := s } :=
  .single (.data reckons)

theorem sameHoldings_note (level : Level) (channel : Channel) (text : String) (m : Machine) :
    m.SameHoldings (m.note level channel text) := by
  obtain ⟨notes, noted⟩ := m.toStore.note_eq level channel text
  unfold note
  rw [noted]
  exact ⟨rfl, rfl, rfl, rfl, rfl, rfl, rfl⟩

theorem moves_note (level : Level) (channel : Channel) (text : String) (m : Machine) :
    Moves permit m (m.note level channel text) :=
  moves_books (m.sameHoldings_note level channel text)

theorem moves_tell (u : Utterance) (m : Machine) : Moves permit m (m.tell u) :=
  moves_books ⟨rfl, rfl, rfl, rfl, rfl, rfl, rfl⟩

theorem moves_abandon (m : Machine) : Moves permit m { m with toStore := m.toStore.abandon } := by
  unfold Store.abandon
  split
  · next draft _ =>
    refine .tail (m.moves_note .warning .compiler
      ("abandoning definition of '" ++ draft.name ++ "'")) (.books ?_)
    exact ⟨rfl, rfl, rfl, rfl, rfl, rfl, rfl⟩
  · exact moves_books ⟨rfl, rfl, rfl, rfl, rfl, rfl, rfl⟩

theorem moves_abandonIfCompiling (m : Machine) : Moves permit m m.abandonIfCompiling := by
  unfold abandonIfCompiling
  split
  · exact m.moves_abandon
  · exact .refl

theorem moves_abort (m : Machine) : Moves permit m m.abort := by
  have stopped : Moves permit m { m with returns := .empty, ip := none } :=
    moves_books ⟨rfl, rfl, rfl, rfl, rfl, rfl, rfl⟩
  exact stopped.trans (.trans (moves_abandon { m with returns := .empty, ip := none })
    (moves_note _ _ _ _))

theorem moves_discardStale (m : Machine) : Moves permit m m.discardStale := by
  obtain ⟨notes, stale⟩ := m.discardStale_eq
  rw [stale]
  exact moves_books ⟨rfl, rfl, rfl, rfl, rfl, rfl, rfl⟩

theorem moves_pushAll {values : List Value} (tidy : m.Tidy)
    (known : ∀ v ∈ values, v.Known m.bounds) : Moves permit m (m.pushAll values) := by
  refine moves_reckons (Store.Tidy.reckons_stack fun v inside => ?_)
  rw [Stack.items_pushAll, List.mem_append, List.mem_reverse] at inside
  rcases inside with new | old
  · exact known v new
  · exact tidy.stack v old

theorem moves_pushResult {v : Value} (tidy : m.Tidy) (n : Native) (known : v.Known m.bounds) :
    Moves permit m (m.pushResult n v) := by
  unfold pushResult
  split
  · exact moves_pushAll tidy (by simpa using known)
  · exact .refl

/-! ### Compiling -/

theorem moves_writeLiterals {values : List Value} {joined : Option (List Value)}
    (known : ∀ v ∈ values, v.Known m.bounds) (h : m.joinedLiterals values = .ok joined) :
    Moves permit m (m.writeLiterals values joined) := by
  unfold writeLiterals
  cases joined with
  | none => exact .single (.append known)
  | some all =>
    unfold joinedLiterals at h
    split at h
    · next cell last =>
      split at h
      · exact .single (.join last known h)
      · cases h
    · cases h

theorem moves_interpretLiterals {values : List Value} (tidy : m.Tidy)
    (known : ∀ v ∈ values, v.Known m.bounds) :
    Moves permit m (m.interpretLiterals values).machine := by
  unfold interpretLiterals
  split
  · split
    · next joined found => exact moves_writeLiterals known found
    · exact .refl
  · exact moves_pushAll tidy known

theorem moves_install (w : Word) (known : w.body.Known m.bounds) :
    Moves permit m { m with toStore := m.toStore.install w } := by
  obtain ⟨notes, installed⟩ := m.toStore.install_eq w
  rw [installed]
  exact .tail (.single (.register known)) (.books ⟨rfl, rfl, rfl, rfl, rfl, rfl, rfl⟩)

theorem moves_installDraft (draft : Draft) (m : Machine) :
    Moves permit m (m.installDraft draft) := by
  refine .trans (.trans (moves_install ⟨draft.name, draft.immediate, .colon draft.address⟩
    trivial) ?_) (moves_note _ _ _ _)
  exact moves_books ⟨rfl, rfl, rfl, rfl, rfl, rfl, rfl⟩

end Machine

/-- A directive amounts to moves. -/
theorem Directive.moves_perform {permit : Machine.Permit} {m : Machine} (d : Directive)
    {arguments : List Value} (known : ∀ v ∈ arguments, v.Known m.bounds) :
    Machine.Moves permit m (d.perform arguments m).machine := by
  have appended : ∀ {m : Machine}, Machine.Moves permit m (m.append .exit) :=
    .single (.append trivial)
  rw [Directive.perform_eq]
  split
  · next after ends =>
    unfold Directive.apply at ends
    split at ends
    · obtain ⟨_, _, closed⟩ := exists_of_bind_ok ends
      have shut : Machine.Moves permit m
          { m.append .exit with compiling := false, draft := none } :=
        .tail appended (.books ⟨rfl, rfl, rfl, rfl, rfl, rfl, rfl⟩)
      split at closed
      · next draft _ =>
        cases closed
        exact shut.trans (Machine.moves_installDraft draft _)
      · cases closed
        exact shut
    · unfold Machine.markImmediate at ends
      split at ends
      · cases ends
        exact Machine.moves_books ⟨rfl, rfl, rfl, rfl, rfl, rfl, rfl⟩
      · cases ends
        exact .single (.mark _)
      · cases ends
    · obtain ⟨_, _, made⟩ := exists_of_bind_ok ends
      cases made
      exact appended
    · obtain ⟨_, _, compiled⟩ := exists_of_bind_ok ends
      obtain ⟨joined, found, made⟩ := exists_of_bind_ok compiled
      cases made
      exact Machine.moves_writeLiterals known found
    · obtain ⟨_, _, made⟩ := exists_of_bind_ok ends
      cases made
      have begun : Machine.Moves permit m (m.append (.does (m.here + 2 : Nat))) :=
        .single (.append trivial)
      exact .tail (begun.trans appended) (.books ⟨rfl, rfl, rfl, rfl, rfl, rfl, rfl⟩)
    · cases ends
  · exact .refl

namespace Machine

variable {permit : Permit} {m : Machine}

/-- An operation amounts to moves, and its result is known. -/
def Brings (permit : Permit) (m : Machine) (o : Outcome Value) : Prop :=
  Moves permit m o.machine ∧ ∀ v after, o = .done v after → v.Known after.bounds

/-- An operation that has failed has no result. -/
theorem Brings.failed {after : Machine} (f : Fault) (moved : Moves permit m after) :
    Brings permit m (.failed f after) := by
  refine ⟨moved, ?_⟩
  rintro v ended ⟨⟩

theorem moves_create {name result : Value} {s : Store}
    (h : m.toStore.create name = .ok (result, s)) :
    Moves permit m { m with toStore := s } ∧ result.Known s.bounds := by
  obtain ⟨valid, checked, -⟩ := exists_of_bind_ok h
  obtain ⟨rfl, allowed⟩ := Store.checkName_eq_ok checked
  obtain ⟨notes, created⟩ := m.toStore.create_eq allowed
  cases h.symm.trans created
  have slot : m.slots.size < (m.slots.push .none).size := by simp
  refine ⟨?_, Value.known_cell.mpr slot⟩
  exact .tail (.single (.create valid)) (.books ⟨rfl, rfl, rfl, rfl, rfl, rfl, rfl⟩)

/-- A primitive amounts to moves, if it stores only where that is permitted. -/
theorem brings_primitive {p : Primitive} {arguments : List Value} (tidy : m.Tidy)
    (known : ∀ v ∈ arguments, v.Known m.bounds)
    (fixed : ∀ v, p = .constant v → v.Known m.bounds)
    (permitted : p = .store → ∀ v slot, arguments = [v, .cell slot] → permit.slot slot) :
    Brings permit m (p.perform arguments m) := by
  cases ends : p.apply m.here arguments m.toStore with
  | error f =>
    simp only [Primitive.perform_eq, ends, Outcome.ofStore]
    exact .failed f .refl
  | ok made =>
    obtain ⟨v, s⟩ := made
    simp only [Primitive.perform_eq, ends, Outcome.ofStore]
    have settled : Moves permit m { m with toStore := s } ∧ v.Known s.bounds →
        Brings permit m (.done v { m with toStore := s }) := by
      rintro ⟨moves, result⟩
      refine ⟨moves, ?_⟩
      rintro w after ⟨⟩
      exact result
    refine settled ?_
    by_cases calculation : p.IsCalculation ∧ p ≠ .store
    · obtain ⟨result, reckons⟩ := tidy.apply calculation.1 calculation.2 known fixed ends
      exact ⟨moves_reckons reckons, result⟩
    · -- what is left begins a definition or stores
      have others : p = .define ∨ p = .create ∨ p = .store := by
        unfold Primitive.IsCalculation at calculation
        tauto
      unfold Primitive.apply at ends
      split at ends
      case h_9 =>
        obtain ⟨_, defined, made⟩ := exists_of_bind_ok ends
        obtain ⟨name, -, -, rfl⟩ := Store.define_eq_ok defined
        cases made
        exact ⟨moves_books ⟨rfl, rfl, rfl, rfl, rfl, rfl, rfl⟩, Value.known_none⟩
      case h_12 => exact moves_create ends
      case h_11 v target =>
        obtain ⟨_, stored, made⟩ := exists_of_bind_ok ends
        cases made
        unfold Store.store at stored
        split at stored
        · next slot =>
          cases stored
          refine ⟨.single (.store (permitted rfl v slot rfl) (known v ?_)), Value.known_none⟩
          exact List.mem_cons_self
        · cases stored
      case h_28 => cases ends
      all_goals simp at others

/-! ### Calls and turns -/

/-- Work that takes marks is a move, and what it makes is known afterwards. -/
theorem moves_marking {α : Type} {R : Bounds → α → Prop} {work : Value.Marking α}
    (permit : Permit) (tidy : m.Tidy) (makes : work.Makes m.slots.size R) :
    Moves permit m (m.marking work).machine ∧
      ∀ a ready, m.marking work = .done a ready → R ready.bounds a := by
  unfold marking Store.marking
  cases ends : work.run m.nextMark with
  | error f => exact ⟨.refl, nofun⟩
  | ok result =>
    obtain ⟨a, last⟩ := result
    obtain ⟨more, holds⟩ := makes m.nextMark a last ends
    have below : m.bounds ≤ ⟨last, m.slots.size⟩ := ⟨more, Nat.le_refl _⟩
    refine ⟨moves_reckons ⟨⟨rfl, rfl, rfl, rfl, rfl, rfl, rfl, rfl⟩, rfl, more, ?_⟩, ?_⟩
    · exact fun v inside => (tidy.stack v inside).mono below
    · rintro b ready ⟨⟩
      exact holds

/-- The calling convention amounts to moves if the action does. -/
theorem moves_callWith {name : String} {n : Native}
    {perform : List Value → Machine → Outcome Value} (tidy : m.Tidy)
    (brings : n.arity ≤ m.stack.depth →
      let taken := m.toStore.take n.arity
      Brings permit { m with toStore := taken.2 }
        (perform taken.1 { m with toStore := taken.2 })) :
    Moves permit m (m.callWith name n perform).machine := by
  unfold callWith
  split
  · exact .refl
  · next enough =>
    obtain ⟨known, left⟩ := tidy.take n.arity
    have taken : Moves permit m { m with toStore := (m.toStore.take n.arity).2 } :=
      moves_reckons left
    obtain ⟨performed, result⟩ := brings (Nat.le_of_not_lt enough)
    simp only at performed result ⊢
    cases ends : perform (m.toStore.take n.arity).1
        { m with toStore := (m.toStore.take n.arity).2 } with
    | done v after =>
      rw [ends] at performed
      have arrived : Moves permit m after := taken.trans performed
      exact arrived.trans (moves_pushResult (arrived.tidy tidy) n (result v after ends))
    | failed f after =>
      rw [ends] at performed
      have arrived : Moves permit m after := taken.trans performed
      simp only [Outcome.onFault, Outcome.bind_failed, Outcome.machine_failed]
      split
      · exact arrived
      · -- the arguments are put back
        refine arrived.trans (moves_pushAll (arrived.tidy tidy) fun v inside => ?_)
        exact (known v inside).mono arrived.bounds_le

/-- Calling the native word would store into the slot. -/
def StoresInto (m : Machine) (n : Native) (slot : Nat) : Prop :=
  n.action = .primitive .store ∧ n.arity ≤ m.stack.depth ∧
    ∃ v, (m.toStore.take n.arity).1 = [v, .cell slot]

theorem brings_taken {n : Native} {p : Primitive} (tidy : m.Tidy)
    (known : (Body.native n).Known m.bounds) (kind : n.action = .primitive p)
    (permitted : ∀ slot, m.StoresInto n slot → permit.slot slot)
    (enough : n.arity ≤ m.stack.depth) :
    Brings permit { m with toStore := (m.toStore.take n.arity).2 }
      (p.perform (m.toStore.take n.arity).1 { m with toStore := (m.toStore.take n.arity).2 }) := by
  obtain ⟨values, left⟩ := tidy.take n.arity
  have taken : Moves permit m { m with toStore := (m.toStore.take n.arity).2 } := moves_reckons left
  refine brings_primitive (taken.tidy tidy) values ?_ ?_
  · rintro v rfl
    exact known v kind
  · rintro rfl v slot same
    exact permitted slot ⟨kind, enough, v, same⟩

theorem moves_bindBehavior {v : Value} (known : v.Known m.bounds)
    (permitted : ∀ entry, m.lastCreated = some entry → permit.entry entry) :
    Moves permit m (m.bindBehavior v).machine := by
  unfold bindBehavior
  split
  · exact .refl
  · next entry last =>
    have bound : Moves permit m { m with dictionary := m.dictionary.setBehavior entry v } :=
      .single (.bind (permitted entry last) known)
    simp only [Outcome.machine_done]
    rcases noteBehavior_cases ((m.dictionary.get? entry).elim "" Word.name) v
      { m with dictionary := m.dictionary.setBehavior entry v } with ⟨text, noted⟩ | noted
    · rw [noted]
      exact bound.trans (moves_note ..)
    · rw [noted]
      exact bound

/-- The values that a cell pushes by itself are known. -/
theorem Tidy.pushes {cell : Cell} {values : List Value} (tidy : m.Tidy) (inside : cell ∈ m.code)
    (pushes : cell.Pushes m.dictionary values) : ∀ v ∈ values, v.Known m.bounds := by
  have known := tidy.code cell inside
  cases pushes with
  | literal => exact known
  | row items => exact Value.known_of_items (known _ (by simp)) items
  | slot found =>
    intro v inside
    rw [List.mem_singleton.mp inside]
    exact Value.known_cell.mpr (tidy.words _ _ found).1

theorem Tidy.gives {cell : Cell} {v : Value} (tidy : m.Tidy) (inside : cell ∈ m.code)
    (gives : cell.Gives v) : v.Known m.bounds := by
  have known := tidy.code cell inside
  cases gives with
  | does target => exact Value.known_int _
  | row rest => exact known _ (by simp)

/-- The turn that comes next would store into the slot. -/
def TurnStores (m : Machine) (slot : Nat) : Prop :=
  ∃ entry name immediate n, m.current? = some (.native entry) ∧
    m.dictionary.get? entry = some ⟨name, immediate, .native n⟩ ∧ m.StoresInto n slot

/-- The turn that comes next would give the word a behavior. -/
def TurnBinds (m : Machine) (entry : Nat) : Prop :=
  ∃ cell behavior, m.current? = some cell ∧ cell.Gives behavior ∧ m.lastCreated = some entry

/-- A turn amounts to moves. -/
theorem Leaves.moves {after : Machine} (left : m.Leaves after) (tidy : m.Tidy)
    (stores : ∀ slot, m.TurnStores slot → permit.slot slot)
    (binds : ∀ entry, m.TurnBinds entry → permit.entry entry) : Moves permit m after := by
  have moved : ∀ resume, Moves permit m (m.moved resume) := fun resume =>
    moves_books ⟨rfl, rfl, rfl, rfl, rfl, rfl, rfl⟩
  cases left with
  | place returns ip => exact moves_books ⟨rfl, rfl, rfl, rfl, rfl, rfl, rfl⟩
  | pushed at_ pushes returns ip =>
    have pushed : Moves permit m (m.pushAll _) :=
      moves_pushAll tidy (tidy.pushes (mem_of_current? at_) pushes)
    exact pushed.tail (.books ⟨rfl, rfl, rfl, rfl, rfl, rfl, rfl⟩)
  | @primitive entry name immediate n p at_ known kind resume =>
    have start : (m.moved resume).Tidy := (moved resume).tidy tidy
    refine (moved resume).trans (moves_callWith start ?_)
    refine brings_taken start (tidy.words _ _ known) kind fun slot into => ?_
    exact stores slot ⟨entry, name, immediate, n, at_, known, into⟩
  | @behavior cell v at_ gives resume =>
    refine (moved resume).trans (moves_bindBehavior (tidy.gives (mem_of_current? at_) gives) ?_)
    exact fun entry last => binds entry ⟨cell, v, at_, gives, last⟩

end Machine
end ThreadedForth
