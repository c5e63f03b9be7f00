import ThreadedForth.Proofs.Avoidance
import ThreadedForth.Proofs.Compilation
import ThreadedForth.Proofs.Supervision

/-!
# Keeping a constant

A constant is a word whose behavior loads from the slot of the word.  So its value is kept in a
slot like that of any variable, and nothing keeps it constant but that the cell of the slot is
not to be had.  The cell is pushed whenever the word is run; then the behavior is entered, and
the first thing that it does is to take the cell off the stack again.

So the cell is hidden in every state (`Machine.Keeps`) but one, namely at the entry of the
behavior (`Keeps.entering`), and the turn that is taken there hides it again
(`Keeps.turn_entering`).  Between the two there is one point at which a run can fail: where a
cell of compiled code runs the word and there is no room for one more call.  Then the cell stays
on the data stack.

That this does not happen is one of the conditions under which a session keeps the constant
(`Guarded`).  The invariant is carried through the words that run no code, through turns and
runs, and through what is fed; `Session.keeps_play` is the result.
-/

namespace ThreadedForth

/-- A word whose behavior loads from its slot. -/
structure Constant where
  name : String
  value : Value
  /-- The number of the word. -/
  entry : Nat
  slot : Nat
  /-- The address of the behavior. -/
  address : Nat
  /-- The number of the native word that the behavior calls. -/
  loader : Nat

namespace Constant

variable {c : Constant} {d : Dictionary} {code : Array Cell}

/-- The dictionary has the word, and nothing else in it leads to the slot. -/
structure InDictionary (c : Constant) (d : Dictionary) : Prop where
  word : ∃ immediate,
    d.get? c.entry = some ⟨c.name, immediate, .created c.slot (.int c.address)⟩
  loader : ∃ name immediate,
    d.get? c.loader = some ⟨name, immediate, .native ⟨.primitive .load, 1, true⟩⟩
  others : ∀ entry w, d.get? entry = some w → entry ≠ c.entry → w.body.Avoids c.slot

/-- The code has the behavior, and the cell of the slot is nowhere in it. -/
structure InCode (c : Constant) (code : Array Cell) : Prop where
  loads : code[c.address]? = some (.native c.loader)
  leaves : code[c.address + 1]? = some .exit
  avoids : ∀ cell ∈ code, cell.Avoids c.slot

/-- Words may be added that do not lead to the slot. -/
theorem InDictionary.push {w : Word} (known : c.InDictionary d) (avoids : w.body.Avoids c.slot) :
    c.InDictionary (d.push w) := by
  obtain ⟨immediate, word⟩ := known.word
  obtain ⟨name, marked, loader⟩ := known.loader
  have stays : ∀ {entry v}, d.get? entry = some v → (d.push w).get? entry = some v := by
    intro entry v found
    rw [Dictionary.get?_push_of_lt w (Dictionary.get?_eq_some_iff_lt.mp ⟨v, found⟩), found]
  refine ⟨⟨immediate, stays word⟩, ⟨name, marked, stays loader⟩, fun entry v found other => ?_⟩
  rcases Dictionary.get?_push found with old | ⟨-, rfl⟩
  · exact known.others entry v old other
  · exact avoids

theorem InDictionary.markImmediate (known : c.InDictionary d) (target : Nat) :
    c.InDictionary (d.markImmediate target) := by
  have marked : ∀ entry, (d.markImmediate target).get? entry = d.get? entry ∨
      (d.markImmediate target).get? entry =
        (d.get? entry).map fun w => { w with immediate := true } := by
    intro entry
    rw [Dictionary.get?_markImmediate]
    split
    · exact .inr rfl
    · exact .inl rfl
  refine ⟨?_, ?_, fun entry w found other => ?_⟩
  · obtain ⟨immediate, word⟩ := known.word
    rcases marked c.entry with same | same
    · exact ⟨immediate, same.trans word⟩
    · exact ⟨true, by rw [same, word]; rfl⟩
  · obtain ⟨name, immediate, loader⟩ := known.loader
    rcases marked c.loader with same | same
    · exact ⟨name, immediate, same.trans loader⟩
    · exact ⟨name, true, by rw [same, loader]; rfl⟩
  · rcases marked entry with same | same
    · exact known.others entry w (same ▸ found) other
    · rw [same] at found
      obtain ⟨v, old, rfl⟩ := Option.map_eq_some_iff.mp found
      exact known.others entry v old other

/-- Another word may be given a behavior. -/
theorem InDictionary.setBehavior {target : Nat} {behavior : Value} (known : c.InDictionary d)
    (other : target ≠ c.entry) (avoids : behavior.Avoids c.slot) :
    c.InDictionary (d.setBehavior target behavior) := by
  refine ⟨?_, ?_, fun entry w found away => ?_⟩
  · obtain ⟨immediate, word⟩ := known.word
    exact ⟨immediate, by rw [Dictionary.get?_setBehavior, if_neg other, word]⟩
  · obtain ⟨name, immediate, loader⟩ := known.loader
    refine ⟨name, immediate, ?_⟩
    rw [Dictionary.get?_setBehavior, loader]
    split <;> rfl
  · rw [Dictionary.get?_setBehavior] at found
    split at found
    · obtain ⟨⟨name, immediate, body⟩, old, rfl⟩ := Option.map_eq_some_iff.mp found
      have before := known.others entry _ old away
      cases body with
      | created slot given => exact ⟨before.1, avoids⟩
      | native n => exact before
      | colon address => exact before
    · exact known.others entry w found away

theorem InCode.push {cell : Cell} (known : c.InCode code) (avoids : cell.Avoids c.slot) :
    c.InCode (code.push cell) := by
  have stays : ∀ {a : Nat} {old : Cell}, code[a]? = some old → (code.push cell)[a]? = some old := by
    intro a old found
    rw [Array.getElem?_push_lt (Array.getElem?_eq_some_iff.mp found).1,
      ← Array.getElem?_eq_getElem, found]
  refine ⟨stays known.loads, stays known.leaves, fun other inside => ?_⟩
  rcases Array.mem_push.mp inside with old | rfl
  · exact known.avoids other old
  · exact avoids

/-- Literals are joined to a cell of literals, which is no part of the behavior. -/
theorem InCode.join {cell : Cell} {values all : List Value} (known : c.InCode code)
    (last : code.back? = some cell) (avoid : ∀ v ∈ values, v.Avoids c.slot)
    (joined : cell.openValues values = .ok (some all)) :
    c.InCode (code.pop.push (.literal all)) := by
  obtain ⟨earlier, same⟩ := Array.back?_eq_some_iff.mp last
  subst same
  rw [Array.pop_push]
  have stays : ∀ {a : Nat} {old : Cell}, (earlier.push cell)[a]? = some old →
      old.openValues values = .ok none → (earlier.push (.literal all))[a]? = some old := by
    intro a old found closed
    rw [Array.getElem?_push] at found ⊢
    split at found
    · cases found
      rw [closed] at joined
      cases joined
    · next low => rwa [if_neg low]
  refine ⟨stays known.loads rfl, stays known.leaves rfl, fun other inside => ?_⟩
  rcases Array.mem_push.mp inside with old | rfl
  · exact known.avoids other (Array.mem_push_of_mem _ old)
  · exact Cell.avoids_openValues (known.avoids cell Array.mem_push_self) avoid joined

end Constant

namespace Machine

variable {c : Constant} {m after : Machine} {base : Nat}

/-- The machine has the constant, its slot holds the value, and the cell of the slot is
hidden. -/
structure Keeps (c : Constant) (m : Machine) : Prop where
  hides : m.toStore.Hides c.slot
  holds : m.slots[c.slot]? = some c.value
  dictionary : c.InDictionary m.dictionary
  code : c.InCode m.code

namespace Keeps

theorem old (keeps : m.Keeps c) : c.slot < m.slots.size :=
  (Array.getElem?_eq_some_iff.mp keeps.holds).1

/-- Work on the store that leaves the dictionary alone. -/
theorem ofStore {s : Store} (keeps : m.Keeps c) (guards : m.toStore.Guards c.slot s)
    (same : s.dictionary = m.dictionary) : Keeps c { m with toStore := s } :=
  ⟨guards.hides, guards.slot.trans keeps.holds, same ▸ keeps.dictionary, keeps.code⟩

theorem sameHoldings (keeps : m.Keeps c) (same : m.SameHoldings after) : after.Keeps c where
  hides := ⟨same.stack ▸ keeps.hides.stack, same.slots ▸ keeps.hides.slots⟩
  holds := same.slots ▸ keeps.holds
  dictionary := same.dictionary ▸ keeps.dictionary
  code := same.code ▸ keeps.code

theorem pushAll {values : List Value} (keeps : m.Keeps c) (avoid : ∀ v ∈ values, v.Avoids c.slot) :
    (m.pushAll values).Keeps c :=
  keeps.ofStore (keeps.hides.pushAll avoid) rfl

theorem pushResult {v : Value} (keeps : m.Keeps c) (n : Native) (avoids : v.Avoids c.slot) :
    (m.pushResult n v).Keeps c := by
  unfold Machine.pushResult
  split
  · exact keeps.pushAll (by simpa using avoids)
  · exact keeps

theorem append {cell : Cell} (keeps : m.Keeps c) (avoids : cell.Avoids c.slot) :
    (m.append cell).Keeps c :=
  ⟨keeps.hides, keeps.holds, keeps.dictionary, keeps.code.push avoids⟩

theorem register {w : Word} (keeps : m.Keeps c) (avoids : w.body.Avoids c.slot) :
    Keeps c { m with dictionary := m.dictionary.push w } :=
  ⟨⟨keeps.hides.stack, keeps.hides.slots⟩, keeps.holds, keeps.dictionary.push avoids, keeps.code⟩

theorem note (keeps : m.Keeps c) (level : Level) (channel : Channel) (text : String) :
    (m.note level channel text).Keeps c :=
  keeps.sameHoldings (m.sameHoldings_note level channel text)

theorem abandonIfCompiling (keeps : m.Keeps c) : m.abandonIfCompiling.Keeps c := by
  unfold Machine.abandonIfCompiling Store.abandon
  split
  · split
    · next draft _ =>
      have noted := keeps.note .warning .compiler
        ("abandoning definition of '" ++ draft.name ++ "'")
      exact noted.sameHoldings ⟨rfl, rfl, rfl, rfl, rfl, rfl, rfl⟩
    · exact keeps.sameHoldings ⟨rfl, rfl, rfl, rfl, rfl, rfl, rfl⟩
  · exact keeps

theorem discardStale (keeps : m.Keeps c) : m.discardStale.Keeps c := by
  obtain ⟨notes, stale⟩ := m.discardStale_eq
  rw [stale]
  exact keeps.sameHoldings ⟨rfl, rfl, rfl, rfl, rfl, rfl, rfl⟩

theorem writeLiterals {values : List Value} {joined : Option (List Value)} (keeps : m.Keeps c)
    (avoid : ∀ v ∈ values, v.Avoids c.slot) (found : m.joinedLiterals values = .ok joined) :
    (m.writeLiterals values joined).Keeps c := by
  unfold Machine.writeLiterals
  cases joined with
  | none => exact keeps.append avoid
  | some all =>
    unfold joinedLiterals at found
    split at found
    · next cell last =>
      split at found
      · exact ⟨keeps.hides, keeps.holds, keeps.dictionary, keeps.code.join last avoid found⟩
      · cases found
    · cases found

theorem interpretLiterals {values : List Value} (keeps : m.Keeps c)
    (avoid : ∀ v ∈ values, v.Avoids c.slot) : (m.interpretLiterals values).machine.Keeps c := by
  unfold Machine.interpretLiterals
  split
  · split
    · next joined found => exact keeps.writeLiterals avoid found
    · exact keeps
  · exact keeps.pushAll avoid

/-! ## Native words -/

theorem installDraft (keeps : m.Keeps c) (draft : Draft) : (m.installDraft draft).Keeps c := by
  obtain ⟨notes, installed⟩ :=
    m.toStore.install_eq ⟨draft.name, draft.immediate, .colon draft.address⟩
  unfold Machine.installDraft
  rw [installed]
  have added : Keeps c { m with
      dictionary := m.dictionary.push ⟨draft.name, draft.immediate, .colon draft.address⟩ } :=
    keeps.register trivial
  refine Keeps.note ?_ _ _ _
  exact added.sameHoldings ⟨rfl, rfl, rfl, rfl, rfl, rfl, rfl⟩

theorem directive {arguments : List Value} (keeps : m.Keeps c) (d : Directive)
    (avoid : ∀ v ∈ arguments, v.Avoids c.slot) : (d.perform arguments m).machine.Keeps c := by
  have exits : ∀ {m : Machine}, m.Keeps c → (m.append .exit).Keeps c := fun keeps =>
    keeps.append trivial
  rw [Directive.perform_eq]
  split
  · next after ends =>
    unfold Directive.apply at ends
    split at ends
    · obtain ⟨_, _, closed⟩ := exists_of_bind_ok ends
      have shut : Keeps c { m.append .exit with compiling := false, draft := none } :=
        (exits keeps).sameHoldings ⟨rfl, rfl, rfl, rfl, rfl, rfl, rfl⟩
      split at closed
      · next draft _ =>
        cases closed
        exact shut.installDraft draft
      · cases closed
        exact shut
    · unfold Machine.markImmediate at ends
      split at ends
      · cases ends
        exact keeps.sameHoldings ⟨rfl, rfl, rfl, rfl, rfl, rfl, rfl⟩
      · cases ends
        exact ⟨⟨keeps.hides.stack, keeps.hides.slots⟩, keeps.holds,
          keeps.dictionary.markImmediate _, keeps.code⟩
      · cases ends
    · obtain ⟨_, _, made⟩ := exists_of_bind_ok ends
      cases made
      exact exits keeps
    · obtain ⟨_, _, compiled⟩ := exists_of_bind_ok ends
      obtain ⟨joined, found, made⟩ := exists_of_bind_ok compiled
      cases made
      exact keeps.writeLiterals avoid found
    · obtain ⟨_, _, made⟩ := exists_of_bind_ok ends
      cases made
      have begun : Keeps c (m.append (.does (m.here + 2 : Nat))) := keeps.append trivial
      exact (exits begun).sameHoldings ⟨rfl, rfl, rfl, rfl, rfl, rfl, rfl⟩
    · cases ends
  · exact keeps

/-- An action ends with the constant kept, and does not yield the cell. -/
def Passes (c : Constant) (o : Outcome Value) : Prop :=
  o.machine.Keeps c ∧ ∀ v after, o = .done v after → v.Avoids c.slot

theorem primitive {arguments : List Value} (keeps : m.Keeps c) (p : Primitive)
    (avoid : ∀ v ∈ arguments, v.Avoids c.slot) (fixed : ∀ v, p = .constant v → v.Avoids c.slot) :
    Passes c (p.perform arguments m) := by
  cases ends : p.apply m.here arguments m.toStore with
  | error f =>
    simp only [Primitive.perform_eq, ends, Outcome.ofStore]
    exact ⟨keeps, by simp⟩
  | ok made =>
    obtain ⟨v, s⟩ := made
    simp only [Primitive.perform_eq, ends, Outcome.ofStore]
    obtain ⟨result, guards⟩ := keeps.hides.apply keeps.old avoid fixed ends
    have yields : ∀ w after, Outcome.done v { m with toStore := s } = .done w after →
        w.Avoids c.slot := by
      rintro w after ⟨⟩
      exact result
    refine ⟨?_, yields⟩
    rcases Store.apply_cases ends with books | ⟨-, name, -, rfl⟩ | ⟨-, name, -, books⟩
    · exact keeps.ofStore guards books.dictionary
    · exact keeps.ofStore guards rfl
    · -- the slot of the new word is another one
      have another : (Body.created m.slots.size .none).Avoids c.slot :=
        ⟨Nat.ne_of_gt keeps.old, Value.avoids_none⟩
      have grown : s.dictionary = m.dictionary.push ⟨name, false, .created m.slots.size .none⟩ :=
        books.dictionary
      exact ⟨guards.hides, guards.slot.trans keeps.holds, grown ▸ keeps.dictionary.push another,
        keeps.code⟩

/-- The calling convention. -/
theorem callWith {n : Native} {perform : List Value → Machine → Outcome Value}
    (keeps : m.Keeps c) (name : String)
    (performs : n.arity ≤ m.stack.depth → ∀ arguments start, start.Keeps c →
      (∀ v ∈ arguments, v.Avoids c.slot) → Passes c (perform arguments start)) :
    (m.callWith name n perform).machine.Keeps c := by
  unfold Machine.callWith
  split
  · exact keeps
  · next enough =>
    obtain ⟨avoid, guards⟩ := keeps.hides.take n.arity
    have begun : Keeps c { m with toStore := (m.toStore.take n.arity).2 } :=
      keeps.ofStore guards rfl
    obtain ⟨performed, result⟩ := performs (Nat.le_of_not_lt enough) _ _ begun avoid
    simp only
    cases ends : perform (m.toStore.take n.arity).1
        { m with toStore := (m.toStore.take n.arity).2 } with
    | done v after =>
      rw [ends] at performed
      exact performed.pushResult n (result v after ends)
    | failed f after =>
      rw [ends] at performed
      simp only [Outcome.onFault, Outcome.bind_failed, Outcome.machine_failed]
      split
      · exact performed
      · exact performed.pushAll avoid

/-- A native word does not yield the cell by itself. -/
theorem native {entry : Nat} {name : String} {immediate : Bool} {n : Native} (keeps : m.Keeps c)
    (known : m.dictionary.get? entry = some ⟨name, immediate, .native n⟩) :
    (Body.native n).Avoids c.slot := by
  refine keeps.dictionary.others entry _ known ?_
  rintro rfl
  obtain ⟨marked, word⟩ := keeps.dictionary.word
  cases known.symm.trans word

theorem callPrimitive {name : String} {n : Native} {p : Primitive} (keeps : m.Keeps c)
    (kind : n.action = .primitive p) (own : (Body.native n).Avoids c.slot) :
    (m.callWith name n p.perform).machine.Keeps c := by
  refine keeps.callWith name fun _ arguments start begun avoid => ?_
  refine begun.primitive p avoid ?_
  rintro v rfl
  exact own v kind

theorem bindBehavior {v : Value} (keeps : m.Keeps c) (avoids : v.Avoids c.slot)
    (other : m.lastCreated ≠ some c.entry) : (m.bindBehavior v).machine.Keeps c := by
  unfold Machine.bindBehavior
  split
  · exact keeps
  · next entry last =>
    have away : entry ≠ c.entry := fun same => other (same ▸ last)
    have bound : Keeps c { m with dictionary := m.dictionary.setBehavior entry v } :=
      ⟨⟨keeps.hides.stack, keeps.hides.slots⟩, keeps.holds,
        keeps.dictionary.setBehavior away avoids, keeps.code⟩
    simp only [Outcome.machine_done]
    rcases noteBehavior_cases ((m.dictionary.get? entry).elim "" Word.name) v
      { m with dictionary := m.dictionary.setBehavior entry v } with ⟨text, noted⟩ | noted
    · rw [noted]
      exact bound.note _ _ _
    · rw [noted]
      exact bound

/-! ## Turns -/

/-- The machine at the entry of the behavior: the cell of the slot is on top. -/
def entering (c : Constant) (m : Machine) : Machine :=
  (m.pushAll [.cell c.slot]).moved c.address

/-- The behavior begins with taking the cell off again. -/
theorem turn_entering (keeps : m.Keeps c) (base : Nat) :
    (entering c m).turn base = .next ((m.pushAll [c.value]).moved (c.address + 1)) := by
  obtain ⟨name, immediate, known⟩ := keeps.dictionary.loader
  have fetched : (entering c m).fetch c.address = .ok (.native c.loader) :=
    fetch_eq_ok_iff.mpr keeps.code.loads
  have known : ((entering c m).moved (c.address + 1)).dictionary.get? c.loader = _ := known
  have taken : (m.toStore.pushAll [.cell c.slot]).take 1 = ([.cell c.slot], m.toStore) :=
    m.toStore.take_pushAll [.cell c.slot]
  have enough : ¬ (m.toStore.pushAll [.cell c.slot]).stack.depth < 1 := by
    show ¬ 1 + m.stack.depth < 1
    omega
  have loaded : m.toStore.load (.cell c.slot) = .ok c.value := by
    simp [Store.load, keeps.holds]
  rw [turn_of_fetched rfl fetched, step, stepNative_primitive known rfl]
  show Turn.ofOutcome (Machine.callWith name _ _
    { (m.moved (c.address + 1)) with toStore := m.toStore.pushAll [.cell c.slot] }) = _
  simp only [Machine.callWith, if_neg enough, taken, Primitive.perform_eq, Primitive.apply, loaded]
  show Turn.next (Machine.pushResult _ c.value (m.moved (c.address + 1))) = _
  rw [Machine.pushResult, if_pos (Or.inr rfl)]
  rfl

/-- A cell of compiled code that runs the word leads to the entry of the behavior, if there is
room for one more call. -/
theorem turn_created (keeps : m.Keeps c) (base : Nat) (at_ : m.current? = some (.created c.entry))
    (room : m.returns.depth < m.capacity) :
    ∃ before, before.Keeps c ∧ m.turn base = .next (entering c before) := by
  obtain ⟨address, place, found⟩ := Option.bind_eq_some_iff.mp at_
  obtain ⟨immediate, known⟩ := keeps.dictionary.word
  have fetched : m.fetch address = .ok (.created c.entry) := by
    cases fetched : m.fetch address with
    | error f =>
      rw [fetched] at found
      cases found
    | ok cell =>
      rw [fetched] at found
      cases found
      rfl
  have known : (m.moved (address + 1)).dictionary.get? c.entry = _ := known
  refine ⟨{ m with returns := m.returns.push (address + 1) }, ?_, ?_⟩
  · exact keeps.sameHoldings ⟨rfl, rfl, rfl, rfl, rfl, rfl, rfl⟩
  · rw [turn_of_fetched place fetched, step, stepCreated_behavior known, nest_int]
    exact if_neg (Int.not_le.mpr room)

theorem turn (keeps : m.Keeps c) (base : Nat) (unbound : ¬ m.TurnBinds c.entry)
    (room : m.current? = some (.created c.entry) → m.returns.depth < m.capacity) :
    (m.turn base).machine.Keeps c ∨
      ∃ before, before.Keeps c ∧ m.turn base = .next (entering c before) := by
  by_cases at_ : m.current? = some (.created c.entry)
  · exact .inr (keeps.turn_created base at_ (room at_))
  · left
    have placed : ∀ {after : Machine} (returns : Stack Int) (ip : Option Int), after.Keeps c →
        Keeps c { after with returns := returns, ip := ip } := by
      intro after returns ip keeps
      exact keeps.sameHoldings ⟨rfl, rfl, rfl, rfl, rfl, rfl, rfl⟩
    have left := leaves_turn base m
    generalize (m.turn base).machine = after at left
    cases left with
    | place returns ip => exact placed returns ip keeps
    | @pushed cell values found pushes returns ip =>
      refine placed returns ip (keeps.pushAll ?_)
      have avoids := keeps.code.avoids cell (mem_of_current? found)
      cases pushes with
      | literal => exact avoids
      | row items => exact Value.Avoids.items (avoids _ (by simp)) items
      | @slot entry slot name immediate behavior known =>
        have other : entry ≠ c.entry := fun same => at_ (same ▸ found)
        intro v inside
        rw [List.mem_singleton.mp inside]
        exact Value.avoids_cell.mpr (keeps.dictionary.others entry _ known other).1
    | @primitive entry name immediate n p found known kind resume =>
      have moved : (m.moved resume).Keeps c := placed m.returns (some resume) keeps
      exact moved.callPrimitive kind (keeps.native known)
    | @behavior cell v found gives resume =>
      have moved : (m.moved resume).Keeps c := placed m.returns (some resume) keeps
      have avoids := keeps.code.avoids cell (mem_of_current? found)
      refine moved.bindBehavior ?_ fun last => unbound ⟨cell, v, found, gives, last⟩
      cases gives with
      | does target => exact Value.avoids_int target
      | row rest => exact avoids v (by simp)

end Keeps

/-- The constant is kept, or its behavior is just being entered. -/
def AtWork (c : Constant) (m : Machine) : Prop :=
  m.Keeps c ∨ ∃ before, before.Keeps c ∧ m = Keeps.entering c before

/-- After a turn the constant is kept, or its behavior is entered. -/
theorem AtWork.turn (ready : m.AtWork c) (base : Nat) (unbound : ¬ m.TurnBinds c.entry)
    (room : m.current? = some (.created c.entry) → m.returns.depth < m.capacity) :
    (m.turn base).machine.Keeps c ∨
      ∃ before, before.Keeps c ∧ m.turn base = .next (Keeps.entering c before) := by
  rcases ready with keeps | ⟨before, keeps, rfl⟩
  · exact keeps.turn base unbound room
  · left
    rw [keeps.turn_entering base]
    refine (keeps.pushAll ?_).sameHoldings ⟨rfl, rfl, rfl, rfl, rfl, rfl, rfl⟩
    intro v inside
    rw [List.mem_singleton.mp inside]
    exact keeps.hides.slots _ (Array.mem_of_getElem? keeps.holds)

end Machine

/-! ## Runs -/

/-- Whatever an allowed activity starts is allowed; no host callable is, no allowed turn gives
the constant a behavior, and where an allowed turn runs it there is room for one more call. -/
structure Guarded (c : Constant) (allows : Nat → Activity → Machine → Prop) : Prop where
  starts {depth depth' : Nat} {activity inner : Activity} {m m' : Machine} :
    allows depth activity m → activity.Starts depth m depth' inner m' → allows depth' inner m'
  hosts {depth : Nat} {f : Host.Callable} {arguments : List Value} {m : Machine} :
    ¬ allows depth (.callable f arguments) m
  binds {depth base credit : Nat} {m : Machine} :
    allows depth (.turns base credit) m → ¬ m.TurnBinds c.entry
  room {depth base credit : Nat} {m : Machine} : allows depth (.turns base credit) m →
    m.current? = some (.created c.entry) → m.returns.depth < m.capacity

namespace Guarded

open Machine

variable {c : Constant} {allows : Nat → Activity → Machine → Prop} {depth : Nat} {m : Machine}
  (guarded : Guarded c allows)

include guarded

theorem keeps_callNative {name : String} {n : Native} (allowed : allows depth (.native name n) m)
    (keeps : m.Keeps c) (own : (Body.native n).Avoids c.slot) :
    (m.callNative (Host.callHost depth) name n).machine.Keeps c := by
  unfold callNative
  cases kind : n.action with
  | primitive p => exact keeps.callPrimitive kind own
  | directive d =>
    refine keeps.callWith name fun _ arguments start begun avoid => ?_
    refine ⟨begun.directive d avoid, fun v after done => ?_⟩
    simp only [Action.perform, Directive.perform_eq] at done
    split at done
    · cases done
      exact Value.avoids_none
    · cases done
  | host f =>
    refine keeps.callWith name fun enough _ _ _ _ => ?_
    exact absurd (guarded.starts allowed (.host kind enough)) guarded.hosts

/-- A turn after which the run goes on. -/
theorem atWork_next {base credit : Nat} {after : Machine}
    (allowed : allows depth (.turns base credit) m) (ready : m.AtWork c)
    (next : m.turn base = .next after) : after.AtWork c := by
  have left := ready.turn base (guarded.binds allowed) (guarded.room allowed)
  rw [next] at left
  rcases left with keeps | ⟨before, keeps, same⟩
  · exact .inl keeps
  · cases same
    exact .inr ⟨before, keeps, rfl⟩

/-- A turn after which it does not. -/
theorem keeps_turn {base credit : Nat} (allowed : allows depth (.turns base credit) m)
    (ready : m.AtWork c) (ends : ∀ after, m.turn base ≠ .next after) :
    (m.turn base).machine.Keeps c := by
  rcases ready.turn base (guarded.binds allowed) (guarded.room allowed) with
    keeps | ⟨before, -, goes⟩
  · exact keeps
  · exact absurd goes (ends _)

/-- The call that a turn hands over to. -/
theorem keeps_enter {base credit : Nat} {name : String} {n : Native} {after : Machine}
    (allowed : allows depth (.turns base (credit + 1)) m) (ready : m.AtWork c)
    (entered : m.turn base = .enter name n after) :
    (after.callNative (Host.callHost depth) name n).machine.Keeps c := by
  have keeps := guarded.keeps_turn allowed ready (by simp [entered])
  rw [entered] at keeps
  have keeps : after.Keeps c := keeps
  obtain ⟨entry, immediate, resume, -, known, -, rfl⟩ := native_of_enter entered
  exact guarded.keeps_callNative (guarded.starts allowed (.enter entered)) keeps
    (keeps.native known)

/-- A run keeps the constant, and so does a run that begins at the entry of its behavior. -/
theorem keeps_loop (base credit : Nat) (allowed : allows depth (.turns base credit) m)
    (ready : m.AtWork c) : (m.loop (Host.callHost depth) base credit).machine.Keeps c := by
  fun_induction Machine.loop (Host.callHost depth) base credit m with
  | case1 credit m after next ih =>
    exact ih (guarded.starts allowed (.turn next)) (guarded.atWork_next allowed ready next)
  | case2 credit m after halted =>
    have keeps := guarded.keeps_turn allowed ready (by simp [halted])
    rwa [halted] at keeps
  | case3 credit m f after failed =>
    have keeps := guarded.keeps_turn allowed ready (by simp [failed])
    rwa [failed] at keeps
  | case4 m name n after entered =>
    have keeps := guarded.keeps_turn allowed ready (by simp [entered])
    rwa [entered] at keeps
  | case5 m name n after entered credit ended called ih =>
    have keeps := guarded.keeps_enter allowed ready entered
    rw [called] at keeps
    exact ih (guarded.starts allowed (.afterEntry entered called)) (.inl keeps)
  | case6 m name n after entered credit f ended called =>
    have keeps := guarded.keeps_enter allowed ready entered
    rwa [called] at keeps

/-- Code that is run keeps the constant, if it begins with the constant kept or at the entry
of its behavior. -/
theorem keeps_executeAddress {address : Value} (allowed : allows depth (.code address) m)
    (missing : ∀ f, m.discardStale.locate address = .error f → m.discardStale.Keeps c)
    (ready : ∀ place, m.discardStale.locate address = .ok place →
      AtWork c { m.discardStale with ip := place }) :
    (m.executeAddress (Host.callHost depth) address).machine.Keeps c := by
  rcases executeAddress_cases (Host.callHost depth) address m with
    ⟨f, lost, ends⟩ | ⟨place, located, ends⟩
  · rw [ends]
    exact missing f lost
  · have keeps := guarded.keeps_loop _ _ (guarded.starts allowed (.run located))
      (ready place located)
    rw [ends]
    generalize loop (Host.callHost depth) m.discardStale.returns.depth maxEntries
      { m.discardStale with ip := place } = o at keeps
    cases o with
    | done _ after => exact Keeps.sameHoldings keeps ⟨rfl, rfl, rfl, rfl, rfl, rfl, rfl⟩
    | failed f after => exact Keeps.sameHoldings keeps ⟨rfl, rfl, rfl, rfl, rfl, rfl, rfl⟩

/-- Running a colon word, or code that begins anywhere else. -/
theorem keeps_code {address : Value} (allowed : allows depth (.code address) m)
    (keeps : m.Keeps c) : (m.executeAddress (Host.callHost depth) address).machine.Keeps c := by
  refine guarded.keeps_executeAddress allowed (fun _ _ => keeps.discardStale) fun place _ => ?_
  exact .inl (keeps.discardStale.sameHoldings ⟨rfl, rfl, rfl, rfl, rfl, rfl, rfl⟩)

/-- Running the constant itself from outside. -/
theorem keeps_behavior (keeps : m.Keeps c)
    (allowed : allows depth (.code (.int c.address)) (m.pushAll [.cell c.slot])) :
    ((m.pushAll [.cell c.slot]).executeAddress (Host.callHost depth)
      (.int c.address)).machine.Keeps c := by
  refine guarded.keeps_executeAddress allowed nofun fun place located => ?_
  cases located
  obtain ⟨notes, stale⟩ := discardStale_eq (m.pushAll [.cell c.slot])
  rw [stale]
  refine .inr ⟨{ m with journal := notes, returns := if m.ip = none then .empty else m.returns },
    ?_, rfl⟩
  exact keeps.sameHoldings ⟨rfl, rfl, rfl, rfl, rfl, rfl, rfl⟩

theorem keeps_executeEntry {entry : Nat} (allowed : allows depth (.entry entry) m)
    (keeps : m.Keeps c) : (m.executeEntry (Host.callHost depth) entry).machine.Keeps c := by
  unfold executeEntry
  split
  · next name immediate n known =>
    exact guarded.keeps_callNative (guarded.starts allowed (.native known)) keeps
      (keeps.native known)
  · next name immediate address known =>
    exact guarded.keeps_code (guarded.starts allowed (.colon known)) keeps
  · next name immediate slot behavior known =>
    by_cases same : entry = c.entry
    · obtain ⟨marked, word⟩ := keeps.dictionary.word
      subst same
      cases known.symm.trans word
      exact guarded.keeps_behavior keeps (guarded.starts allowed (.behavior known nofun))
    · have pushed : (m.pushAll [.cell slot]).Keeps c := by
        refine keeps.pushAll fun v inside => ?_
        rw [List.mem_singleton.mp inside]
        exact Value.avoids_cell.mpr (keeps.dictionary.others entry _ known same).1
      simp only
      split
      · exact pushed
      · next given =>
        exact guarded.keeps_code (guarded.starts allowed (.behavior known given)) pushed
  · exact keeps

/-! ## Feeding -/

theorem keeps_interpretName {name : String} (allowed : allows depth (.token (.word name)) m)
    (keeps : m.Keeps c) : (m.interpretName (Host.callHost depth) name).machine.Keeps c := by
  unfold interpretName
  split
  · exact keeps.append trivial
  · next foreign =>
    split
    · exact keeps
    · next entry found =>
      split
      · exact keeps
      · next w known =>
        split
        · refine keeps.append ?_
          unfold cellOf
          split <;> trivial
        · next runs =>
          refine guarded.keeps_executeEntry (guarded.starts allowed ?_) keeps
          exact .name foreign found known (Bool.eq_false_iff.mpr runs)

theorem keeps_interpret {token : Token} (allowed : allows depth (.token token) m)
    (keeps : m.Keeps c) (avoids : token.Avoids c.slot) :
    (m.interpret (Host.callHost depth) token).machine.Keeps c := by
  have fed : (m.interpretToken (Host.callHost depth) token).machine.Keeps c := by
    cases token with
    | word name => exact guarded.keeps_interpretName allowed keeps
    | datum v =>
      refine keeps.interpretLiterals fun w inside => ?_
      rw [List.mem_singleton.mp inside]
      exact avoids
    | batch values => exact keeps.interpretLiterals avoids
    | malformed content => exact keeps
  unfold interpret
  generalize m.interpretToken (Host.callHost depth) token = o at fed
  cases o with
  | done _ after => exact fed
  | failed f after =>
    simp only [Outcome.onFault, Outcome.machine_failed]
    split
    · exact fed
    · exact Keeps.abandonIfCompiling fed

theorem keeps_run (tokens : List Token) (allowed : allows depth (.tokens tokens) m)
    (keeps : m.Keeps c) (avoid : ∀ token ∈ tokens, token.Avoids c.slot) :
    (m.run (Host.callHost depth) tokens).machine.Keeps c := by
  induction tokens generalizing m with
  | nil => exact keeps
  | cons token rest ih =>
    rw [List.forall_mem_cons] at avoid
    have first := guarded.keeps_interpret (guarded.starts allowed .firstToken) keeps avoid.1
    rw [Machine.run]
    cases fed : m.interpret (Host.callHost depth) token with
    | failed f after =>
      rw [fed] at first
      exact first
    | done _ after =>
      rw [fed] at first
      exact ih (guarded.starts allowed (.afterToken fed)) first avoid.2

theorem keeps_execute {source : String} (allowed : allows depth (.source source) m)
    (keeps : m.Keeps c) : (m.execute (Host.callHost depth) source).machine.Keeps c := by
  unfold execute
  split
  · next tokens read =>
    refine guarded.keeps_run tokens (guarded.starts allowed (.read read)) keeps ?_
    exact fun token inside => (Token.known_tokenize ⟨0, 0⟩ read token inside).avoids (Nat.zero_le _)
  · exact keeps

end Guarded

/-- What work that takes marks has made has the property that it makes things with. -/
theorem Machine.makes_of_marking {α : Type} {R : Bounds → α → Prop} {work : Value.Marking α} {a : α}
    {m ready : Machine} (copied : m.marking work = .done a ready)
    (makes : work.Makes m.slots.size R) : R ready.bounds a := by
  unfold Machine.marking Store.marking at copied
  cases ends : work.run m.nextMark with
  | error f =>
    rw [ends] at copied
    cases copied
  | ok result =>
    rw [ends] at copied
    cases copied
    exact (makes m.nextMark result.1 result.2 ends).2

namespace Session

open Machine

variable {c : Constant} {session : List Operation} {start : Machine}

/-- The operation feeds a source text, or tokens in which the cell of the slot does not
occur. -/
def Operation.FeedsWithout (slot : Nat) : Operation → Prop
  | execute _ => True
  | run tokens => ∀ token ∈ tokens, token.Avoids slot
  | _ => False

namespace Operation

theorem FeedsWithout.copy {slot slots : Nat} {operation : Operation}
    (feeds : operation.FeedsWithout slot) :
    Value.Marking.Makes slots (fun _ own => own.FeedsWithout slot) (operation.copy slots) := by
  cases operation with
  | execute source => exact .pure fun _ => trivial
  | run tokens =>
    exact .bind (fun _ _ _ _ => id) (Token.avoids_copies slots feeds) fun _ => .pure fun _ => id
  | _ => exact feeds.elim

theorem keeps_carryOut {allows : Nat → Activity → Machine → Prop} {operation : Operation}
    {m : Machine} (guarded : Guarded c allows)
    (allowed : ∀ activity, operation.activity? = some activity → allows Host.maxDepth activity m)
    (feeds : operation.FeedsWithout c.slot) (keeps : m.Keeps c) :
    (operation.carryOut m).machine.Keeps c := by
  cases operation with
  | execute source =>
    rw [carryOut, Result.ofSelf, Outcome.machine_map]
    exact guarded.keeps_execute (allowed _ rfl) keeps
  | run tokens =>
    rw [carryOut, Result.ofSelf, Outcome.machine_map]
    exact guarded.keeps_run tokens (allowed _ rfl) keeps feeds
  | _ => exact feeds.elim

end Operation

/-- A session of source texts and tokens keeps the constant. -/
theorem keeps_play (guarded : Guarded c (Begins session start))
    (feeds : ∀ operation ∈ session, operation.FeedsWithout c.slot) (keeps : start.Keeps c)
    {before after : List Operation} (order : session = before ++ after) :
    (play before start).Keeps c := by
  induction before using List.reverseRecOn generalizing after with
  | nil => exact keeps
  | append_singleton before operation ih =>
    have order : session = before ++ operation :: after := by simpa using order
    have passed := ih order
    have performed : (operation.perform (play before start)).machine.Keeps c := by
      rcases marking_cases (operation.copy (play before start).slots.size) (play before start)
        with ⟨own, next, copied⟩ | ⟨f, failed⟩
      · have feeds := feeds operation (by simp [order])
        have feeds : own.FeedsWithout c.slot := makes_of_marking copied feeds.copy
        rw [Operation.perform, copied, Outcome.bind_done]
        refine own.keeps_carryOut guarded (fun activity amounts => ?_) feeds ?_
        · exact .operation order copied amounts
        · exact ⟨⟨passed.hides.stack, passed.hides.slots⟩, passed.holds, passed.dictionary,
            passed.code⟩
      · rw [Operation.perform, failed]
        exact passed
    simpa [play] using performed

end Session

end ThreadedForth
