import ThreadedForth.Proofs.Chronicle
import ThreadedForth.Proofs.Evaluation
import ThreadedForth.Proofs.Twin

/-!
# What becomes of definitions

A definition is opened by `define`, wherever that is called: at the prompt, from a host
callable, or in the middle of compiled code.  Later it is finished, which makes it a colon
word, or it is given up, of which a warning tells.  There are many ways to give it up.  A
failing token does, and so do a stop from outside and the console after a fault or an
interrupt.

The books balance all the same.  At every moment of a session the definitions that have been
opened are as many as the colon words, the warnings, and the open definition taken together
(`Machine.Accounted`).  To count the openings there must be a record of what has been, and
that is the chronicle (`Moment.defines`).

Definitions are known by the address of their code.  Besides the balance it is kept that the
code of a finished definition begins before the end of the code, and before the code of the
open one.  So the open definition cannot be mistaken for a finished one.

* `Outcome.Accounts`: the work of a native word, `define` among them, keeps the books;
* `Session.tracks_accounts`: so does everything that goes on in a session in which compiling
  is not switched from outside;
* `Session.definitions_accounted`: the balance at every moment, and what is left of the open
  definition when a feed fails.
-/

namespace ThreadedForth

/-! ## Colon words -/

/-- The address of the code, if the word is a colon word. -/
def Word.colonAddress? (w : Word) : Option Nat :=
  match w.body with
  | .colon address => some address
  | _ => none

namespace Dictionary

variable {d : Dictionary}

/-- The addresses of the colon words, one for each, in the order of registration. -/
def colonAddresses (d : Dictionary) : List Nat := d.entries.toList.filterMap Word.colonAddress?

theorem mem_colonAddresses {address : Nat} :
    address ∈ d.colonAddresses ↔ ∃ w ∈ d.entries, w.body = .colon address := by
  unfold colonAddresses
  rw [List.mem_filterMap]
  constructor
  · rintro ⟨w, inside, at_⟩
    refine ⟨w, Array.mem_toList_iff.mp inside, ?_⟩
    unfold Word.colonAddress? at at_
    split at at_
    · next body =>
      cases at_
      exact body
    · cases at_
  · rintro ⟨w, inside, body⟩
    exact ⟨w, Array.mem_toList_iff.mpr inside, by simp [Word.colonAddress?, body]⟩

theorem colonAddresses_push (w : Word) :
    (d.push w).colonAddresses = d.colonAddresses ++ w.colonAddress?.toList := by
  unfold colonAddresses push
  rw [Array.toList_push, List.filterMap_append]
  cases at_ : w.colonAddress? <;> simp [at_]

/-- Changing an entry changes nothing that is read from it if the change does not show. -/
theorem filterMap_modify {α : Type} {change : Word → Word} (read : Word → Option α) (entry : Nat)
    (same : ∀ w, read (change w) = read w) :
    (d.entries.modify entry change).toList.filterMap read = d.entries.toList.filterMap read := by
  have each : (d.entries.toList.modify entry change).map read = d.entries.toList.map read := by
    refine List.ext_getElem? fun i => ?_
    rw [List.getElem?_map, List.getElem?_map, List.getElem?_modify]
    cases d.entries.toList[i]? with
    | none => rfl
    | some w => by_cases here : entry = i <;> simp [here, same]
  have twice : ∀ words : List Word, words.filterMap read = (words.map read).filterMap id := by
    intro words
    rw [List.filterMap_map]
    rfl
  rw [Array.toList_modify, twice, each, ← twice]

theorem colonAddresses_markImmediate (entry : Nat) :
    (d.markImmediate entry).colonAddresses = d.colonAddresses :=
  filterMap_modify Word.colonAddress? entry fun _ => rfl

theorem colonAddresses_setBehavior (entry : Nat) (behavior : Value) :
    (d.setBehavior entry behavior).colonAddresses = d.colonAddresses := by
  refine filterMap_modify Word.colonAddress? entry fun w => ?_
  obtain ⟨name, immediate, body⟩ := w
  cases body <;> rfl

end Dictionary

/-! ## Warnings -/

/-- The note warns that a definition is given up. -/
def Note.isAbandonment (n : Note) : Bool :=
  n.level == .warning && n.channel == .compiler &&
    "abandoning definition of '".toList.isPrefixOf n.text.toList

namespace Store

variable {s t : Store}

/-- The number of warnings that a definition is given up. -/
def abandonments (s : Store) : Nat := s.journal.countP Note.isAbandonment

theorem abandonments_note {level : Level} {channel : Channel} (text : String)
    (other : level = .debug ∨ channel ≠ .compiler) :
    (s.note level channel text).abandonments = s.abandonments := by
  have silent : Note.isAbandonment ⟨level, channel, text⟩ = false := by
    rcases other with rfl | other
    · rfl
    · simp [Note.isAbandonment, other]
  unfold note
  split
  · exact List.countP_cons_of_neg (by simp [silent])
  · rfl

theorem abandonments_install (w : Word) : (s.install w).abandonments = s.abandonments := by
  unfold install
  simp only
  split
  · exact abandonments_note _ (.inl rfl)
  · rfl

/-- A definition that is dropped leaves a warning. -/
theorem abandonments_abandon :
    s.abandon.abandonments = s.abandonments + s.draft.toList.length := by
  unfold abandon
  split
  · next draft open_ =>
    have warned : Note.isAbandonment
        ⟨.warning, .compiler, "abandoning definition of '" ++ draft.name ++ "'"⟩ = true := by
      simp [Note.isAbandonment, String.toList_append]
    rw [open_]
    exact List.countP_cons_of_pos warned
  · next none_ =>
    rw [none_]
    rfl

/-- No primitive warns. -/
theorem abandonments_apply {here : Nat} {p : Primitive} {arguments : List Value} {v : Value}
    (h : p.apply here arguments s = .ok (v, t)) : t.abandonments = s.abandonments := by
  by_cases calculation : p.IsCalculation
  · -- with its own books a store is itself
    have own := calculation.apply_rebooked here here arguments s s
    have same : rebooked s s = s := rfl
    rw [same, h] at own
    injection own with own
    injection own with _ own
    rw [own]
    rfl
  · unfold Primitive.apply at h
    split at h
    case h_9 =>
      obtain ⟨_, defined, made⟩ := exists_of_bind_ok h
      obtain ⟨name, -, -, rfl⟩ := define_eq_ok defined
      cases made
      rfl
    case h_12 =>
      obtain ⟨name, -, made⟩ := exists_of_bind_ok h
      cases made
      rw [abandonments_note _ (.inl rfl)]
      exact abandonments_install _
    case h_28 => cases h
    all_goals exact absurd ⟨nofun, nofun⟩ calculation

end Store

/-! ## Books -/

namespace Machine

/-- Nothing has been opened, finished or given up.  The open definition may have been marked,
and its code may have grown. -/
structure SameAccounts (m after : Machine) : Prop where
  compiling : after.compiling = m.compiling
  draft : after.draft.map Draft.address = m.draft.map Draft.address
  colons : after.dictionary.colonAddresses = m.dictionary.colonAddresses
  abandonments : after.abandonments = m.abandonments
  size : m.code.size ≤ after.code.size

/-- The books of a machine on which definitions have been opened this many times. -/
structure Accounted (opened : Nat) (m : Machine) : Prop where
  mode : m.compiling = m.draft.isSome
  balance : opened =
    m.dictionary.colonAddresses.length + m.abandonments + if m.compiling then 1 else 0
  laid : ∀ address ∈ m.dictionary.colonAddresses, address < m.code.size
  begun : ∀ start, m.draft.map Draft.address = some start →
    start ≤ m.code.size ∧ ∀ address ∈ m.dictionary.colonAddresses, address < start

variable {m after : Machine} {opened : Nat}

theorem SameAccounts.refl (m : Machine) : m.SameAccounts m := ⟨rfl, rfl, rfl, rfl, Nat.le_refl _⟩

theorem SameAccounts.trans {ended : Machine} (first : m.SameAccounts after)
    (second : after.SameAccounts ended) : m.SameAccounts ended where
  compiling := second.compiling.trans first.compiling
  draft := second.draft.trans first.draft
  colons := second.colons.trans first.colons
  abandonments := second.abandonments.trans first.abandonments
  size := Nat.le_trans first.size second.size

theorem Accounted.of_same (accounted : m.Accounted opened) (same : m.SameAccounts after) :
    after.Accounted opened where
  mode := by
    have open_ := congrArg Option.isSome same.draft
    rw [Option.isSome_map, Option.isSome_map] at open_
    rw [same.compiling, open_]
    exact accounted.mode
  balance := by
    rw [same.colons, same.abandonments, same.compiling]
    exact accounted.balance
  laid := by
    intro address inside
    rw [same.colons] at inside
    exact Nat.lt_of_lt_of_le (accounted.laid address inside) same.size
  begun := by
    intro start at_
    rw [same.draft] at at_
    rw [same.colons]
    obtain ⟨low, above⟩ := accounted.begun start at_
    exact ⟨Nat.le_trans low same.size, above⟩

theorem Accounted.draft_eq_none (accounted : m.Accounted opened) (idle : m.compiling = false) :
    m.draft = none := by
  have mode := accounted.mode
  rw [idle] at mode
  exact Option.isNone_iff_eq_none.mp (Option.isSome_eq_false_iff.mp mode.symm)

/-- Opening a definition is entered on one side of the books as an opening, and on the other
one as the open definition. -/
theorem Accounted.openDraft {name : Word.Name} (accounted : m.Accounted opened)
    (idle : m.compiling = false) :
    Accounted (opened + 1) { m with toStore := m.toStore.openDraft name m.code.size } where
  mode := rfl
  balance := by
    have before := accounted.balance
    rw [idle] at before
    exact congrArg (· + 1) before
  laid := accounted.laid
  begun := by
    intro start at_
    cases at_
    exact ⟨Nat.le_refl _, accounted.laid⟩

/-- Finishing a definition makes a colon word of the open definition. -/
theorem Accounted.closeDraft {draft : Draft} (accounted : m.Accounted opened)
    (compiling : m.compiling = true) (open_ : m.draft = some draft) :
    (m.closeDraft draft).Accounted opened := by
  have colons : (m.closeDraft draft).dictionary.colonAddresses =
      m.dictionary.colonAddresses ++ [draft.address] := Dictionary.colonAddresses_push _
  have size : (m.closeDraft draft).code.size = m.code.size + 1 := Array.size_push ..
  obtain ⟨low, above⟩ := accounted.begun draft.address (by rw [open_]; rfl)
  refine ⟨rfl, ?_, ?_, nofun⟩
  · have before := accounted.balance
    rw [compiling] at before
    have warned : (m.closeDraft draft).abandonments = m.abandonments := rfl
    have closed : (m.closeDraft draft).compiling = false := rfl
    rw [colons, warned, closed, List.length_append]
    simp only [List.length_singleton, if_true, Bool.false_eq_true, if_false] at before ⊢
    omega
  · intro address inside
    rw [colons, List.mem_append, List.mem_singleton] at inside
    rw [size]
    rcases inside with old | rfl
    · exact Nat.lt_succ_of_lt (accounted.laid address old)
    · exact Nat.lt_succ_of_le low

/-- Giving up a definition makes a warning of it. -/
theorem Accounted.abandon (accounted : m.Accounted opened) :
    Accounted opened { m with toStore := m.toStore.abandon } := by
  have dictionary : m.toStore.abandon.dictionary = m.dictionary := by
    unfold Store.abandon
    split
    · exact (Store.sameBooks_note ..).dictionary
    · rfl
  refine ⟨rfl, ?_, ?_, nofun⟩
  · have before := accounted.balance
    have warned : m.toStore.abandon.abandonments = m.abandonments + m.draft.toList.length :=
      Store.abandonments_abandon
    have idle : m.toStore.abandon.compiling = false := rfl
    rw [accounted.mode] at before
    rw [dictionary, warned, idle]
    cases draft : m.draft with
    | none =>
      rw [draft] at before
      exact before
    | some d =>
      rw [draft] at before
      exact before
  · rw [dictionary]
    exact accounted.laid

/-! ### Changes that are no entries -/

theorem sameAccounts_note {level : Level} {channel : Channel} (text : String)
    (other : level = .debug ∨ channel ≠ .compiler) :
    m.SameAccounts (m.note level channel text) := by
  have books := m.toStore.sameBooks_note level channel text
  exact ⟨books.compiling, congrArg _ books.draft, congrArg _ books.dictionary,
    Store.abandonments_note text other, Nat.le_refl _⟩

theorem sameAccounts_append (cell : Cell) : m.SameAccounts (m.append cell) := by
  refine ⟨rfl, rfl, rfl, rfl, ?_⟩
  unfold append
  rw [Array.size_push]
  exact Nat.le_succ _

theorem sameAccounts_join (values : List Value) :
    m.SameAccounts { m with code := m.code.pop.push (.literal values) } := by
  refine ⟨rfl, rfl, rfl, rfl, ?_⟩
  show m.code.size ≤ (m.code.pop.push (.literal values)).size
  rw [Array.size_push, Array.size_pop]
  omega

theorem sameAccounts_register {name : String} {immediate : Bool} {n : Native} :
    m.SameAccounts
      { m with dictionary := m.dictionary.push ⟨name, immediate, .native n⟩ } := by
  refine ⟨rfl, rfl, ?_, rfl, Nat.le_refl _⟩
  exact (Dictionary.colonAddresses_push _).trans (List.append_nil _)

theorem sameAccounts_bindBehavior (behavior : Value) :
    m.SameAccounts (m.bindBehavior behavior).machine := by
  unfold bindBehavior
  split
  · exact .refl m
  · next entry last =>
    have given : m.SameAccounts
        { m with dictionary := m.dictionary.setBehavior entry behavior } :=
      ⟨rfl, rfl, Dictionary.colonAddresses_setBehavior entry behavior, rfl, Nat.le_refl _⟩
    simp only [Outcome.machine_done]
    rcases noteBehavior_cases ((m.dictionary.get? entry).elim "" Word.name) behavior
      { m with dictionary := m.dictionary.setBehavior entry behavior } with ⟨text, noted⟩ | noted
    · rw [noted]
      exact given.trans (sameAccounts_note _ (.inl rfl))
    · rw [noted]
      exact given

/-! ### Native words -/

theorem sameAccounts_sameBooks {s : Store} (books : m.toStore.SameBooks s)
    (silent : s.abandonments = m.abandonments) : m.SameAccounts { m with toStore := s } :=
  ⟨books.compiling, congrArg _ books.draft, congrArg _ books.dictionary, silent, Nat.le_refl _⟩

theorem sameAccounts_pushAll (values : List Value) : m.SameAccounts (m.pushAll values) :=
  ⟨rfl, rfl, rfl, rfl, Nat.le_refl _⟩

end Machine

/-- The operation keeps the books.  Its success counts as so many openings, and its failure as
none. -/
abbrev Outcome.Accounts {α : Type} (opened weight : Nat) : Outcome α → Prop :=
  Outcome.EndsIn (Machine.Accounted (opened + weight)) (Machine.Accounted opened)

/-- How many definitions a native word opens that succeeds. -/
def Action.weight (action : Action) : Nat := if action = .primitive .define then 1 else 0

section

open Machine

variable {m : Machine} {opened : Nat}

theorem Primitive.accounts_perform (p : Primitive) (arguments : List Value)
    (accounted : m.Accounted opened) :
    (p.perform arguments m).Accounts opened (Action.primitive p).weight := by
  rw [Primitive.perform_eq]
  unfold Outcome.ofStore
  split
  · next v s ends =>
    have silent := Store.abandonments_apply ends
    by_cases defines : p = .define
    · subst defines
      unfold Primitive.apply at ends
      split at ends <;> try contradiction
      · obtain ⟨_, defined, made⟩ := exists_of_bind_ok ends
        obtain ⟨name, -, idle, rfl⟩ := Store.define_eq_ok defined
        cases made
        exact accounted.openDraft idle
    · have plain : (Action.primitive p).weight = 0 := by simp [Action.weight, defines]
      rw [plain]
      rcases Store.apply_cases ends with books | ⟨rfl, -⟩ | ⟨-, name, -, books⟩
      · exact accounted.of_same (sameAccounts_sameBooks books silent)
      · exact absurd rfl defines
      · refine accounted.of_same ⟨books.compiling, congrArg _ books.draft, ?_, silent,
          Nat.le_refl _⟩
        show s.dictionary.colonAddresses = _
        rw [books.dictionary]
        exact (Dictionary.colonAddresses_push _).trans (List.append_nil _)
  · exact accounted

theorem Machine.accounted_finish {after : Machine} (accounted : m.Accounted opened)
    (finished : m.finish = .ok after) : after.Accounted opened := by
  obtain ⟨_, required, closed⟩ := exists_of_bind_ok finished
  have compiling := compiling_of_require required
  split at closed
  · next draft open_ =>
    cases closed
    refine (accounted.closeDraft compiling open_).of_same ?_
    refine .trans ?_ (sameAccounts_note _ (.inl rfl))
    have books := Store.sameBooks_install ⟨draft.name, draft.immediate, .colon draft.address⟩
      { m.toStore with compiling := false, draft := none }
    exact ⟨books.compiling, congrArg _ books.draft, congrArg _ books.dictionary,
      Store.abandonments_install _, Nat.le_refl _⟩
  · next none_ =>
    -- compiling goes with an open definition
    have mode := accounted.mode
    rw [compiling, none_] at mode
    cases mode

theorem Directive.accounted_apply {d : Directive} {arguments : List Value} {after : Machine}
    (accounted : m.Accounted opened) (applied : d.apply arguments m = .ok after) :
    after.Accounted opened := by
  unfold Directive.apply at applied
  split at applied
  · exact accounted_finish accounted applied
  · unfold markImmediate at applied
    split at applied
    · next _ open_ =>
      cases applied
      refine accounted.of_same ⟨rfl, ?_, rfl, rfl, Nat.le_refl _⟩
      rw [open_]
      rfl
    · cases applied
      exact accounted.of_same
        ⟨rfl, rfl, Dictionary.colonAddresses_markImmediate _, rfl, Nat.le_refl _⟩
    · cases applied
  · obtain ⟨_, _, made⟩ := exists_of_bind_ok applied
    cases made
    exact accounted.of_same (sameAccounts_append .exit)
  · obtain ⟨_, _, compiled⟩ := exists_of_bind_ok applied
    obtain ⟨joined, _, made⟩ := exists_of_bind_ok compiled
    cases made
    cases joined with
    | none => exact accounted.of_same (sameAccounts_append _)
    | some all => exact accounted.of_same (sameAccounts_join all)
  · obtain ⟨_, _, made⟩ := exists_of_bind_ok applied
    cases made
    have grown := (sameAccounts_append (m := m) (.does (m.here + 2 : Nat))).trans
      (sameAccounts_append .exit)
    exact accounted.of_same
      ⟨grown.compiling, grown.draft, grown.colons, grown.abandonments, grown.size⟩
  · cases applied

theorem Directive.accounts_perform (d : Directive) (arguments : List Value)
    (accounted : m.Accounted opened) :
    (d.perform arguments m).Accounts opened (Action.directive d).weight := by
  rw [Directive.perform_eq]
  split
  · next after applied => exact Directive.accounted_apply accounted applied
  · exact accounted

/-- The arguments of a native word and its result do not enter the books. -/
theorem Machine.accounts_callWith {name : String} {n : Native} {weight : Nat}
    {perform : List Value → Machine → Outcome Value}
    (performs : ∀ arguments m, m.Accounted opened → (perform arguments m).Accounts opened weight)
    (accounted : m.Accounted opened) :
    (m.callWith name n perform).Accounts opened weight := by
  have pushed : ∀ {count : Nat} values (after : Machine), after.Accounted count →
      (after.pushAll values).Accounted count :=
    fun values after kept => kept.of_same (sameAccounts_pushAll values)
  refine endsIn_callWith pushed pushed (fun _ => accounted) fun _ => performs _ _ ?_
  exact accounted.of_same ⟨rfl, rfl, rfl, rfl, Nat.le_refl _⟩

end

/-! ## Counting openings -/

/-- Whether an operation has succeeded. -/
def Outcome.succeeds {α : Type} : Outcome α → Bool
  | .done _ _ => true
  | .failed _ _ => false

/-- Whether a run goes on after a turn. -/
def Turn.goesOn : Turn → Bool
  | .next _ => true
  | _ => false

theorem Outcome.Accounts.machine {α : Type} {o : Outcome α} {opened weight : Nat}
    (kept : o.Accounts opened weight) :
    o.machine.Accounted (opened + if o.succeeds then weight else 0) := by
  cases o with
  | done a m => exact kept
  | failed f m => exact kept

theorem Turn.goesOn_ofOutcome (o : Outcome Unit) : (Turn.ofOutcome o).goesOn = o.succeeds := by
  cases o with
  | done a m => rfl
  | failed f m => rfl

/-- The action of the native word at the place of execution. -/
def Machine.action? (m : Machine) : Option Action :=
  match m.current? with
  | some (.native entry) =>
    match m.dictionary.get? entry with
    | some ⟨_, _, .native n⟩ => some n.action
    | _ => none
  | _ => none

/-- The word `define` is called at this moment, and succeeds.  It is called by itself, or it is
the turn of its cell. -/
def Moment.defines (x : Moment) : Bool :=
  match x.activity with
  | .native name n =>
    n.action = .primitive .define &&
      (x.machine.callNative (Host.callHost x.depth) name n).succeeds
  | .turns base _ => x.machine.action? = some (.primitive .define) && (x.machine.turn base).goesOn
  | _ => false

/-- How often `define` has succeeded. -/
def openings (past : List Moment) : Nat := past.countP Moment.defines

theorem openings_concat (past : List Moment) (x : Moment) :
    openings (past ++ [x]) = openings past + if x.defines then 1 else 0 := by
  unfold openings
  rw [List.countP_append, List.countP_singleton]

theorem openings_of_delegates (past : List Moment) {x : Moment} (delegates : x.activity.Delegates) :
    openings (past ++ [x]) = openings past := by
  have none_ : x.defines = false := by
    unfold Moment.defines
    split
    · next name n kind =>
      rw [kind] at delegates
      obtain ⟨f, host⟩ := delegates
      simp [host]
    · next base credit kind =>
      rw [kind] at delegates
      exact delegates.elim
    · rfl
  rw [openings_concat, none_]
  rfl

namespace Machine

variable {m : Machine} {opened : Nat}

theorem accounted_callNative {name : String} {n : Native} (depth : Nat)
    (own : ∀ f, n.action ≠ .host f) (accounted : m.Accounted opened) :
    (m.callNative (Host.callHost depth) name n).machine.Accounted
      (opened + if Moment.defines ⟨depth, .native name n, m⟩ then 1 else 0) := by
  have kept : (m.callNative (Host.callHost depth) name n).Accounts opened n.action.weight := by
    refine accounts_callWith (fun arguments m accounted => ?_) accounted
    cases kind : n.action with
    | primitive p => exact p.accounts_perform arguments accounted
    | directive d => exact d.accounts_perform arguments accounted
    | host f => exact absurd kind (own f)
  have counted : (if Moment.defines ⟨depth, .native name n, m⟩ then 1 else 0) =
      if (m.callNative (Host.callHost depth) name n).succeeds then n.action.weight else 0 := by
    by_cases defines : n.action = .primitive .define <;>
      simp [Moment.defines, Action.weight, defines]
  rw [counted]
  exact kept.machine

/-- The turn of a primitive's cell calls the primitive. -/
theorem turn_of_primitive {entry : Nat} {name : String} {immediate : Bool} {n : Native}
    {p : Primitive} (base : Nat) (at_ : m.current? = some (.native entry))
    (known : m.dictionary.get? entry = some ⟨name, immediate, .native n⟩)
    (kind : n.action = .primitive p) :
    ∃ resume, m.turn base = .ofOutcome ((m.moved resume).callWith name n p.perform) := by
  obtain ⟨address, placed, found⟩ := Option.bind_eq_some_iff.mp at_
  cases fetched : m.fetch address with
  | error f =>
    rw [fetched] at found
    cases found
  | ok cell =>
    rw [fetched] at found
    cases found
    refine ⟨address + 1, ?_⟩
    rw [turn_of_fetched placed fetched]
    exact stepNative_primitive known kind

theorem accounted_turn (depth base credit : Nat) (accounted : m.Accounted opened) :
    (m.turn base).machine.Accounted
      (opened + if Moment.defines ⟨depth, .turns base credit, m⟩ then 1 else 0) := by
  have moved : ∀ resume, (m.moved resume).Accounted opened := fun resume =>
    accounted.of_same ⟨rfl, rfl, rfl, rfl, Nat.le_refl _⟩
  by_cases defines : m.action? = some (.primitive .define)
  · obtain ⟨entry, name, immediate, n, at_, known, kind⟩ : ∃ entry name immediate n,
        m.current? = some (.native entry) ∧
        m.dictionary.get? entry = some ⟨name, immediate, .native n⟩ ∧
        n.action = .primitive .define := by
      unfold action? at defines
      split at defines
      · next entry at_ =>
        split at defines
        · next name immediate n known =>
          exact ⟨entry, name, immediate, n, at_, known, Option.some.inj defines⟩
        · cases defines
      · cases defines
    obtain ⟨resume, turned⟩ := turn_of_primitive base at_ known kind
    have kept : ((m.moved resume).callWith name n Primitive.define.perform).Accounts opened 1 :=
      accounts_callWith (fun arguments m accounted =>
        Primitive.define.accounts_perform arguments accounted) (moved resume)
    have counted : Moment.defines ⟨depth, .turns base credit, m⟩ =
        ((m.moved resume).callWith name n Primitive.define.perform).succeeds := by
      rw [← Turn.goesOn_ofOutcome, ← turned]
      simp [Moment.defines, defines]
    rw [counted, turned, Turn.machine_ofOutcome]
    exact kept.machine
  · have none_ : Moment.defines ⟨depth, .turns base credit, m⟩ = false := by
      simp [Moment.defines, defines]
    rw [none_]
    show (m.turn base).machine.Accounted opened
    have left := m.leaves_turn base
    generalize (m.turn base).machine = after at left
    cases left with
    | place returns ip => exact accounted.of_same ⟨rfl, rfl, rfl, rfl, Nat.le_refl _⟩
    | pushed at_ pushes returns ip => exact accounted.of_same ⟨rfl, rfl, rfl, rfl, Nat.le_refl _⟩
    | @primitive entry name immediate n p at_ known kind resume =>
      have plain : (Action.primitive p).weight = 0 := by
        refine if_neg fun same => defines ?_
        simp only [action?, at_, known, kind, same]
      have kept : ((m.moved resume).callWith name n p.perform).Accounts opened
          (Action.primitive p).weight :=
        accounts_callWith (fun arguments m accounted => p.accounts_perform arguments accounted)
          (moved resume)
      rw [plain] at kept
      simpa using kept.machine
    | behavior at_ gives resume => exact (moved resume).of_same (sameAccounts_bindBehavior _)

/-! ## Failing feeds -/

/-- The definition that is open when one of the tokens fails, before it is given up. -/
def draftAtFault? (call : Caller) : List Token → Machine → Option Draft
  | [], _ => none
  | token :: rest, m =>
    match m.interpretToken call token with
    | .done () after => draftAtFault? call rest after
    | .failed _ after => after.draft

/-- The machine is out of compile mode, and a definition is given up: it is not in the
dictionary, and no name means it. -/
structure GivenUp (lost : Option Draft) (m : Machine) : Prop where
  compiling : m.compiling = false
  draft : m.draft = none
  unlisted : ∀ draft, lost = some draft →
    ∀ w ∈ m.dictionary.entries, w.body ≠ .colon draft.address
  unnamed : ∀ draft, lost = some draft →
    ∀ name entry w, m.lookup name = .ok entry → m.dictionary.get? entry = some w →
      w.body ≠ .colon draft.address

/-- A machine whose books are kept gives its open definition up. -/
theorem Accounted.givenUp (accounted : m.Accounted opened) :
    m.abandonIfCompiling.GivenUp m.draft := by
  have dictionary : m.abandonIfCompiling.dictionary = m.dictionary := by
    unfold abandonIfCompiling Store.abandon
    split
    · simp only
      split
      · exact (Store.sameBooks_note ..).dictionary
      · rfl
    · rfl
  have unlisted : ∀ draft, m.draft = some draft →
      ∀ w ∈ m.abandonIfCompiling.dictionary.entries, w.body ≠ .colon draft.address := by
    intro draft open_ w inside body
    rw [dictionary] at inside
    have at_ : m.draft.map Draft.address = some draft.address := by rw [open_, Option.map_some]
    have above := (accounted.begun draft.address at_).2
    exact Nat.lt_irrefl _ (above _ (Dictionary.mem_colonAddresses.mpr ⟨w, inside, body⟩))
  refine ⟨?_, ?_, unlisted, fun draft open_ name entry w _ known => ?_⟩
  · unfold abandonIfCompiling
    split
    · rfl
    · next idle => exact Bool.eq_false_iff.mpr idle
  · unfold abandonIfCompiling
    split
    · rfl
    · next idle => exact accounted.draft_eq_none (Bool.eq_false_iff.mpr idle)
  · exact unlisted draft open_ w (Array.mem_of_getElem? known)

/-- Feeding a single token is feeding a token. -/
theorem run_singleton (call : Caller) (token : Token) (m : Machine) :
    m.run call [token] = m.interpret call token := by
  rw [run]
  cases m.interpret call token with
  | done _ after => rfl
  | failed f after => rfl

end Machine

/-- The tokens that an activity feeds. -/
def Activity.fed? : Activity → Option (List Token)
  | tokens ts => some ts
  | token t => some [t]
  | _ => none

theorem Activity.perform_eq_run {activity : Activity} {tokens : List Token}
    (feeds : activity.fed? = some tokens) (depth : Nat) (m : Machine) :
    activity.perform depth m = m.run (Host.callHost depth) tokens := by
  cases activity with
  | tokens ts =>
    cases feeds
    rfl
  | token t =>
    cases feeds
    exact (Machine.run_singleton _ t m).symm
  | _ => cases feeds

namespace Session

/-- Sessions that do not switch compiling from outside.  Everything else is allowed: callables
may be registered, code run from any address, and cells handed in. -/
def unswitched : Scope where
  callables := fun _ => True
  addresses := True
  switches := False
  cells := True

/-- The books are kept through everything that goes on in a session. -/
theorem tracks_accounts : Tracks (fun past m => m.Accounted (openings past)) unswitched where
  begins {past x} delegates _ accounted := by
    rw [openings_of_delegates past delegates]
    exact accounted
  native {past depth name n m} own accounted := by
    rw [openings_concat]
    exact Machine.accounted_callNative depth own accounted
  turn {past m} depth base credit accounted := by
    rw [openings_concat]
    exact Machine.accounted_turn depth base credit accounted
  aside {past m after} changed accounted := by
    cases changed with
    | data stack nextMark transcript =>
      exact accounted.of_same ⟨rfl, rfl, rfl, rfl, Nat.le_refl _⟩
    | sweep => exact accounted.of_same ⟨rfl, rfl, rfl, rfl, Nat.le_refl _⟩
    | unwind popped => exact accounted.of_same ⟨rfl, rfl, rfl, rfl, Nat.le_refl _⟩
    | rest => exact accounted.of_same ⟨rfl, rfl, rfl, rfl, Nat.le_refl _⟩
    | note level channel text other =>
      exact accounted.of_same (Machine.sameAccounts_note text other)
    | compile compiling made => exact accounted.of_same (Machine.sameAccounts_append _)
    | join compiling last free joined => exact accounted.of_same (Machine.sameAccounts_join _)
    | abandon => exact accounted.abandon
    | register valid own allowed => exact accounted.of_same Machine.sameAccounts_register
  enter _ _ accounted := accounted.of_same ⟨rfl, rfl, rfl, rfl, Nat.le_refl _⟩
  leave _ accounted := accounted.of_same ⟨rfl, rfl, rfl, rfl, Nat.le_refl _⟩
  switch switches _ := switches.elim
  insert {past m items} _ accounted := accounted.of_same (Machine.sameAccounts_append _)

theorem accounted_bare (capacity : Int) (verbose : Bool) :
    (Machine.bare capacity verbose).Accounted 0 := by
  have none_ : (Machine.bare capacity verbose).dictionary.colonAddresses = [] := rfl
  refine ⟨rfl, rfl, ?_, nofun⟩
  rw [none_]
  exact nofun

/-- When tokens fail, compile mode is off afterwards, and the definition that was open is given
up. -/
theorem givenUp_run {tokens : List Token} {depth : Nat} {past : List Moment} {m after : Machine}
    {f : Fault} (accounted : m.Accounted (openings past))
    (failed : m.run (Host.callHost depth) tokens = .failed f after)
    (fault : f.isInterrupt = false) :
    after.GivenUp (m.draftAtFault? (Host.callHost depth) tokens) := by
  have told := tracks_accounts.told_callable depth
  induction tokens generalizing past m with
  | nil => cases failed
  | cons token rest ih =>
    have fed := (tracks_accounts.course_effect told token accounted).last
    rw [Machine.run, Machine.interpret] at failed
    rw [Machine.draftAtFault?]
    cases ends : m.interpretToken (Host.callHost depth) token with
    | done _ middle =>
      rw [ends] at failed fed
      exact ih fed failed
    | failed g middle =>
      rw [ends] at failed fed
      obtain ⟨rfl, rfl⟩ : g = f ∧ (if g.isInterrupt then middle else middle.abandonIfCompiling) =
          after := by
        cases failed
        exact ⟨rfl, rfl⟩
      rw [fault]
      exact Machine.Accounted.givenUp fed

/-- Definitions are neither lost nor leaked.  At every moment the machine is compiling exactly
if a definition is open, and as many definitions have been opened as there are colon words,
warnings of a definition that is given up, and open definitions.  Whenever tokens are fed and
one of them fails, compile mode is off afterwards, and the definition that was open is neither
in the dictionary nor meant by any name. -/
theorem definitions_accounted (capacity : Int) (withPrelude verbose : Bool)
    (session : List Operation) (within : ∀ operation ∈ session, operation.Within unswitched) :
    (∀ i,
      let past := (history capacity withPrelude verbose session).take i
      let m := stateAt capacity withPrelude verbose session i
      (m.compiling = true ↔ m.draft ≠ none) ∧
        openings past =
          m.dictionary.colonAddresses.length + m.abandonments + if m.compiling then 1 else 0) ∧
    ∀ x ∈ history capacity withPrelude verbose session, ∀ tokens,
      x.activity.fed? = some tokens → ∀ f after,
        x.activity.perform x.depth x.machine = .failed f after → f.isInterrupt = false →
          after.GivenUp (x.machine.draftAtFault? (Host.callHost x.depth) tokens) := by
  have kept := tracks_accounts.history capacity withPrelude verbose within
    (accounted_bare capacity verbose)
  refine ⟨fun i => ⟨?_, (kept i).balance⟩, fun x inside tokens feeds f after failed fault => ?_⟩
  · rw [(kept i).mode, Option.isSome_iff_ne_none]
  · obtain ⟨i, there⟩ := List.mem_iff_getElem?.mp inside
    have accounted := kept i
    rw [stateAt_of_getElem? there] at accounted
    rw [Activity.perform_eq_run feeds] at failed
    exact givenUp_run accounted failed fault

/-- A session that finishes one definition and fails in the middle of another one. -/
def faltering : List Operation :=
  [.run [.batch [.text "kept"], .word "define", .word "return", .batch [.text "lost"],
    .word "define", .word "nowhere"]]

theorem definitions_accounted_faltering :
    (∀ operation ∈ faltering, operation.Within unswitched) ∧
      openings ((history 8 false false faltering).take 20) = 2 ∧
      (stateAt 8 false false faltering 20).dictionary.colonAddresses = [0] ∧
      (stateAt 8 false false faltering 20).compiling = false ∧
      (stateAt 8 false false faltering 20).abandonments = 1 := by
  have within : ∀ operation ∈ faltering, operation.Within unswitched := by
    simp [faltering, Operation.Within]
  obtain ⟨balance, -⟩ := definitions_accounted 8 false false faltering within
  have opened : openings ((history 8 false false faltering).take 20) = 2 := by decide +kernel
  have colons : (stateAt 8 false false faltering 20).dictionary.colonAddresses = [0] := by
    decide +kernel
  have idle : (stateAt 8 false false faltering 20).compiling = false := by decide +kernel
  have balanced := (balance 20).2
  rw [opened, colons, idle] at balanced
  refine ⟨within, opened, colons, idle, ?_⟩
  simp only [List.length_singleton, Bool.false_eq_true, if_false] at balanced
  omega

end Session

end ThreadedForth
