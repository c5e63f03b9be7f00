import ThreadedForth.Proofs.Contract

/-!
# Contracts of whole sessions

A session may do more to a machine than words can.  It can register callables, stop
whatever is going on, run code from any address, switch compiling on and off, and put
a cell of its own into the code.  A `Session.Scope` says which of these a session makes
use of, and `Session.Operation.Within` that an operation stays within a scope.

A contract that is kept by the words is kept by the operations of a scope when the
operations that words have no part in keep it (`Contract.Spanning`).  Nothing is said
any more about how the end of an operation is related to its start: between two
operations there is only the invariant.

* `Spanning.inv_play`: the invariant holds wherever a session leaves the machine;
* `Spanning.admits_of_mem_outcomes`: only the faults that are admitted end an operation;
* `Spanning.inv_fresh`: the prelude is no exception.
-/

namespace ThreadedForth

namespace Session

/-- What a session makes use of. -/
structure Scope where
  /-- The host callables that are registered. -/
  callables : Host.Callable → Prop
  /-- Code is run from addresses that are given from outside. -/
  addresses : Prop
  /-- Compiling is switched from outside. -/
  switches : Prop
  /-- Cells are handed in. -/
  cells : Prop

/-- Sessions that register these callables.  Code may be run from any address, and compiling
may be switched, but no cell is handed in. -/
def registering (callables : Host.Callable → Prop) : Scope where
  callables := callables
  addresses := True
  switches := True
  cells := False

/-- The callable that an item is, if it is one, belongs to the scope. -/
def Scope.Allows (scope : Scope) (item : Host.Item) : Prop :=
  ∀ f, item = .callable f → scope.callables f

/-- The operation stays within the scope. -/
def Operation.Within (scope : Scope) : Operation → Prop
  | .executeAddress _ => scope.addresses
  | .setCompiling _ => scope.switches
  | .appendCell _ => scope.cells
  | .defineNative _ item _ => scope.Allows item
  | .importMapping pairs => ∀ pair ∈ pairs, scope.Allows pair.2
  | .importObject attributes =>
    ∀ own ∈ attributes, ∀ item, own.2 = .item item → scope.Allows item
  | _ => True

end Session

/-! ## Copies stay within the scope -/

namespace Value.Marking

variable {α β : Type}

theorem exists_of_bind {work : Value.Marking α} {further : α → Value.Marking β}
    {next last : Nat} {b : β} (h : (work >>= further).run next = .ok (b, last)) :
    ∃ a middle, work.run next = .ok (a, middle) ∧ (further a).run middle = .ok (b, last) := by
  rw [StateT.run_bind] at h
  obtain ⟨⟨a, middle⟩, first, second⟩ := exists_of_bind_ok h
  exact ⟨a, middle, first, second⟩

theorem exists_of_marking {work : Value.Marking α} {m ready : Machine} {a : α}
    (h : m.marking work = .done a ready) : ∃ last, work.run m.nextMark = .ok (a, last) := by
  unfold Machine.marking Store.marking at h
  cases runs : work.run m.nextMark with
  | error f =>
    rw [runs] at h
    cases h
  | ok result =>
    rw [runs] at h
    cases h
    exact ⟨result.2, rfl⟩

/-- What holds of the copy of each item holds of the items of a copied list. -/
theorem forall_mem_of_mapM {g : α → Value.Marking β} {R : β → Prop} :
    ∀ {items : List α} {copies : List β} {next last : Nat},
      (∀ a ∈ items, ∀ b next last, (g a).run next = .ok (b, last) → R b) →
      (items.mapM g).run next = .ok (copies, last) → ∀ b ∈ copies, R b
  | [], copies, next, last, _, h => by
    rw [List.mapM_nil] at h
    cases h
    intro b inside
    cases inside
  | a :: items, copies, next, last, each, h => by
    rw [List.mapM_cons] at h
    obtain ⟨b, middle, first, rest⟩ := exists_of_bind h
    obtain ⟨bs, middle', second, made⟩ := exists_of_bind rest
    cases made
    have later := forall_mem_of_mapM (fun c inside => each c (List.mem_cons_of_mem a inside)) second
    intro c inside
    rcases List.mem_cons.mp inside with rfl | inside
    · exact each a List.mem_cons_self c _ _ first
    · exact later c inside

end Value.Marking

namespace Session

variable {scope : Scope}

theorem Scope.allows_copy {item copied : Host.Item} {slots next last : Nat}
    (allowed : scope.Allows item) (h : (item.copy slots).run next = .ok (copied, last)) :
    scope.Allows copied := by
  cases item with
  | callable f =>
    cases h
    exact allowed
  | value v =>
    obtain ⟨own, middle, _, made⟩ := Value.Marking.exists_of_bind h
    cases made
    intro f same
    cases same

/-- Copying the values of an operation does not take it out of its scope. -/
theorem Operation.within_copy {operation own : Operation} {slots next last : Nat}
    (within : operation.Within scope) (h : (operation.copy slots).run next = .ok (own, last)) :
    own.Within scope := by
  cases operation with
  | defineNative name item options =>
    obtain ⟨_, _, _, rest⟩ := Value.Marking.exists_of_bind h
    obtain ⟨copied, _, copiedItem, rest⟩ := Value.Marking.exists_of_bind rest
    obtain ⟨_, _, _, made⟩ := Value.Marking.exists_of_bind rest
    cases made
    exact scope.allows_copy within copiedItem
  | importMapping pairs =>
    obtain ⟨copies, _, copied, made⟩ := Value.Marking.exists_of_bind h
    cases made
    refine Value.Marking.forall_mem_of_mapM (fun pair inside b next last paired => ?_) copied
    obtain ⟨_, _, _, rest⟩ := Value.Marking.exists_of_bind paired
    obtain ⟨own, _, copiedItem, rest⟩ := Value.Marking.exists_of_bind rest
    split at rest
    · cases rest
      exact scope.allows_copy (within pair inside) copiedItem
    · cases rest
  | importObject attributes =>
    obtain ⟨copies, _, copied, made⟩ := Value.Marking.exists_of_bind h
    cases made
    refine Value.Marking.forall_mem_of_mapM (fun pair inside b next last paired => ?_) copied
    obtain ⟨own, _, copiedOwn, rest⟩ := Value.Marking.exists_of_bind paired
    cases rest
    obtain ⟨name, given⟩ := pair
    cases given with
    | failing reason =>
      cases copiedOwn
      nofun
    | item item =>
      obtain ⟨copy, _, copiedItem, rest⟩ := Value.Marking.exists_of_bind copiedOwn
      cases rest
      rintro _ ⟨⟩
      exact scope.allows_copy (within _ inside item rfl) copiedItem
  | define name tokens =>
    obtain ⟨_, _, _, rest⟩ := Value.Marking.exists_of_bind h
    obtain ⟨_, _, _, made⟩ := Value.Marking.exists_of_bind rest
    cases made
    trivial
  | defineConstant name v =>
    obtain ⟨_, _, _, rest⟩ := Value.Marking.exists_of_bind h
    obtain ⟨_, _, _, made⟩ := Value.Marking.exists_of_bind rest
    cases made
    trivial
  | run | interpret | feed | push | pop | gather | pluck | pick | lookup | executeAddress
  | appendCell =>
    obtain ⟨_, _, _, made⟩ := Value.Marking.exists_of_bind h
    cases made
    exact within
  | _ =>
    cases h
    exact within

end Session

/-! ## Imported items -/

namespace Host

section

variable {α : Type} {R : α → Prop}

theorem forall_mem_putItem {name : Value} {item : α} (new : R item) :
    ∀ {items : List (Value × α)}, (∀ pair ∈ items, R pair.2) →
      ∀ pair ∈ putItem name item items, R pair.2
  | [], _ => by simpa [putItem] using new
  | (other, old) :: rest, each => by
    rw [List.forall_mem_cons] at each
    rw [putItem]
    split
    · rw [List.forall_mem_cons]
      exact ⟨new, each.2⟩
    · rw [List.forall_mem_cons]
      exact ⟨each.1, forall_mem_putItem new each.2⟩

/-- A mapping holds no items but those that were put into it. -/
theorem forall_mem_collect {pairs : List (Value × α)} (each : ∀ pair ∈ pairs, R pair.2) :
    ∀ pair ∈ collect pairs, R pair.2 := by
  unfold collect
  have start : ∀ pair ∈ ([] : List (Value × α)), R pair.2 := by simp
  revert start
  generalize ([] : List (Value × α)) = items
  intro start
  induction pairs generalizing items with
  | nil => exact start
  | cons pair rest ih =>
    rw [List.forall_mem_cons] at each
    exact ih each.2 _ (forall_mem_putItem each.1 start)

theorem forall_mem_publicAttributes {attributes : List (String × α)}
    (each : ∀ pair ∈ attributes, R pair.2) : ∀ pair ∈ publicAttributes attributes, R pair.2 := by
  have collected : ∀ pair ∈ collect (attributes.map fun own => (Value.text own.1, own.2)),
      R pair.2 := by
    refine forall_mem_collect fun pair inside => ?_
    obtain ⟨own, given, rfl⟩ := List.mem_map.mp inside
    exact each own given
  intro pair inside
  unfold publicAttributes at inside
  rw [List.mem_mergeSort] at inside
  obtain ⟨⟨name, item⟩, gathered, visible⟩ := List.mem_filterMap.mp inside
  have held := collected _ gathered
  cases name with
  | text s =>
    simp only at visible
    split at visible <;> cases visible
    exact held
  | _ => cases visible

end

theorem Attribute.read_eq_ok {own : Attribute} {item : Item} (read : own.read = .ok item) :
    own = .item item := by
  cases own with
  | item i =>
    cases read
    rfl
  | failing reason => cases read

/-- The items of an object are those that its attributes hold. -/
theorem forall_mem_objectItems {R : Item → Prop} {attributes : List (String × Attribute)}
    {items : List (Value × Item)}
    (each : ∀ own ∈ attributes, ∀ item, own.2 = .item item → R item)
    (read : objectItems attributes = .ok items) : ∀ pair ∈ items, R pair.2 := by
  have visible := forall_mem_publicAttributes
    (R := fun own : Attribute => ∀ item, own = .item item → R item) each
  unfold objectItems at read
  generalize publicAttributes attributes = listed at visible read
  induction listed generalizing items with
  | nil =>
    cases read
    nofun
  | cons own rest ih =>
    rw [List.forall_mem_cons] at visible
    rw [List.mapM_cons] at read
    obtain ⟨pair, first, further⟩ := exists_of_bind_ok read
    obtain ⟨others, second, made⟩ := exists_of_bind_ok further
    obtain ⟨item, opened, paired⟩ := exists_of_bind_ok first
    cases made
    cases paired
    exact List.forall_mem_cons.mpr
      ⟨visible.1 item (Attribute.read_eq_ok opened), ih visible.2 second⟩

/-- The faults of reading attributes do not derail. -/
theorem steady_objectItems (attributes : List (String × Attribute)) :
    Steady (objectItems attributes) := by
  refine .mapM fun own _ => ?_
  refine .bind ?_ fun _ _ => .ok _
  cases own.2 with
  | item i => exact .ok _
  | failing reason => exact .error rfl

end Host

namespace Machine

variable {R : Host.Item → Prop}

theorem forall_mem_checkNames {m : Machine} {items : List (Value × Host.Item)}
    {named : List (String × Host.Item)} (each : ∀ pair ∈ items, R pair.2)
    (h : m.checkNames items = .ok named) :
    ∀ pair ∈ named, Text.allBlank pair.1.toList = false ∧ R pair.2 := by
  unfold checkNames at h
  induction items generalizing named with
  | nil =>
    rw [List.mapM_nil] at h
    cases h
    simp
  | cons pair rest ih =>
    rw [List.forall_mem_cons] at each
    rw [List.mapM_cons] at h
    obtain ⟨checked, first, further⟩ := exists_of_bind_ok h
    obtain ⟨others, second, made⟩ := exists_of_bind_ok further
    obtain ⟨name, valid, paired⟩ := exists_of_bind_ok first
    cases made
    cases paired
    rw [List.forall_mem_cons]
    exact ⟨⟨(Store.checkName_eq_ok valid).2, each.1⟩, ih each.2 second⟩

theorem steady_checkNames (items : List (Value × Host.Item)) (m : Machine) :
    Steady (m.checkNames items) := by
  refine .mapM fun pair _ => ?_
  exact .bind (Word.steady_checkName m.slots pair.1) fun _ _ => .ok _

end Machine

/-! ## Sessions -/

namespace Contract

variable {α : Type}

/-- The invariant survives, and the fault is admitted if there is one. -/
def Survives (K : Contract) (o : Outcome α) : Prop :=
  K.inv o.machine ∧ ∀ f after, o = .failed f after → K.admits f

theorem Holds.survives {K : Contract} {m : Machine} {o : Outcome α} (held : K.Holds m o) :
    K.Survives o := by
  cases o with
  | done a after =>
    refine ⟨held.1, fun f ended same => ?_⟩
    cases same
  | failed f after =>
    refine ⟨held.1, fun g ended same => ?_⟩
    cases same
    exact held.2.2

theorem Survives.map {β : Type} {K : Contract} {o : Outcome α} (g : α → β)
    (survived : K.Survives o) : K.Survives (o.map g) := by
  cases o with
  | done a after =>
    refine ⟨survived.1, fun f ended same => ?_⟩
    cases same
  | failed f after =>
    refine ⟨survived.1, fun h ended same => ?_⟩
    cases same
    exact survived.2 f after rfl

theorem Survives.bind {β : Type} {K : Contract} {o : Outcome α}
    {next : α → Machine → Outcome β} (survived : K.Survives o)
    (then_ : ∀ a after, o = .done a after → K.inv after → K.Survives (next a after)) :
    K.Survives (o.bind next) := by
  cases o with
  | done a after => exact then_ a after rfl survived.1
  | failed f after =>
    refine ⟨survived.1, fun h ended same => ?_⟩
    cases same
    exact survived.2 f after rfl

/-- The obligations from which it follows that a contract spans the sessions of a
scope. -/
structure Spanning (K : Contract) (scope : Session.Scope) : Prop extends
    K.Sustained scope.callables where
  /-- A native word can be registered that is no directive. -/
  register {m : Machine} {name : String} {immediate : Bool} {n : Native} : K.inv m →
    Text.allBlank name.toList = false → (∀ d, n.action ≠ .directive d) →
    (∀ f, n.action = .host f → scope.callables f) →
    K.inv { m with dictionary := m.dictionary.push ⟨name, immediate, .native n⟩ }
  stop {m : Machine} : K.inv m → K.inv m.abort
  jump {m : Machine} {address : Value} : scope.addresses → K.inv m →
    K.Survives (m.executeAddress Host.caller address)
  switch {m : Machine} {on : Bool} : scope.switches → K.inv m → K.inv { m with compiling := on }
  insert {m : Machine} {items : List Value} : scope.cells → K.inv m →
    K.inv (m.append (Cell.ofItems items))

namespace Spanning

variable {K : Contract} {scope : Session.Scope} (spanning : K.Spanning scope)

include spanning

theorem survives_done {m : Machine} (a : α) (inv : K.inv m) : K.Survives (.done a m) :=
  (spanning.holds_done a inv).survives

theorem survives_failed {m : Machine} {f : Fault} (inv : K.inv m) (calm : f.derails = false) :
    K.Survives (.failed f m : Outcome α) :=
  (spanning.holds_failed inv calm).survives

/-- Work on the store that keeps the books keeps the contract. -/
theorem survives_ofStore {m : Machine} {work : Except Fault (α × Store)} (inv : K.inv m)
    (steady : Steady work) (books : ∀ a s, work = .ok (a, s) → m.toStore.SameBooks s) :
    K.Survives (.ofStore m work) := by
  cases ends : work with
  | ok result =>
    have kept := spanning.edits inv (Machine.edits_data (books result.1 result.2 ends))
    exact spanning.survives_done result.1 kept.1
  | error f => exact spanning.survives_failed inv (steady f ends)

theorem survives_whole {m : Machine} {r : Routine Store α}
    {work : Store → Except Fault (α × Store)} (same : r = .whole work) (inv : K.inv m)
    (steady : Steady (work m.toStore))
    (books : ∀ a s, work m.toStore = .ok (a, s) → m.toStore.SameBooks s) :
    K.Survives (Session.onStore r m) := by
  rw [Session.onStore_whole same]
  exact spanning.survives_ofStore inv steady books

theorem survives_change {m : Machine} {r : Routine Store Unit} {work : Store → Except Fault Store}
    (same : r = .change work) (inv : K.inv m) (steady : Steady (work m.toStore))
    (books : ∀ s, work m.toStore = .ok s → m.toStore.SameBooks s) :
    K.Survives (Session.onStore r m) := by
  refine spanning.survives_whole same inv (steady.map _) fun a s made => ?_
  obtain ⟨t, ends, made⟩ := exists_of_map_ok made
  cases made
  exact books s ends

theorem survives_ofExcept {m : Machine} {work : Except Fault α} (inv : K.inv m)
    (steady : Steady work) : K.Survives (.ofExcept m work) := by
  cases ends : work with
  | ok a => exact spanning.survives_done a inv
  | error f => exact spanning.survives_failed inv (steady f ends)

/-! ### Registering words -/

theorem inv_register {m : Machine} {name : String} {immediate : Bool} {n : Native}
    (inv : K.inv m) (valid : Text.allBlank name.toList = false)
    (free : ∀ d, n.action ≠ .directive d) (host : ∀ f, n.action = .host f → scope.callables f) :
    K.inv (m.register ⟨name, immediate, .native n⟩).2 := by
  have registered : K.inv { m with dictionary := m.dictionary.push ⟨name, immediate, .native n⟩ } :=
    spanning.register inv valid free host
  have books := Store.sameBooks_install ⟨name, immediate, .native n⟩ m.toStore
  exact (spanning.edits registered (Machine.edits_data books)).1

theorem inv_registerConstant {m : Machine} {name : String} (v : Value) (inv : K.inv m)
    (valid : Text.allBlank name.toList = false) : K.inv (m.registerConstant name v).2 := by
  refine spanning.inv_register inv valid (fun d same => ?_) fun f same => ?_
  · cases same
  · cases same

theorem inv_registerCallable {m after : Machine} {name : String} {f : Host.Callable}
    {options : Host.Options} {entry : Nat} (inv : K.inv m)
    (valid : Text.allBlank name.toList = false) (allowed : scope.callables f)
    (h : m.registerCallable name f options = .ok (entry, after)) : K.inv after := by
  obtain ⟨arity, _, made⟩ := exists_of_bind_ok h
  cases made
  refine spanning.inv_register inv valid (fun d same => ?_) fun g same => ?_
  · cases same
  · cases same
    exact allowed

theorem survives_defineNative {m : Machine} {name : Value} {item : Host.Item}
    {options : Host.Options} (inv : K.inv m) (allowed : scope.Allows item) :
    K.Survives (m.defineNative name item options) := by
  unfold Machine.defineNative
  split
  · next f missing =>
    exact spanning.survives_failed inv (Word.steady_checkName m.slots name f missing)
  · next valid named =>
    split
    · exact spanning.survives_failed inv (Value.derails_quoting m.slots _ fun _ => rfl)
    · next f =>
      split
      · next entry after made =>
        exact spanning.survives_done entry (spanning.inv_registerCallable inv
          (Store.checkName_eq_ok named).2 (allowed f rfl) made)
      · next fault missing =>
        exact spanning.survives_failed inv
          (m.steady_registerCallable valid f options fault missing)

theorem survives_defineConstant {m : Machine} {name v : Value} (inv : K.inv m) :
    K.Survives (m.defineConstant name v) := by
  unfold Machine.defineConstant
  split
  · next f missing =>
    exact spanning.survives_failed inv (Word.steady_checkName m.slots name f missing)
  · next valid named =>
    exact spanning.survives_done _
      (spanning.inv_registerConstant v inv (Store.checkName_eq_ok named).2)

theorem survives_importItem {m : Machine} {name : String} {item : Host.Item} (inv : K.inv m)
    (valid : Text.allBlank name.toList = false) (allowed : scope.Allows item) :
    K.Survives (m.importItem name item) := by
  unfold Machine.importItem
  split
  · exact spanning.survives_done _ (spanning.inv_registerConstant _ inv valid)
  · next f =>
    split
    · next entry after made =>
      exact spanning.survives_done _
        (spanning.inv_registerCallable inv valid (allowed f rfl) made)
    · next fault missing =>
      split
      · exact spanning.survives_done _ (spanning.edits inv (m.edits_note ..)).1
      · exact spanning.survives_failed inv (m.steady_registerCallable name f _ fault missing)

theorem survives_importItems {items : List (String × Host.Item)} {m : Machine} (inv : K.inv m)
    (each : ∀ pair ∈ items, Text.allBlank pair.1.toList = false ∧ scope.Allows pair.2) :
    K.Survives (Machine.importItems items m) := by
  induction items generalizing m with
  | nil => exact spanning.survives_done _ inv
  | cons pair rest ih =>
    rw [List.forall_mem_cons] at each
    refine (spanning.survives_importItem inv each.1.1 each.1.2).bind fun _ after _ still => ?_
    exact (ih still each.2).map _

theorem survives_importWords {m : Machine} {items : List (Value × Host.Item)} (inv : K.inv m)
    (each : ∀ pair ∈ items, scope.Allows pair.2) : K.Survives (m.importWords items) := by
  unfold Machine.importWords
  split
  · next f missing => exact spanning.survives_failed inv (m.steady_checkNames items f missing)
  · next named checked =>
    exact spanning.survives_importItems inv (Machine.forall_mem_checkNames each checked)

theorem survives_importObject {m : Machine} {attributes : List (String × Host.Attribute)}
    (inv : K.inv m)
    (each : ∀ own ∈ attributes, ∀ item, own.2 = .item item → scope.Allows item) :
    K.Survives (m.importObject attributes) := by
  unfold Machine.importObject
  split
  · next f unread => exact spanning.survives_failed inv (Host.steady_objectItems _ f unread)
  · next items read =>
    exact spanning.survives_importWords inv (Host.forall_mem_objectItems each read)

/-! ### The console -/

theorem inv_tell {m : Machine} (u : Utterance) (inv : K.inv m) : K.inv (m.tell u) :=
  (spanning.edits inv (m.edits_tell u)).1

theorem inv_recover {m : Machine} (fault : Fault) (inv : K.inv m) :
    K.inv (Console.recover fault m) :=
  spanning.stop (spanning.inv_tell _ inv)

theorem survives_report {m : Machine} (d : Console.Display) (fault : Fault) (inv : K.inv m) :
    K.Survives (Console.report d fault m) := by
  cases shown : d.showsText (Console.reply fault) with
  | true =>
    rw [Console.report_of_shown shown]
    exact spanning.survives_done () (spanning.inv_recover fault inv)
  | false =>
    rw [Console.report_of_not_shown shown]
    exact spanning.survives_failed inv rfl

theorem survives_feed {m : Machine} (d : Console.Display) (line : String) (inv : K.inv m) :
    K.Survives (Console.feed d line m) := by
  have held := spanning.holds_execute spanning.obeys_caller line inv
  unfold Console.feed
  split
  · next after ends =>
    rw [ends] at held
    exact spanning.survives_done () held.1
  · next fault after ends =>
    rw [ends] at held
    exact spanning.survives_report d fault held.1

theorem survives_converse (d : Console.Display) (script : List Console.Input) {m : Machine}
    (inv : K.inv m) : K.Survives (Console.converse d script m) := by
  induction script generalizing m with
  | nil => exact spanning.survives_done () (spanning.inv_tell _ inv)
  | cons input rest ih =>
    have asked := spanning.inv_tell (.prompted (Console.prompt m)) inv
    cases input with
    | interrupt =>
      rw [Console.converse]
      simp only [Console.report_interrupted]
      exact ih (spanning.inv_recover _ asked)
    | line text =>
      rw [Console.converse]
      split
      · exact spanning.survives_done () asked
      · exact (spanning.survives_feed d text asked).bind fun _ _ _ still => ih still

theorem survives_dialogue (d : Console.Display) (script : List Console.Input) {m : Machine}
    (inv : K.inv m) : K.Survives (Console.dialogue d script m) := by
  rw [Console.dialogue_eq]
  exact spanning.survives_converse d script (spanning.inv_tell _ inv)

/-! ### Operations -/

theorem survives_carryOut {m : Machine} {operation : Session.Operation}
    (within : operation.Within scope) (inv : K.inv m) : K.Survives (operation.carryOut m) := by
  have obeys := spanning.obeys_caller
  cases operation with
  | execute source => exact (spanning.holds_execute obeys source inv).survives.map _
  | run tokens => exact (spanning.holds_run obeys tokens inv).survives.map _
  | interpret token => exact (spanning.holds_interpret obeys token inv).survives.map _
  | define name tokens => exact (spanning.holds_run obeys _ inv).survives.map _
  | feed values =>
    refine Survives.map _ ?_
    unfold Session.feed
    split
    · exact spanning.survives_done () inv
    · exact (spanning.holds_run obeys _ inv).survives
  | push values =>
    exact spanning.survives_done _ (spanning.edits inv (m.edits_pushAll values)).1
  | pop count =>
    exact (spanning.survives_whole (Routine.pop_eq count) inv (m.steady_pop count)
      fun _ _ => Store.sameBooks_of_pop).map _
  | gather count =>
    exact (spanning.survives_change (Routine.gather_eq count) inv (m.steady_gather count)
      fun _ => Store.sameBooks_of_gather).map _
  | pluck index =>
    exact (spanning.survives_whole (Routine.pluck_eq index) inv (m.steady_pluck index)
      fun _ _ => Store.sameBooks_of_pluck).map _
  | pick index => exact (spanning.survives_ofExcept inv (m.steady_pick index)).map _
  | peek => exact (spanning.survives_ofExcept inv m.steady_peek).map _
  | depth => exact spanning.survives_done _ inv
  | clear =>
    have cleared := Machine.edits_data (m := m) (s := { m.toStore with stack := .empty })
      ⟨rfl, rfl, rfl, rfl, rfl, rfl, rfl, rfl⟩
    exact spanning.survives_done _ (spanning.edits inv cleared).1
  | swap =>
    exact (spanning.survives_change Routine.swap_eq inv m.steady_swap
      fun _ => Store.sameBooks_of_swap).map _
  | drop =>
    exact (spanning.survives_change Routine.drop_eq inv m.steady_drop
      fun _ => Store.sameBooks_of_drop).map _
  | spread =>
    exact (spanning.survives_change Routine.spread_eq inv m.steady_spread
      fun _ => Store.sameBooks_of_spread).map _
  | here => exact spanning.survives_done _ inv
  | abort => exact spanning.survives_done _ (spanning.stop inv)
  | lookup name =>
    refine Survives.map _ ?_
    unfold Session.lookup
    split
    · exact spanning.survives_ofExcept inv (m.toStore.steady_lookup _)
    · exact spanning.survives_failed inv (Value.derails_quoting m.slots _ fun _ => rfl)
  | executeWord name => exact (spanning.holds_executeWord obeys name inv).survives.map _
  | executeAddress address => exact (spanning.jump within inv).map _
  | defineNative name item options => exact (spanning.survives_defineNative inv within).map _
  | defineConstant name v => exact (spanning.survives_defineConstant inv).map _
  | importMapping pairs =>
    exact (spanning.survives_importWords inv (Host.forall_mem_collect within)).map _
  | importObject attributes =>
    exact (spanning.survives_importObject inv within).map _
  | setCompiling on => exact spanning.survives_done _ (spanning.switch within inv)
  | appendCell items => exact spanning.survives_done _ (spanning.insert within inv)
  | describe => exact spanning.survives_done _ inv
  | converse d script => exact (spanning.survives_dialogue d script inv).map _

theorem survives_perform {m : Machine} {operation : Session.Operation}
    (within : operation.Within scope) (inv : K.inv m) : K.Survives (operation.perform m) := by
  have held := spanning.holds_marking inv (operation.steady_copy m.slots.size)
  unfold Session.Operation.perform
  cases copied : m.marking (operation.copy m.slots.size) with
  | failed f after =>
    rw [copied] at held
    refine ⟨held.1, fun g ended same => ?_⟩
    cases same
    exact held.2.2
  | done own ready =>
    rw [copied] at held
    have stays : own.Within scope := by
      unfold Machine.marking Store.marking at copied
      cases runs : (operation.copy m.slots.size).run m.nextMark with
      | error f =>
        rw [runs] at copied
        cases copied
      | ok result =>
        rw [runs] at copied
        cases copied
        exact Session.Operation.within_copy within runs
    exact spanning.survives_carryOut stays held.1

/-- The invariant holds wherever a session leaves the machine. -/
theorem inv_play {session : List Session.Operation} {m : Machine}
    (within : ∀ operation ∈ session, operation.Within scope) (inv : K.inv m) :
    K.inv (Session.play session m) := by
  unfold Session.play
  induction session generalizing m with
  | nil => exact inv
  | cons operation rest ih =>
    rw [List.forall_mem_cons] at within
    exact ih within.2 (spanning.survives_perform within.1 inv).1

/-- Only faults that are admitted end the operations of a session. -/
theorem admits_of_mem_outcomes {session : List Session.Operation} {m after : Machine} {f : Fault}
    (within : ∀ operation ∈ session, operation.Within scope) (inv : K.inv m)
    (ended : .failed f after ∈ Session.outcomes session m) : K.admits f := by
  induction session generalizing m with
  | nil => cases ended
  | cons operation rest ih =>
    rw [List.forall_mem_cons] at within
    have survived := spanning.survives_perform within.1 inv
    rcases List.mem_cons.mp ended with now | later
    · exact survived.2 f after now.symm
    · exact ih within.2 survived.1 later

/-- A machine that is ready for use has the invariant if the bare machine has. -/
theorem inv_fresh {capacity : Int} {withPrelude verbose : Bool}
    (bare : K.inv (Machine.bare capacity verbose)) :
    K.inv (Machine.fresh capacity withPrelude verbose) := by
  have loaded : K.inv (if withPrelude then
      ((Machine.bare capacity verbose).execute Host.caller Builtin.prelude).machine
      else Machine.bare capacity verbose) := by
    split
    · exact (spanning.holds_execute spanning.obeys_caller Builtin.prelude bare).survives.1
    · exact bare
  exact (spanning.edits loaded (Machine.edits_note ..)).1

end Spanning
end Contract
end ThreadedForth
