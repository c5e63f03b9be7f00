import Mathlib.Data.List.Basic
import ThreadedForth.Proofs.Compilation
import ThreadedForth.Proofs.Turn

/-!
# Factories

A *factory* is a word that makes words.  It is defined by `create store does` and the tokens
of a behavior.  When it is fed with a value and a name, it creates a word of that name, puts
the value into its slot and gives it the behavior.  `Session.factory_correct` says that the
made word does what the tokens of the behavior do to a stack with the cell of the word on
top, and that it still does so after any number of further words have been made.

There are three moments, and one section for each.

* The factory is founded.  Its code is the making, four cells that are the same for all
  factories, and the behavior behind it (`Machine.run_found`).  The behavior is laid as the
  body of a definition is, so `Machine.run_drafting` applies to it.
* The factory makes a word (`Machine.IsFactory.run`).  Only the making is run.
* The word is run, perhaps much later.  Founding and making add code and words and change
  none (`Machine.Furthers.preserves`), so all that the behavior reaches is as it was when the
  factory was founded.

The behavior is then run twice on one machine: from the code, inside a call, and token by
token.  As in `Session.define_preserves` this needs that what the tokens reach is in order.
In `Session.factory_differs_tangled` it is not.  There the tokens reach the end of the code,
where the factory itself is laid afterwards, and running it changes what a token means.
-/

namespace ThreadedForth
namespace Machine

variable {m : Machine}

/-! ## Founding a factory -/

/-- What the five words mean on which a definition of a factory depends. -/
structure KnowsFounding (m : Machine) : Prop where
  define : m.Knows "define" (Builtin.plain "define" .define)
  create : m.Knows "create" (Builtin.plain "create" .create)
  store : m.Knows "store" (Builtin.plain "store" .store)
  does : m.Knows "does" (Builtin.ofDirective "does" .does)
  return_ : m.Knows "return" (Builtin.ofDirective "return" .finish)

/-- A word that is fed in the middle of a definition becomes the cell that it stands for. -/
theorem interpret_drafting (call : Caller) {draft : Draft} {code : Array Cell} {name : String}
    {entry : Nat} {w : Word} (found : m.dictionary.find? name = some entry)
    (known : m.dictionary.get? entry = some w) (open_ : w.immediate = false)
    (different : draft.name ≠ name) :
    (m.drafting draft code).interpret call (.word name) =
      .done () (m.drafting draft (code.push (cellOf entry w))) := by
  rw [interpret, interpretToken]
  exact congrArg (Outcome.onFault _) (interpretName_compiled call different found known open_)

/-- `does` ends the making and begins the behavior, to which nothing before is joined. -/
theorem interpret_does (call : Caller) {draft : Draft} (code : Array Cell)
    (different : draft.name ≠ "does")
    (does : m.Knows "does" (Builtin.ofDirective "does" .does)) :
    (m.drafting draft code).interpret call (.word "does") =
      .done () (drafting { m with code := (code.push (.does (code.size + 2 : Nat))).push .exit }
        draft ((code.push (.does (code.size + 2 : Nat))).push .exit)) := by
  have executed : (m.drafting draft code).interpretName call "does" =
      (m.drafting draft code).callNative call "does" ⟨.directive .does, 0, false⟩ :=
    interpretName_directive call different does
  have size : ((code.push (.does (code.size + 2 : Nat))).push Cell.exit).size = code.size + 2 := by
    simp
  have begun : (m.drafting draft code).callNative call "does" ⟨.directive .does, 0, false⟩ =
      .done () { (m.drafting draft ((code.push (.does (code.size + 2 : Nat))).push .exit)) with
        barrier := code.size + 2 } := callNative_directive call "does" _ rfl
  rw [interpret, interpretToken, executed, begun]
  simp only [drafting, size]
  rfl

/-- The code with which a factory begins: it makes a word, puts a value into its slot, and
gives it the behavior that comes right after. -/
def making (create store : Nat) (behavior : Nat) : List Cell :=
  [.native create, .native store, .does behavior, .exit]

/-- The code of `m` with the beginning of a factory laid behind it. -/
def withMaking (m : Machine) (create store : Nat) : Array Cell :=
  (((m.code.push (.native create)).push (.native store)).push
    (.does (m.code.size + 2 + 2 : Nat))).push .exit

theorem toList_withMaking (m : Machine) (create store : Nat) :
    (m.withMaking create store).toList =
      m.code.toList ++ making create store (m.code.size + 4) := by
  simp [withMaking, making]
  omega

/-- `create store does` begin a factory, and nothing that comes after is joined to them. -/
theorem run_making (call : Caller) {name : String} {create store : Nat}
    (idle : m.compiling = false) (valid : Text.allBlank name.toList = false)
    (others : name ≠ "create" ∧ name ≠ "store" ∧ name ≠ "does")
    (define : m.Knows "define" (Builtin.plain "define" .define))
    (found_create : m.dictionary.find? "create" = some create)
    (known_create : m.dictionary.get? create = some (Builtin.plain "create" .create))
    (found_store : m.dictionary.find? "store" = some store)
    (known_store : m.dictionary.get? store = some (Builtin.plain "store" .store))
    (does : m.Knows "does" (Builtin.ofDirective "does" .does)) :
    m.run call [.batch [.text name], .word "define", .word "create", .word "store",
      .word "does"] = .done () (drafting { m with code := m.withMaking create store }
        ⟨name, m.code.size, false, valid⟩ (m.withMaking create store)) := by
  obtain ⟨other_create, other_store, other_does⟩ := others
  have size : ((m.code.push (.native create)).push (.native store)).size = m.code.size + 2 := by
    simp
  show m.run call ([.batch [.text name], .word "define"] ++ [.word "create", .word "store",
    .word "does"]) = _
  rw [run_append, run_open call idle valid define, Outcome.bind_done, run,
    interpret_drafting call found_create known_create rfl other_create, Outcome.bind_done, run,
    interpret_drafting call found_store known_store rfl other_store, Outcome.bind_done, run,
    interpret_does call _ other_does does, withMaking, ← size]
  rfl

/-- What is there after the definition of a factory: behind the code of `m` there is the
making, and behind it a body that does what the cells of the tokens do. -/
structure Founded (m : Machine) (name : String) (tokens : List Token) (after : Machine) :
    Prop where
  code : ∃ create store body,
    m.dictionary.get? create = some (Builtin.plain "create" .create) ∧
    m.dictionary.get? store = some (Builtin.plain "store" .store) ∧
    after.code.toList =
      m.code.toList ++ making create store (m.code.size + 4) ++ body ++ [.exit] ∧
    (∀ cell ∈ body, cell.IsInner) ∧ ∀ m' enter s, Cell.actAll m' enter body s =
      Cell.actAll m' enter (tokens.filterMap m.cellOf?) s
  capacity : after.capacity = m.capacity
  ip : after.ip = m.ip
  twin : m.toStore.Twin ⟨name, false, .colon m.code.size⟩ after.toStore

/-- The tokens of a factory. -/
def foundingTokens (tokens : List Token) : List Token :=
  .word "create" :: .word "store" :: .word "does" :: tokens

/-- Tokens that stand for cells can be made into the behavior of a factory. -/
theorem run_found (call : Caller) {name : String} {tokens : List Token}
    (idle : m.compiling = false) (valid : Text.allBlank name.toList = false)
    (knows : m.KnowsFounding) (compiled : ∀ token ∈ tokens, (m.cellOf? token).isSome)
    (other : .word name ∉ foundingTokens tokens) (different : name ≠ "return") :
    ∃ after, m.run call (.batch [.text name] :: .word "define" :: foundingTokens tokens ++
      [.word "return"]) = .done () after ∧ m.Founded name tokens after := by
  obtain ⟨create, found_create, known_create⟩ := knows.create
  obtain ⟨store, found_store, known_store⟩ := knows.store
  have others : name ≠ "create" ∧ name ≠ "store" ∧ name ≠ "does" ∧ .word name ∉ tokens := by
    simpa [foundingTokens] using other
  obtain ⟨other_create, other_store, other_does, other⟩ := others
  let draft : Draft := ⟨name, m.code.size, false, valid⟩
  let laid : Array Cell := m.withMaking create store
  have prepared : m.run call [.batch [.text name], .word "define", .word "create", .word "store",
      .word "does"] = .done () (drafting { m with code := laid } draft laid) :=
    run_making call idle valid ⟨other_create, other_store, other_does⟩ knows.define found_create
      known_create found_store known_store knows.does
  -- the behavior is laid behind it, as if its code were that of a definition
  obtain ⟨code, body, ran, behind⟩ := run_drafting call draft (m := { m with code := laid })
    compiled other (laid_nil _)
  obtain ⟨after, finished, grown, capacity, ip, twin⟩ :=
    interpret_return call (m := { m with code := laid }) code draft different idle knows.return_
  have whole : m.run call (.batch [.text name] :: .word "define" :: foundingTokens tokens ++
      [.word "return"]) = .done () after := by
    show m.run call ([.batch [.text name], .word "define", .word "create", .word "store",
      .word "does"] ++ tokens ++ [.word "return"]) = _
    rw [run_append, run_append, prepared, Outcome.bind_done, ran, Outcome.bind_done, run,
      interpret, interpretToken, finished]
    rfl
  refine ⟨after, whole, ⟨create, store, body, known_create, known_store, ?_, behind.inner,
    behind.acts⟩, capacity, ip, twin⟩
  rw [grown, Array.toList_push, behind.code, toList_withMaking]

/-! ## Making a word -/

/-- At the address there is the making of a factory, which gives its words the behavior
`target`. -/
structure Factory (m : Machine) (address : Nat) (target : Int) : Prop where
  create : ∃ entry name immediate, m.code[address]? = some (.native entry) ∧
    m.dictionary.get? entry = some ⟨name, immediate, .native ⟨.primitive .create, 1, false⟩⟩
  store : ∃ entry name immediate, m.code[address + 1]? = some (.native entry) ∧
    m.dictionary.get? entry = some ⟨name, immediate, .native ⟨.primitive .store, 2, false⟩⟩
  does : m.code[address + 2]? = some (.does target)
  exit : m.code[address + 3]? = some .exit

end Machine

/-- The newest word takes a behavior. -/
theorem Dictionary.setBehavior_push_size (d : Dictionary) (w : Word) (behavior : Value) :
    (d.push w).setBehavior d.size behavior = d.push (givenBehavior behavior w) := by
  have each : ∀ entry, ((d.push w).setBehavior d.size behavior).get? entry =
      (d.push (givenBehavior behavior w)).get? entry := by
    intro entry
    rw [get?_setBehavior]
    by_cases last : d.size = entry
    · rw [if_pos last, ← last, get?_push_size, get?_push_size]
      rfl
    · rw [if_neg last]
      simp only [get?, push, size] at *
      rw [Array.getElem?_push, Array.getElem?_push, if_neg (Ne.symm last), if_neg (Ne.symm last)]
  refine Dictionary.ext (Array.ext_getElem? each) ?_
  exact congrArg (rebind · _ _) (name_givenBehavior behavior w).symm

namespace Store

/-- The store with one more created word, whose slot holds a value and which has a
behavior. -/
def addMade (name : String) (v : Value) (target : Int) (s : Store) : Store :=
  { s with
    slots := s.slots.push v
    dictionary := s.dictionary.push ⟨name, false, .created s.slots.size (.int target)⟩
    lastCreated := some s.dictionary.size
    lastDefined := some s.dictionary.size }

end Store

namespace Machine

variable {m : Machine} {s : Store} {address : Nat} {target : Int}

/-- `create` turns a name on top of the stack into a word, and leaves its cell. -/
theorem act_create (m : Machine) (enter : Int → Store → Evaluation) {entry : Nat} {name : String}
    {word : String} {immediate : Bool}
    (known : s.dictionary.get? entry =
      some ⟨word, immediate, .native ⟨.primitive .create, 1, false⟩⟩)
    (valid : Text.allBlank name.toList = false) :
    ∃ notes, (Cell.native entry).act m enter (s.pushAll [.text name]) =
      .done (((s.addCreated name).renoted notes).pushAll [.cell s.slots.size]) := by
  obtain ⟨notes, created⟩ := s.create_eq valid
  refine ⟨notes, ?_⟩
  have taken : (s.pushAll [.text name]).take 1 = ([.text name], s) := s.take_pushAll [.text name]
  have enough : ¬ (s.pushAll [.text name]).stack.depth < 1 := by
    show ¬ 1 + s.stack.depth < 1
    omega
  have known : (s.pushAll [.text name]).dictionary.get? entry = _ := known
  rw [Cell.act_primitive known rfl]
  simp only [callWith, if_neg enough, taken, Primitive.perform_eq, Primitive.apply, created]
  rfl

/-- `store` puts a value into the slot of a cell. -/
theorem act_store (m : Machine) (enter : Int → Store → Evaluation) {entry : Nat} (slot : Nat)
    (v : Value) {word : String} {immediate : Bool}
    (known : s.dictionary.get? entry =
      some ⟨word, immediate, .native ⟨.primitive .store, 2, false⟩⟩) :
    (Cell.native entry).act m enter (s.pushAll [v, .cell slot]) =
      .done { s with slots := s.slots.setIfInBounds slot v } := by
  have taken : (s.pushAll [v, .cell slot]).take 2 = ([v, .cell slot], s) :=
    s.take_pushAll [v, .cell slot]
  have enough : ¬ (s.pushAll [v, .cell slot]).stack.depth < 2 := by
    show ¬ 2 + s.stack.depth < 2
    omega
  have known : (s.pushAll [v, .cell slot]).dictionary.get? entry = _ := known
  rw [Cell.act_primitive known rfl]
  simp only [callWith, if_neg enough, taken, Primitive.perform_eq, Primitive.apply, Store.store]
  rfl

/-- The word that was created last takes its behavior. -/
theorem act_does (m : Machine) (enter : Int → Store → Evaluation) (target : Int) {d : Dictionary}
    {w : Word}
    (last : s.lastCreated = some d.size) (pushed : s.dictionary = d.push w) :
    ∃ notes, (Cell.does target).act m enter s = .done (Store.renoted notes
      { s with dictionary := d.push (Dictionary.givenBehavior (.int target) w) }) := by
  have bound : Dictionary.setBehavior s.dictionary d.size (.int target) =
      d.push (Dictionary.givenBehavior (.int target) w) := by
    rw [pushed, Dictionary.setBehavior_push_size]
  have last : Store.lastCreated { m with toStore := s }.toStore = some d.size := last
  simp only [Cell.act, bindBehavior_of_created last]
  rw [bound]
  rcases noteBehavior_cases ((s.dictionary.get? d.size).elim "" Word.name) (.int target)
    { m with toStore :=
      { s with dictionary := d.push (Dictionary.givenBehavior (.int target) w) } } with
    ⟨text, noted⟩ | noted
  · obtain ⟨notes, same⟩ := Store.note_eq .debug .defining text
      { s with dictionary := d.push (Dictionary.givenBehavior (.int target) w) }
    refine ⟨notes, ?_⟩
    rw [noted]
    exact congrArg Evaluation.done same
  · refine ⟨s.journal, ?_⟩
    rw [noted]
    rfl

/-- The making of a factory turns a value and a name into a word. -/
theorem Factory.eval {v : Value} {name : String} (factory : m.Factory address target)
    (valid : Text.allBlank name.toList = false) (same : s.dictionary = m.dictionary)
    (depth : Nat) :
    ∃ notes, m.eval depth address (s.pushAll [v, .text name]) =
      .done ((s.addMade name v target).renoted notes) := by
  obtain ⟨create, word, immediate, at_create, known⟩ := factory.create
  obtain ⟨store, word', immediate', at_store, known'⟩ := factory.store
  have fetched : ∀ {a : Nat} {cell : Cell} (t : Store), m.code[a]? = some cell →
      fetch a { m with toStore := t } = .ok cell := fun t found => fetch_eq_ok_iff.mpr found
  have native_ne : ∀ entry, Cell.native entry ≠ .exit := by simp
  -- the name becomes a word, and the stack holds the value and its cell
  obtain ⟨notes, created⟩ := act_create m (m.evalCall depth) (s := s.pushAll [v])
    (same ▸ known) valid
  let made : Store := (s.addCreated name).renoted notes
  have created := created.trans
    (congrArg Evaluation.done (made.pushAll_append [v] [.cell s.slots.size]).symm)
  -- the value goes into the slot
  have known_store : made.dictionary.get? store =
      some ⟨word', immediate', .native ⟨.primitive .store, 2, false⟩⟩ := by
    have low := Dictionary.get?_eq_some_iff_lt.mp ⟨_, known'⟩
    show (s.dictionary.push _).get? store = _
    rw [same, Dictionary.get?_push_of_lt _ low]
    exact known'
  have stored := act_store m (m.evalCall depth) s.slots.size v known_store
  have filled : made.slots.setIfInBounds s.slots.size v = s.slots.push v := by
    refine Array.ext_getElem? fun i => ?_
    simp only [made, Store.renoted, Store.addCreated, Array.getElem?_setIfInBounds,
      Array.getElem?_push, Array.size_push]
    split <;> grind
  have begun : m.eval depth address (s.pushAll [v, .text name]) =
      m.eval depth (address + 2 : Nat) { made with slots := s.slots.push v } := by
    rw [show [v, Value.text name] = [v] ++ [Value.text name] from rfl, s.pushAll_append,
      eval_of_cell (fetched _ at_create) (native_ne create), created, Evaluation.bind_done]
    show m.eval depth (address + 1 : Nat) _ = _
    rw [eval_of_cell (fetched _ at_store) (native_ne store)]
    exact congrArg (Evaluation.bind · _) (stored.trans (by rw [filled]))
  -- the word takes its behavior
  have does_ne : Cell.does target ≠ .exit := by simp
  rw [begun, eval_of_cell (fetched _ factory.does) does_ne]
  obtain ⟨notes', bound⟩ :=
    act_does m (m.evalCall depth) target (s := { made with slots := s.slots.push v }) rfl rfl
  refine ⟨notes', ?_⟩
  rw [bound, Evaluation.bind_done]
  exact eval_of_exit (fetched _ factory.exit)

/-- The name means a factory. -/
def IsFactory (m : Machine) (name : String) (target : Int) : Prop :=
  ∃ entry word immediate address, m.dictionary.find? name = some entry ∧
    m.dictionary.get? entry = some ⟨word, immediate, .colon address⟩ ∧ m.Factory address target

/-- The machine `after` is `m` with one more word, which a factory has made. -/
def Made (m : Machine) (name : String) (v : Value) (target : Int) (after : Machine) : Prop :=
  ∃ returns notes, after =
    { m with toStore := (m.toStore.addMade name v target).renoted notes, returns := returns }

theorem interpret_batch_of_idle (call : Caller) (values : List Value) (idle : m.compiling = false) :
    m.interpret call (.batch values) = .done () (m.pushAll values) := by
  unfold interpret interpretToken interpretLiterals
  rw [idle]
  rfl

/-- A colon word that is fed behind values runs its code on them. -/
theorem run_batch_colon (call : Caller) (values : List Value) {word name : String}
    {entry address : Nat} {immediate : Bool} (idle : m.compiling = false)
    (found : m.dictionary.find? word = some entry)
    (known : m.dictionary.get? entry = some ⟨name, immediate, .colon address⟩) :
    m.run call [.batch values, .word word] =
      (((m.pushAll values).executeAddress call (.int address)).onFault abandonIfCompiling).bind
        fun () after => .done () after := by
  have idle_pushed : (m.pushAll values).compiling = false := idle
  have known_pushed : (m.pushAll values).dictionary.get? entry = _ := known
  rw [Machine.run, interpret_batch_of_idle call values idle, Outcome.bind_done, Machine.run,
    interpret, interpretToken, interpretName_of_idle call idle_pushed found known_pushed,
    executeEntry_colon call known_pushed]
  rfl

/-- A factory that is fed with a value and a name makes a word. -/
theorem IsFactory.run (call : Caller) {factory name : String} (v : Value)
    (made : m.IsFactory factory target) (idle : m.compiling = false) (still : m.ip = none)
    (valid : Text.allBlank name.toList = false) :
    ∃ after, m.run call [.batch [v, .text name], .word factory] = .done () after ∧
      m.Made name v target after := by
  obtain ⟨entry, word, immediate, address, found, known, made⟩ := made
  let pushed : Machine := m.pushAll [v, .text name]
  have fed := m.run_batch_colon call [v, .text name] idle found known
  obtain ⟨notes, follows⟩ :=
    executeAddress_follows call address (m.toStore.pushAll [v, .text name]) m.returns still
  have follows : m.Follows (pushed.executeAddress call (.int address))
      (m.eval 0 address ((m.toStore.renoted notes).pushAll [v, .text name])) := follows
  rw [fed]
  obtain ⟨notes', evaluated⟩ := made.eval (s := m.toStore.renoted notes) valid rfl 0
  rw [evaluated] at follows
  obtain ⟨returns, ends⟩ := follows
  rw [ends]
  exact ⟨_, rfl, returns, notes', rfl⟩

/-! ## What is left alone -/

/-- Nothing that there was has changed: there is more code and there are more words, and the
names in `old` mean what they meant. -/
structure Preserves (old : String → Prop) (m after : Machine) : Prop where
  compiling : after.compiling = m.compiling
  ip : after.ip = m.ip
  capacity : after.capacity = m.capacity
  code : ∃ more, after.code = m.code ++ more
  entries : ∀ entry w, m.dictionary.get? entry = some w → after.dictionary.get? entry = some w
  names : ∀ name, old name → after.dictionary.find? name = m.dictionary.find? name

variable {old : String → Prop} {after : Machine}

theorem Preserves.refl (old : String → Prop) (m : Machine) : m.Preserves old m :=
  ⟨rfl, rfl, rfl, ⟨#[], by simp⟩, fun _ _ known => known, fun _ _ => rfl⟩

theorem Preserves.trans {middle : Machine} (first : m.Preserves old middle)
    (second : middle.Preserves old after) : m.Preserves old after where
  compiling := second.compiling.trans first.compiling
  ip := second.ip.trans first.ip
  capacity := second.capacity.trans first.capacity
  code := by
    obtain ⟨more, grown⟩ := first.code
    obtain ⟨more', grown'⟩ := second.code
    exact ⟨more ++ more', by rw [grown', grown, Array.append_assoc]⟩
  entries entry w known := second.entries entry w (first.entries entry w known)
  names name kept := (second.names name kept).trans (first.names name kept)

theorem Preserves.mono {fewer : String → Prop} (kept : m.Preserves old after)
    (within : ∀ name, fewer name → old name) : m.Preserves fewer after :=
  ⟨kept.compiling, kept.ip, kept.capacity, kept.code, kept.entries,
    fun name inside => kept.names name (within name inside)⟩

theorem Preserves.getElem? {a : Nat} {cell : Cell} (kept : m.Preserves old after)
    (known : m.code[a]? = some cell) : after.code[a]? = some cell := by
  obtain ⟨more, grown⟩ := kept.code
  have low : a < m.code.size := (Array.getElem?_eq_some_iff.mp known).1
  rw [grown, Array.getElem?_append_left low]
  exact known

/-- One more word at the end of the dictionary, and perhaps more code. -/
theorem preserves_push {w : Word} (dictionary : after.dictionary = m.dictionary.push w)
    (compiling : after.compiling = m.compiling) (ip : after.ip = m.ip)
    (capacity : after.capacity = m.capacity) (code : ∃ more, after.code = m.code ++ more) :
    m.Preserves (· ≠ w.name) after where
  compiling := compiling
  ip := ip
  capacity := capacity
  code := code
  entries entry v known := by
    rw [dictionary, Dictionary.get?_push_of_lt w (Dictionary.get?_eq_some_iff_lt.mp ⟨v, known⟩)]
    exact known
  names name other := by
    rw [dictionary, Dictionary.find?_push_of_ne _ (Ne.symm other)]

theorem Founded.preserves {name : String} {tokens : List Token}
    (founded : m.Founded name tokens after) : m.Preserves (· ≠ name) after := by
  refine preserves_push founded.twin.dictionary founded.twin.compiling founded.ip
    founded.capacity ?_
  obtain ⟨create, store, body, -, -, laid, -⟩ := founded.code
  refine ⟨(making create store (m.code.size + 4) ++ body ++ [Cell.exit]).toArray, ?_⟩
  refine Array.toList_inj.mp ?_
  rw [laid, Array.toList_append]
  simp

theorem Made.preserves {name : String} {v : Value} (made : m.Made name v target after) :
    m.Preserves (· ≠ name) after := by
  obtain ⟨returns, notes, rfl⟩ := made
  exact preserves_push (m := m) (w := ⟨name, false, .created m.slots.size (.int target)⟩)
    rfl rfl rfl rfl ⟨#[], by simp⟩

/-! ## Histories -/

/-- One step of a history: another factory is founded, or some factory makes a word.  The name
of the new word is none of the names in `old`. -/
inductive Furthers (old : String → Prop) (m : Machine) : Machine → Prop where
  | found {name : String} {tokens : List Token} {after : Machine} (new : ¬ old name)
      (valid : Text.allBlank name.toList = false) (different : name ≠ "return")
      (other : .word name ∉ foundingTokens tokens) (knows : m.KnowsFounding)
      (compiled : ∀ token ∈ tokens, (m.cellOf? token).isSome)
      (ended : Session.define (.text name) (foundingTokens tokens) m = .done () after) :
      Furthers old m after
  | make {name factory : String} {v : Value} {target : Int} {after : Machine} (new : ¬ old name)
      (valid : Text.allBlank name.toList = false) (made : m.IsFactory factory target)
      (ended : Session.run [.batch [v, .text name], .word factory] m = .done () after) :
      Furthers old m after

theorem Furthers.preserves (idle : m.compiling = false) (still : m.ip = none)
    (step : m.Furthers old after) : m.Preserves old after := by
  have others : ∀ {name : String}, ¬ old name → ∀ other, old other → other ≠ name := by
    rintro name new other inside rfl
    exact new inside
  cases step with
  | @found name tokens _ new valid different other knows compiled ended =>
    obtain ⟨after', made, founded⟩ :=
      run_found Host.caller idle valid knows compiled other different
    obtain rfl : after' = after := by
      have same : Outcome.done () after' = Outcome.done () after := made.symm.trans ended
      cases same
      rfl
    exact founded.preserves.mono (others new)
  | @make name factory v target _ new valid made ended =>
    obtain ⟨after', ends, made⟩ := made.run Host.caller v idle still valid
    obtain rfl : after' = after := by
      have same : Outcome.done () after' = Outcome.done () after := ends.symm.trans ended
      cases same
      rfl
    exact made.preserves.mono (others new)

theorem preserves_of_history (idle : m.compiling = false) (still : m.ip = none)
    (history : Relation.ReflTransGen (Furthers old) m after) : m.Preserves old after := by
  induction history with
  | refl => exact .refl old m
  | tail _ step ih =>
    exact ih.trans (step.preserves (ih.compiling.trans idle) (ih.ip.trans still))

/-! ## What the tokens reach stays what it is -/

variable {roots : Nat → Prop}

/-- A reached word is there. -/
theorem InOrder.exists_of_reached {entry : Nat} (inOrder : m.InOrder roots)
    (rooted : ∀ entry, roots entry → ∃ w, m.dictionary.get? entry = some w)
    (reached : m.Reached roots (.entry entry)) : ∃ w, m.dictionary.get? entry = some w := by
  -- the cell that names it fits the dictionary
  have fits : ∀ {address : Int} {cell : Cell}, m.Reached roots (.address address) →
      m.fetch address = .ok cell → cell.Fits m.dictionary := by
    intro address cell within fetched
    obtain ⟨a, cell', rfl, known, fits⟩ := inOrder.cells address within
    rw [fetch_eq_ok_iff.mpr known] at fetched
    cases fetched
    exact fits
  cases reached with
  | root root => exact rooted entry root
  | native within fetched =>
    obtain ⟨name, immediate, n, known, -⟩ := fits within fetched
    exact ⟨_, known⟩
  | created within fetched =>
    obtain ⟨name, immediate, slot, behavior, known⟩ := fits within fetched
    exact ⟨_, known⟩

/-- What is reached afterwards was reached before. -/
theorem Preserves.reached {place : Place} (kept : m.Preserves old after)
    (inOrder : m.InOrder roots) (quiet : m.GivesNothing roots)
    (rooted : ∀ entry, roots entry → ∃ w, m.dictionary.get? entry = some w)
    (reached : after.Reached roots place) : m.Reached roots place := by
  have word : ∀ {entry : Nat} {w : Word}, m.Reached roots (.entry entry) →
      after.dictionary.get? entry = some w → m.dictionary.get? entry = some w := by
    intro entry w within known
    obtain ⟨v, before⟩ := inOrder.exists_of_reached rooted within
    rw [kept.entries entry v before] at known
    cases known
    exact before
  have cell_at : ∀ {address : Int} {cell : Cell}, m.Reached roots (.address address) →
      after.fetch address = .ok cell → m.fetch address = .ok cell := by
    intro address cell within fetched
    obtain ⟨a, cell', rfl, known, -⟩ := inOrder.cells address within
    rw [fetch_eq_ok_iff.mpr (kept.getElem? known)] at fetched
    cases fetched
    exact fetch_eq_ok_iff.mpr known
  induction reached with
  | root root => exact .root root
  | colon _ known body ih => exact .colon ih (word ih known) body
  | behavior _ known body ih => exact .behavior ih (word ih known) body
  | next _ fetched inner ih => exact .next ih (cell_at ih fetched) inner
  | call _ fetched ih => exact .call ih (cell_at ih fetched)
  | native _ fetched ih => exact .native ih (cell_at ih fetched)
  | created _ fetched ih => exact .created ih (cell_at ih fetched)
  | does _ fetched _ _ ih => exact absurd (cell_at ih fetched) (quiet _ _ ih)

theorem Preserves.inOrder (kept : m.Preserves old after) (inOrder : m.InOrder roots)
    (quiet : m.GivesNothing roots)
    (rooted : ∀ entry, roots entry → ∃ w, m.dictionary.get? entry = some w) :
    after.InOrder roots where
  cells address reached := by
    have before := kept.reached inOrder quiet rooted reached
    obtain ⟨a, cell, same, known, fits⟩ := inOrder.cells address before
    refine ⟨a, cell, same, kept.getElem? known, fits.mono fun entry w known => ?_⟩
    exact ⟨w, kept.entries entry w known, .refl w⟩
  entries entry w reached known := by
    have before := kept.reached inOrder quiet rooted reached
    obtain ⟨v, there⟩ := inOrder.exists_of_reached rooted before
    rw [kept.entries entry v there] at known
    cases known
    exact inOrder.entries entry _ before there

theorem Preserves.calculates (kept : m.Preserves old after) (inOrder : m.InOrder roots)
    (quiet : m.GivesNothing roots)
    (rooted : ∀ entry, roots entry → ∃ w, m.dictionary.get? entry = some w)
    (calculates : m.Calculates roots) : after.Calculates roots := by
  intro entry w n reached known body
  have before := kept.reached inOrder quiet rooted reached
  obtain ⟨v, there⟩ := inOrder.exists_of_reached rooted before
  rw [kept.entries entry v there] at known
  cases known
  exact calculates entry _ n before there body

theorem Preserves.givesNothing (kept : m.Preserves old after) (inOrder : m.InOrder roots)
    (quiet : m.GivesNothing roots)
    (rooted : ∀ entry, roots entry → ∃ w, m.dictionary.get? entry = some w) :
    after.GivesNothing roots := by
  intro address target reached fetched
  have before := kept.reached inOrder quiet rooted reached
  obtain ⟨a, cell, rfl, known, -⟩ := inOrder.cells address before
  rw [fetch_eq_ok_iff.mpr (kept.getElem? known)] at fetched
  cases fetched
  exact quiet _ _ before (fetch_eq_ok_iff.mpr known)

/-- The tokens stand for the same cells. -/
theorem Preserves.cellOf? {token : Token} {cell : Cell} (kept : m.Preserves old after)
    (named : ∀ name, token = .word name → old name) (found : m.cellOf? token = some cell) :
    after.cellOf? token = some cell := by
  cases token with
  | word name =>
    obtain ⟨entry, w, meant, known, open_, rfl⟩ := cellOf?_word found
    exact cellOf?_of_find ((kept.names name (named name rfl)).trans meant)
      (kept.entries entry w known) open_
  | _ => exact found

/-! ## Running the word -/

/-- Stores that differ in their journals alone. -/
def UpToNotes (s t : Store) : Prop := t = s.renoted t.journal

/-- Reached code that gives no behavior does the same whatever the journal says. -/
theorem counterpart_upToNotes (quiet : m.GivesNothing roots) :
    m.Counterpart m roots UpToNotes where
  capacity := rfl
  cells _ known := known
  words {s t entry w} same _ known := by
    rw [same]
    exact ⟨w.immediate, known⟩
  literal {s t address values} same _ _ := congrArg (Store.pushAll values) same
  slot {s t entry slot _ _ _} same _ _ := congrArg (Store.pushAll [.cell slot]) same
  calculation {s t entry name immediate n p} same _ _ _ calculation := by
    have data : t = Store.rebooked t s := by
      rw [same]
      rfl
    refine (callPrimitive_rebooked name n calculation { m with toStore := s }
      { m with toStore := t } data).mono ?_
    rintro u v ⟨books, rfl⟩
    refine ⟨books, ?_⟩
    obtain ⟨-, dictionary, compiling, draft, lastDefined, lastCreated, barrier, verbose⟩ := books
    have same : t = s.renoted t.journal := same
    show Store.rebooked t u = u.renoted t.journal
    rw [same]
    simp only [Store.rebooked, Store.renoted] at *
    rw [dictionary, compiling, draft, lastDefined, lastCreated, barrier, verbose]
  behavior _ within fetched := absurd fetched (quiet _ _ within)

theorem indifferent_upToNotes : Indifferent UpToNotes where
  pushes values same := congrArg (Store.pushAll values) same
  notes notes same := by
    rw [UpToNotes, same]
    rfl
  compiling same := by
    rw [same]
    rfl

variable {fac n : String} {tokens : List Token} {founded : Machine} {y : Machine}

/-- The word that a factory has made does, when it is fed, what the cells of the behavior do
to a stack with its cell on top. -/
theorem run_made_follows (call : Caller) {slot : Nat} (came : m.Founded fac tokens founded)
    (kept : founded.Preserves old y) (idle : y.compiling = false) (still : y.ip = none)
    (made : y.Knows n ⟨n, false, .created slot (.int (m.code.size + 4 : Nat))⟩) :
    ∃ notes, y.Follows (y.interpretToken call (.word n))
      (Cell.actAll y (y.evalCall 0) (tokens.filterMap m.cellOf?)
        ((y.toStore.renoted notes).pushAll [.cell slot])) := by
  obtain ⟨entry, found, known⟩ := made
  obtain ⟨create, store, body, -, -, laid, inner, acts⟩ := came.code
  obtain ⟨more, grown⟩ := kept.code
  obtain ⟨notes, follows⟩ := executeAddress_follows call (m.code.size + 4 : Nat)
    (y.toStore.pushAll [.cell slot]) y.returns still
  refine ⟨notes, ?_⟩
  rw [interpretToken, interpretName_of_idle call idle found known, executeEntry_behavior call known]
  have laid : y.code.toList = (m.code.toList ++ making create store (m.code.size + 4)) ++ body ++
      .exit :: more.toList := by
    rw [grown, Array.toList_append, laid]
    simp
  have evaluated := eval_of_body 0 inner (s := (y.toStore.renoted notes).pushAll [.cell slot]) laid
  have start : (m.code.toList ++ making create store (m.code.size + 4)).length =
      m.code.size + 4 := by
    rw [List.length_append, Array.length_toList]
    rfl
  rw [start, acts] at evaluated
  rw [← evaluated]
  exact follows

/-- The word that a factory has made does what the tokens of the behavior do to a stack with
its cell on top, unless the return stack is not deep enough for it. -/
theorem run_made (call : Caller) {slot : Nat} (came : m.Founded fac tokens founded)
    (later : founded.Preserves old y) (kept : m.Preserves (.word · ∈ tokens) y)
    (idle : y.compiling = false) (still : y.ip = none)
    (made : y.Knows n ⟨n, false, .created slot (.int (m.code.size + 4 : Nat))⟩)
    (inOrder : m.InOrder (m.Named tokens)) (calculates : m.Calculates (m.Named tokens))
    (quiet : m.GivesNothing (m.Named tokens))
    (compiled : ∀ token ∈ tokens, (m.cellOf? token).isSome) :
    (∃ ended, y.run call [.word n] = .failed (.full m.capacity) ended) ∨
      (run call tokens (y.pushAll [.cell slot])).SameEffect (y.run call [.word n]) := by
  have rooted : ∀ entry, m.Named tokens entry → ∃ w, m.dictionary.get? entry = some w := by
    rintro entry ⟨name, inside, meant⟩
    obtain ⟨cell, found⟩ := Option.isSome_iff_exists.mp (compiled _ inside)
    obtain ⟨entry', w, meant', known, -⟩ := cellOf?_word found
    rw [meant] at meant'
    cases meant'
    exact ⟨w, known⟩
  -- the tokens stand for what they stood for
  have cells : ∀ token ∈ tokens, y.cellOf? token = m.cellOf? token := by
    intro token inside
    obtain ⟨cell, found⟩ := Option.isSome_iff_exists.mp (compiled token inside)
    rw [found]
    exact kept.cellOf? (fun name same => same ▸ inside) found
  have named : ∀ entry, y.Named tokens entry → m.Named tokens entry := by
    rintro entry ⟨name, inside, meant⟩
    exact ⟨name, inside, (kept.names name inside).symm.trans meant⟩
  obtain ⟨notes, follows⟩ := run_made_follows call came later idle still made
  rw [← List.filterMap_congr cells] at follows
  have matches_ := run_matches call idle still
    (counterpart_upToNotes (kept.givesNothing inOrder quiet rooted)) indifferent_upToNotes
    (kept.inOrder inOrder quiet rooted) (kept.calculates inOrder quiet rooted calculates)
    (fun token inside => by rw [cells token inside]; exact compiled token inside) named y.returns
    (s := y.toStore.pushAll [.cell slot])
    ((Later.refl y _).sameBooks (y.toStore.sameBooks_pushAll [.cell slot]))
    (t := (y.toStore.renoted notes).pushAll [.cell slot]) rfl
  rw [← kept.capacity]
  refine sameEffect_of_matches call (fun s t same => ?_) matches_ follows
  rw [show t = _ from same]
  exact ⟨rfl, rfl, rfl⟩

/-- What was founded is a factory. -/
theorem Founded.isFactory (came : m.Founded fac tokens founded) :
    founded.IsFactory fac (m.code.size + 4 : Nat) := by
  obtain ⟨create, store, body, known_create, known_store, laid, -⟩ := came.code
  have twin := came.twin
  have at_ : ∀ i cell, (making create store (m.code.size + 4))[i]? = some cell →
      founded.code[m.code.size + i]? = some cell := by
    intro i cell inside
    have low : i < (making create store (m.code.size + 4)).length :=
      (List.getElem?_eq_some_iff.mp inside).1
    rw [← Array.getElem?_toList, laid, List.append_assoc, List.append_assoc,
      List.getElem?_append_right (by simp), Array.length_toList, Nat.add_sub_cancel_left,
      List.getElem?_append_left low]
    exact inside
  refine ⟨m.dictionary.size, fac, false, m.code.size, ?_, ?_, ?_⟩
  · rw [twin.dictionary]
    exact m.dictionary.find?_push_self ⟨fac, false, .colon m.code.size⟩
  · rw [twin.dictionary, Dictionary.get?_push_size]
  · exact ⟨⟨create, _, _, at_ 0 _ rfl, twin.get? known_create⟩,
      ⟨store, _, _, at_ 1 _ rfl, twin.get? known_store⟩, at_ 2 _ rfl, at_ 3 _ rfl⟩

theorem IsFactory.preserves (factory : m.IsFactory fac target) (kept : m.Preserves old after)
    (named : old fac) : after.IsFactory fac target := by
  obtain ⟨entry, word, immediate, address, found, known, at_⟩ := factory
  refine ⟨entry, word, immediate, address, (kept.names fac named).trans found,
    kept.entries entry _ known, ?_⟩
  obtain ⟨create, name, marked, at_create, known_create⟩ := at_.create
  obtain ⟨store, name', marked', at_store, known_store⟩ := at_.store
  exact ⟨⟨create, name, marked, kept.getElem? at_create, kept.entries create _ known_create⟩,
    ⟨store, name', marked', kept.getElem? at_store, kept.entries store _ known_store⟩,
    kept.getElem? at_.does, kept.getElem? at_.exit⟩

theorem Knows.preserves {w : Word} (knows : m.Knows n w) (kept : m.Preserves old after)
    (named : old n) : after.Knows n w := by
  obtain ⟨entry, found, known⟩ := knows
  exact ⟨entry, (kept.names n named).trans found, kept.entries entry w known⟩

/-- The name of a made word means it, and its slot holds the value. -/
theorem Made.knows {v : Value} (made : m.Made n v target after) :
    after.Knows n ⟨n, false, .created m.slots.size (.int target)⟩ ∧
      after.slots[m.slots.size]? = some v := by
  obtain ⟨returns, notes, rfl⟩ := made
  refine ⟨⟨m.dictionary.size, ?_, ?_⟩, ?_⟩
  · exact m.dictionary.find?_push_self ⟨n, false, .created m.slots.size (.int target)⟩
  · exact m.dictionary.get?_push_size ⟨n, false, .created m.slots.size (.int target)⟩
  · exact Array.getElem?_push_size

end Machine

/-- The names that no further word may take from a factory, a word it has made and the tokens
of its behavior. -/
def Session.Taken (fac n : String) (tokens : List Token) (name : String) : Prop :=
  name = fac ∨ name = n ∨ .word name ∈ tokens

/-- Factories are correct.  Take a state in which nothing runs and nothing is compiled, and
tokens that are literals or names of words that are not immediate, and that reach no host
callable, no word that begins a definition and no cell that gives a behavior.  Then a
factory with this behavior can be founded, and it makes a word of a value and a name, whose
slot holds the value.  Whatever words are made by factories afterwards, feeding the word has
the same effect as feeding the tokens to a stack with its cell on top, unless the word runs
out of return stack.  That fault is `Fault.full`: it names the capacity of the return stack, and is
the fault of writing a number where the capacity has too many digits to be named.

What the tokens reach has to be in order; it always is when code has been run through words
only and no cells have been handed in. -/
theorem Session.factory_correct {m : Machine} {fac n : String} {v : Value} {tokens : List Token}
    (idle : m.compiling = false) (still : m.ip = none)
    (valid_fac : Text.allBlank fac.toList = false) (valid_n : Text.allBlank n.toList = false)
    (distinct : fac ≠ n) (other_fac : .word fac ∉ Machine.foundingTokens tokens)
    (different : fac ≠ "return") (other_n : .word n ∉ tokens)
    (knows : m.KnowsFounding) (compiled : ∀ token ∈ tokens, (m.cellOf? token).isSome)
    (calculates : m.Calculates (m.Named tokens)) (quiet : m.GivesNothing (m.Named tokens))
    (whole : (∃ session capacity withPrelude verbose,
        m = Session.play session (Machine.fresh capacity withPrelude verbose) ∧
        ∀ operation ∈ session, operation.Within (Session.throughWords fun _ => True)) ∨
      m.InOrder (m.Named tokens)) :
    ∃ founded made slot,
      Session.define (.text fac) (Machine.foundingTokens tokens) m = .done () founded ∧
      Session.run [.batch [v, .text n], .word fac] founded = .done () made ∧
      made.slots[slot]? = some v ∧
      ∀ y, Relation.ReflTransGen (Machine.Furthers (Session.Taken fac n tokens)) made y →
        y.Knows n ⟨n, false, .created slot (.int (m.code.size + 4 : Nat))⟩ ∧
        y.IsFactory fac (m.code.size + 4 : Nat) ∧
        ((∃ ended, Session.run [.word n] y = .failed (.full m.capacity) ended) ∨
          (Session.run tokens (y.pushAll [.cell slot])).SameEffect
            (Session.run [.word n] y)) := by
  have inOrder : m.InOrder (m.Named tokens) := by
    rcases whole with ⟨session, capacity, withPrelude, verbose, reached, within⟩ | inOrder
    · exact Session.inOrder_of_within reached within _
    · exact inOrder
  obtain ⟨founded, defined, came⟩ :=
    Machine.run_found Host.caller idle valid_fac knows compiled other_fac different
  have kept := came.preserves
  have made_founded := came.isFactory
  obtain ⟨made, ran, makes⟩ :=
    made_founded.run Host.caller v (kept.compiling.trans idle) (kept.ip.trans still) valid_n
  have idle_made := makes.preserves.compiling.trans (kept.compiling.trans idle)
  have still_made := makes.preserves.ip.trans (kept.ip.trans still)
  refine ⟨founded, made, founded.slots.size, defined, ran, makes.knows.2, fun y history => ?_⟩
  have along := Machine.preserves_of_history idle_made still_made history
  have knows_n := makes.knows.1.preserves along (.inr (.inl rfl))
  have since : founded.Preserves (fun name => name ≠ n ∧ Session.Taken fac n tokens name) y :=
    (makes.preserves.mono fun _ both => both.1).trans (along.mono fun _ both => both.2)
  have through : m.Preserves (.word · ∈ tokens) y := by
    refine (kept.mono fun name inside => ?_).trans (since.mono fun name inside => ⟨?_, ?_⟩)
    · rintro rfl
      exact other_fac (by simp [Machine.foundingTokens, inside])
    · rintro rfl
      exact other_n inside
    · exact .inr (.inr inside)
  refine ⟨knows_n, made_founded.preserves since ⟨distinct, .inl rfl⟩, ?_⟩
  exact Machine.run_made Host.caller came since through (along.compiling.trans idle_made)
    (along.ip.trans still_made) knows_n inOrder calculates quiet compiled

namespace Session

/-- The machine on which a factory for constants is founded. -/
def bare : Machine := Machine.fresh 16 false false

/-- The behavior of a constant. -/
def loading : List Token := [.word "load"]

/-- From the word `load` one gets nowhere. -/
theorem isCalm_bare : bare.isCalm [14] [] := by decide +kernel

/-- The behavior names this word. -/
theorem named_loading {entry : Nat} (named : bare.Named loading entry) : entry ∈ [14] := by
  obtain ⟨name, inside, meant⟩ := named
  cases List.mem_singleton.mp inside
  cases (meant : some 14 = some entry)
  decide

theorem factory_correct_constant :
    ∃ founded made slot,
      define (.text "constant") (Machine.foundingTokens loading) bare = .done () founded ∧
      run [.batch [.int 42, .text "answer"], .word "constant"] founded = .done () made ∧
      made.slots[slot]? = some (.int 42) ∧
      ∀ y, Relation.ReflTransGen (Machine.Furthers (Taken "constant" "answer" loading)) made y →
        y.Knows "answer" ⟨"answer", false, .created slot (.int (bare.code.size + 4 : Nat))⟩ ∧
        y.IsFactory "constant" (bare.code.size + 4 : Nat) ∧
        ((∃ ended, run [.word "answer"] y = .failed (.returnOverflow 16) ended) ∨
          (run loading (y.pushAll [.cell slot])).SameEffect (run [.word "answer"] y)) := by
  have full : Fault.full bare.capacity = .returnOverflow 16 := Fault.full_of_lt (by decide +kernel)
  rw [← full]
  refine factory_correct rfl rfl (by decide) (by decide) (by decide) (by decide) (by decide)
    (by decide) ⟨⟨8, rfl, rfl⟩, ⟨18, rfl, rfl⟩, ⟨15, rfl, rfl⟩, ⟨19, rfl, rfl⟩, ⟨9, rfl, rfl⟩⟩
    ?_ ?_ ?_ (.inl ⟨[], 16, false, false, rfl, nofun⟩)
  · intro token inside
    cases List.mem_singleton.mp inside
    rfl
  · exact Machine.calculates_of_isCalm isCalm_bare fun _ => named_loading
  · exact Machine.givesNothing_of_isCalm isCalm_bare fun _ => named_loading

/-- A session that gives up a definition and then runs what is left of it by its address.
The word `w` gets a behavior that pushes a name and goes on where the code ends. -/
def tangling : List Operation :=
  [.run [.batch [.text "bad"], .word "define", .word "does", .batch [.text "drop"],
      .word "nosuch"],
    .run [.batch [.text "w"], .word "create", .word "drop"], .executeAddress (.int 0)]

/-- The state in which the session leaves the machine. -/
def tangled : Machine :=
  let left := play (tangling.take 2) (Machine.fresh 16 false false)
  { left with dictionary := left.dictionary.setBehavior 40 (.int 2) }

/-- Tokens that run the word and drop what is on the stack. -/
def running : List Token := [.word "w", .word "drop"]

theorem play_tangling : play tangling (Machine.fresh 16 false false) = tangled := by
  have ended := Machine.executeAddress_of_halt Host.caller 1 0
    (play (tangling.take 2) (Machine.fresh 16 false false)) { tangled with ip := none } rfl
  show (Result.ofSelf (Machine.executeAddress Host.caller (.int 0)
    (play (tangling.take 2) (Machine.fresh 16 false false)))).machine = tangled
  rw [ended]
  rfl

/-- The factory that is founded there. -/
def entangled : Machine := (define (.text "fac") (Machine.foundingTokens running) tangled).machine

/-- A value and a name for the factory. -/
def fed : Machine := entangled.pushAll [.int 5, .text "n"]

/-- The factory has made a word. -/
def knotted : Machine := (Machine.turns 0 3 { fed with ip := some 3 }).machine

theorem define_entangled :
    define (.text "fac") (Machine.foundingTokens running) tangled = .done () entangled := by
  rfl

theorem run_knotted :
    run [.batch [.int 5, .text "n"], .word "fac"] entangled = .done () knotted := by
  have ended := Machine.executeAddress_of_halt Host.caller 3 3 fed knotted rfl
  show Outcome.bind (Outcome.onFault Machine.abandonIfCompiling
    (Machine.executeAddress Host.caller (.int 3) fed)) _ = _
  rw [ended]
  rfl

/-- The machine after a number of turns of a behavior, with the cell of its word on top of
the stack. -/
def behaved (slot : Nat) (target : Int) (count : Nat) (m : Machine) : Machine :=
  { (Machine.turns 0 count { m.pushAll [.cell slot] with ip := some target }).machine with
    ip := m.ip }

/-- The word is there, and its behavior ends after a number of turns. -/
def Behaves (name : String) (entry slot : Nat) (target : Int) (count : Nat) (m : Machine) : Prop :=
  m.compiling = false ∧ m.returns.depth = 0 ∧ m.dictionary.find? name = some entry ∧
    m.dictionary.get? entry = some ⟨name, false, .created slot (.int target)⟩ ∧
    (Machine.turns 0 count { m.pushAll [.cell slot] with ip := some target }).halts

section

variable {m : Machine} {name : String} {entry slot : Nat} {target : Int} {count : Nat}

/-- A word whose behavior ends after a number of turns has been run. -/
theorem Behaves.run (behaves : Behaves name entry slot target count m) :
    Session.run [.word name] m = .done () (behaved slot target count m) := by
  obtain ⟨idle, fresh, found, known, halts⟩ := behaves
  let pushed : Machine := m.pushAll [.cell slot]
  have stale : pushed.discardStale = pushed := by
    have empty : pushed.returns.depth = 0 := fresh
    unfold Machine.discardStale
    rw [empty]
    split
    · next missing => cases missing
    · rfl
  have ended : pushed.executeAddress Host.caller (.int target) =
      .done () (behaved slot target count m) := by
    refine Machine.executeAddress_of_halt Host.caller count target pushed _ ?_
    rw [stale]
    show Machine.turns m.returns.depth count _ = _
    rw [fresh]
    exact Turn.eq_halt_of_halts halts
  show (m.interpret Host.caller (.word name)).bind _ = _
  rw [Machine.interpret, Machine.interpretToken,
    Machine.interpretName_of_idle Host.caller idle found known,
    Machine.executeEntry_behavior Host.caller known, ended]
  rfl

/-- Two such words have been run one after the other. -/
theorem Behaves.run_two {name' : String} {entry' slot' : Nat} {target' : Int} {count' : Nat}
    (first : Behaves name entry slot target count m)
    (second : Behaves name' entry' slot' target' count' (behaved slot target count m)) :
    Session.run [.word name, .word name'] m =
      .done () (behaved slot' target' count' (behaved slot target count m)) := by
  have split_ := Machine.run_append Host.caller [.word name] [.word name'] m
  have ended : m.run Host.caller [.word name] = _ := first.run
  rw [ended, Outcome.bind_done] at split_
  exact split_.trans second.run

end

/-- The made word runs `w` and drops its own cell. -/
theorem run_made_knotted :
    Behaves "n" 42 1 7 7 knotted ∧ (behaved 1 7 7 knotted).stack.depth = 0 := by
  unfold Behaves
  decide +kernel

/-- Fed one by one, `w` makes a word with the name `drop`, and the second token means this
word. -/
theorem run_running_knotted :
    Behaves "w" 40 0 2 4 (knotted.pushAll [.cell 1]) ∧
      Behaves "drop" 43 2 7 7 (behaved 0 2 4 (knotted.pushAll [.cell 1])) ∧
      (behaved 2 7 7 (behaved 0 2 4 (knotted.pushAll [.cell 1]))).stack.depth = 1 := by
  unfold Behaves
  decide +kernel

/-- From the two words one gets to a literal and to the end of the code. -/
theorem isCalm_tangled : tangled.isCalm [1, 40] [2, 3] := by decide +kernel

/-- The tokens name these words. -/
theorem named_running {entry : Nat} (named : tangled.Named running entry) : entry ∈ [1, 40] := by
  obtain ⟨name, inside, meant⟩ := named
  simp only [running, List.mem_cons, Token.word.injEq, List.not_mem_nil, or_false] at inside
  rcases inside with rfl | rfl
  · cases (meant : some 40 = some entry)
    decide
  · cases (meant : some 1 = some entry)
    decide

/-- What the behavior reaches has to be in order.  Here it is not, and the word does not do
what the tokens do. -/
theorem factory_differs_tangled :
    ∃ m, m = play tangling (Machine.fresh 16 false false) ∧ m.compiling = false ∧ m.ip = none ∧
      Text.allBlank "fac".toList = false ∧ Text.allBlank "n".toList = false ∧ "fac" ≠ "n" ∧
      .word "fac" ∉ Machine.foundingTokens running ∧ "fac" ≠ "return" ∧ .word "n" ∉ running ∧
      m.KnowsFounding ∧ (∀ token ∈ running, (m.cellOf? token).isSome) ∧
      m.Calculates (m.Named running) ∧ m.GivesNothing (m.Named running) ∧
      ¬ ∃ founded made slot,
        define (.text "fac") (Machine.foundingTokens running) m = .done () founded ∧
        run [.batch [.int 5, .text "n"], .word "fac"] founded = .done () made ∧
        made.slots[slot]? = some (.int 5) ∧
        ∀ y, Relation.ReflTransGen (Machine.Furthers (Taken "fac" "n" running)) made y →
          y.Knows "n" ⟨"n", false, .created slot (.int (m.code.size + 4 : Nat))⟩ ∧
          y.IsFactory "fac" (m.code.size + 4 : Nat) ∧
          ((∃ ended, run [.word "n"] y = .failed (.full m.capacity) ended) ∨
            (run running (y.pushAll [.cell slot])).SameEffect (run [.word "n"] y)) := by
  refine ⟨tangled, play_tangling.symm, rfl, rfl, by decide, by decide, by decide, by decide,
    by decide, by decide,
    ⟨⟨8, rfl, rfl⟩, ⟨18, rfl, rfl⟩, ⟨15, rfl, rfl⟩, ⟨19, rfl, rfl⟩, ⟨9, rfl, rfl⟩⟩,
    ?_, ?_, ?_, ?_⟩
  · intro token inside
    simp only [running, List.mem_cons, List.not_mem_nil, or_false] at inside
    rcases inside with rfl | rfl <;> rfl
  · exact Machine.calculates_of_isCalm isCalm_tangled fun _ => named_running
  · exact Machine.givesNothing_of_isCalm isCalm_tangled fun _ => named_running
  · rintro ⟨founded, made, slot, defined, ran, -, agreed⟩
    rw [define_entangled] at defined
    cases defined
    rw [run_knotted] at ran
    cases ran
    obtain ⟨knows, -, agreed⟩ := agreed knotted .refl
    obtain ⟨behaves, depth⟩ := run_made_knotted
    obtain ⟨first, second, depth'⟩ := run_running_knotted
    -- the slot is that of the word
    obtain ⟨entry, found, known⟩ := knows
    have ⟨_, _, found', known', _⟩ := behaves
    cases found.symm.trans found'
    cases known.symm.trans known'
    rcases agreed with ⟨ended, overflow⟩ | same
    · rw [behaves.run] at overflow
      cases overflow
    · have ran : run running (knotted.pushAll [.cell 1]) = _ := first.run_two second
      rw [ran, behaves.run] at same
      have same : (behaved 1 7 7 knotted).stack = _ := same.stack
      rw [same, depth'] at depth
      cases depth

end Session
end ThreadedForth
