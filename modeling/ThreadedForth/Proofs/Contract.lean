import ThreadedForth.Proofs.Edit

/-!
# Contracts

Much of what can be said about a machine has one shape.  Something holds in every
state (`Contract.inv`); an operation that succeeds, or that fails, leaves a state that
is related in a known way to the one it began in (`Contract.done`, `Contract.failed`);
and only some faults can occur (`Contract.admits`).

A contract is kept by everything that the machine does as soon as it is kept by a few
things: by every edit, by a run of code that is entered where the dictionary says, and
by those host callables that reach into the execution themselves.  `Contract.Kept` lists
what is asked of edits, and is enough for native words; `Contract.Sustained` adds the runs
and the callables.  The rest of the module follows the machine from there upwards: native
words, entries of the dictionary, tokens, source texts, the scripts of host callables, and
at last the callables themselves (`Sustained.obeys_caller`).

The last step is an induction on how deep callables may nest.  A callable runs words
that call callables, one level below; so whatever runs code here takes the caller along
and asks only that it keeps the contract (`Contract.Obeys`).
-/

namespace ThreadedForth

/-- What the operations of a machine promise. -/
structure Contract where
  /-- What holds before an operation and after it. -/
  inv : Machine → Prop
  /-- How a success leaves the machine, seen from where it began. -/
  done : Machine → Machine → Prop
  /-- How a failure leaves the machine, seen from where it began. -/
  failed : Machine → Machine → Prop
  /-- The faults that may occur. -/
  admits : Fault → Prop

/-- Whether an operation of a script works on the state of the execution itself, and not
through words, or goes on with the state that a failure has left. -/
def Host.Action.isInvasive : Host.Action → Bool
  | .executeAddress _ | .dropReturn | .abort | .handle => true
  | _ => false

/-- The addresses at which the words of the dictionary are entered. -/
inductive Machine.Entrance (m : Machine) : Value → Prop where
  | colon {entry : Nat} {name : String} {immediate : Bool} {address : Nat}
      (known : m.dictionary.get? entry = some ⟨name, immediate, .colon address⟩) :
      Entrance m (.int address)
  | behavior {entry slot : Nat} {name : String} {immediate : Bool} {behavior : Value}
      (known : m.dictionary.get? entry = some ⟨name, immediate, .created slot behavior⟩)
      (given : behavior ≠ .none) : Entrance m behavior

namespace Contract

variable {α β : Type}

/-- The contract is kept by an operation that began in `m` and ended so. -/
def Holds (K : Contract) (m : Machine) : Outcome α → Prop
  | .done _ after => K.inv after ∧ K.done m after
  | .failed f after => K.inv after ∧ K.failed m after ∧ K.admits f

/-- The contract is kept by the callables that have the property `P`. -/
def Obeys (K : Contract) (P : Host.Callable → Prop) (call : Caller) : Prop :=
  ∀ f arguments m, P f → K.inv m → K.Holds m (call f arguments m)

/-- The obligations from which it follows that a contract is kept by the words that run no
code, when the host callables have the property `P`. -/
structure Kept (K : Contract) (P : Host.Callable → Prop) : Prop where
  refl (m : Machine) : K.done m m
  trans {a b c : Machine} : K.done a b → K.done b c → K.done a c
  weaken {a b : Machine} : K.done a b → K.failed a b
  before {a b c : Machine} : K.done a b → K.failed b c → K.failed a c
  after {a b c : Machine} : K.failed a b → K.done b c → K.failed a c
  edit {a b : Machine} : K.inv a → Machine.Edit a b → K.inv b ∧ K.done a b
  calm {f : Fault} : f.derails = false → K.admits f
  /-- The callables in the dictionary have the property. -/
  hosts {m : Machine} {entry : Nat} {w : Word} {n : Native} {f : Host.Callable} :
    K.inv m → m.dictionary.get? entry = some w → w.body = .native n → n.action = .host f → P f
  /-- The code does not end in a cell that spells no instruction. -/
  spelled {m : Machine} {items : List Value} : K.inv m → m.code.back? ≠ some (.foreign items)

/-- The obligations from which it follows that a contract is kept by everything. -/
structure Sustained (K : Contract) (P : Host.Callable → Prop) : Prop extends K.Kept P where
  /-- Code that is entered where the dictionary says keeps the contract. -/
  enter {call : Caller} {m : Machine} {address : Value} : K.Obeys P call → K.inv m →
    m.Entrance address → K.Holds m (m.executeAddress call address)
  /-- What a script raises on purpose is admitted. -/
  raises {f : Host.Callable} {fault : Fault} : P f → .fail fault ∈ f.script → K.admits fault
  /-- The invasive operations of a script keep the contract. -/
  invade {call : Caller} {f : Host.Callable} {action : Host.Action} {m : Machine} :
    K.Obeys P call → P f → action ∈ f.script → action.isInvasive = true → K.inv m →
    K.Holds m (action.perform call m)
  /-- A script may go on with what a failure has left, if it does. -/
  handle {f : Host.Callable} {m after : Machine} : P f → .handle ∈ f.script → K.inv after →
    K.failed m after → K.done m after

namespace Kept

variable {K : Contract} {P : Host.Callable → Prop} (rules : K.Kept P)

include rules

/-! ## Edits and sequences -/

theorem edits {m after : Machine} (inv : K.inv m) (changed : Machine.Edits m after) :
    K.inv after ∧ K.done m after := by
  induction changed with
  | refl => exact ⟨inv, rules.refl m⟩
  | tail _ last ih =>
    obtain ⟨kept, next⟩ := rules.edit ih.1 last
    exact ⟨kept, rules.trans ih.2 next⟩

/-- An operation that amounts to edits keeps the contract, if its faults are admitted. -/
theorem holds_of_edits {m : Machine} {o : Outcome α} (inv : K.inv m)
    (changed : Machine.Edits m o.machine)
    (blame : ∀ f after, o = .failed f after → K.admits f) : K.Holds m o := by
  obtain ⟨kept, related⟩ := rules.edits inv changed
  cases o with
  | done a after => exact ⟨kept, related⟩
  | failed f after => exact ⟨kept, rules.weaken related, blame f after rfl⟩

theorem holds_done {m : Machine} (a : α) (inv : K.inv m) : K.Holds m (.done a m) :=
  ⟨inv, rules.refl m⟩

theorem holds_failed {m : Machine} {f : Fault} (inv : K.inv m) (calm : f.derails = false) :
    K.Holds m (.failed f m : Outcome α) :=
  ⟨inv, rules.weaken (rules.refl m), rules.calm calm⟩

/-- What begins after edits is seen from where they began. -/
theorem holds_after_edits {m middle : Machine} {o : Outcome α} (inv : K.inv m)
    (changed : Machine.Edits m middle) (rest : K.inv middle → K.Holds middle o) :
    K.Holds m o := by
  obtain ⟨kept, related⟩ := rules.edits inv changed
  have held := rest kept
  cases o with
  | done a after => exact ⟨held.1, rules.trans related held.2⟩
  | failed f after => exact ⟨held.1, rules.before related held.2.1, held.2.2⟩

theorem holds_bind {m : Machine} {o : Outcome α} {next : α → Machine → Outcome β}
    (first : K.Holds m o)
    (second : ∀ a middle, o = .done a middle → K.inv middle → K.Holds middle (next a middle)) :
    K.Holds m (o.bind next) := by
  cases o with
  | failed f after => exact first
  | done a middle =>
    have held := second a middle rfl first.1
    rw [Outcome.bind_done]
    cases ends : next a middle with
    | done b after =>
      rw [ends] at held
      exact ⟨held.1, rules.trans first.2 held.2⟩
    | failed f after =>
      rw [ends] at held
      exact ⟨held.1, rules.before first.2 held.2.1, held.2.2⟩

/-- A change after a failure that amounts to edits keeps the contract. -/
theorem holds_onFault {m : Machine} {o : Outcome α} {change : Machine → Machine}
    (first : K.Holds m o) (changed : ∀ after, Machine.Edits after (change after)) :
    K.Holds m (o.onFault change) := by
  cases o with
  | done a after => exact first
  | failed f after =>
    simp only [Outcome.onFault]
    split
    · exact first
    · obtain ⟨kept, related⟩ := rules.edits first.1 (changed after)
      exact ⟨kept, rules.after first.2.1 related, first.2.2⟩

theorem holds_marking {m : Machine} {work : Value.Marking α} (inv : K.inv m)
    (steady : SteadyMarking work) : K.Holds m (m.marking work) := by
  refine rules.holds_of_edits inv (m.edits_marking work) fun f after fails => ?_
  unfold Machine.marking Outcome.ofStore at fails
  split at fails
  · cases fails
  · next g missing =>
    cases fails
    unfold Store.marking at missing
    refine rules.calm (Steady.bind (steady m.nextMark) (fun result _ => ?_) f missing)
    exact .ok _

/-! ## Native words -/

theorem holds_primitive (p : Primitive) (arguments : List Value) {m : Machine}
    (inv : K.inv m) : K.Holds m (p.perform arguments m) := by
  refine rules.holds_of_edits inv (p.edits_perform arguments m) fun f after fails => ?_
  rw [Primitive.perform_eq] at fails
  unfold Outcome.ofStore at fails
  split at fails
  · cases fails
  · next g missing =>
    cases fails
    exact rules.calm (Primitive.steady_apply m.here p arguments m.toStore f missing)

/-- Joining literals to the last cell does not fail where that cell spells an
instruction. -/
theorem steady_joinedLiterals {m : Machine} (values : List Value) (inv : K.inv m) :
    Steady (m.joinedLiterals values) := by
  unfold Machine.joinedLiterals
  split
  · next cell last =>
    split
    · cases cell with
      | foreign items => exact absurd last (rules.spelled inv)
      | _ => exact .ok _
    · exact .ok _
  · exact .ok _

theorem steady_directive {m : Machine} (d : Directive) (arguments : List Value)
    (inv : K.inv m) : Steady (d.apply arguments m) := by
  have required := fun word => m.steady_requireCompiling word
  unfold Directive.apply
  split
  · refine .bind (required "return") fun _ _ => ?_
    split <;> exact .ok _
  · unfold Machine.markImmediate
    split
    · exact .ok _
    · exact .ok _
    · exact .error rfl
  · exact .bind (required "exit") fun _ _ => .ok _
  · refine .bind (required "literal") fun _ _ => ?_
    exact .bind (rules.steady_joinedLiterals _ inv) fun _ _ => .ok _
  · exact .bind (required "does") fun _ _ => .ok _
  · exact .error rfl

theorem holds_directive (d : Directive) (arguments : List Value) {m : Machine}
    (inv : K.inv m) : K.Holds m (d.perform arguments m) := by
  refine rules.holds_of_edits inv (d.edits_perform arguments m) fun f after fails => ?_
  rw [Directive.perform_eq] at fails
  split at fails
  · cases fails
  · next g missing =>
    cases fails
    exact rules.calm (rules.steady_directive d arguments inv f missing)

/-- The calling convention keeps the contract if the action does. -/
theorem holds_callWith {m : Machine} {perform : List Value → Machine → Outcome Value}
    (name : String) (n : Native) (inv : K.inv m)
    (action : ∀ arguments start, K.inv start → K.Holds start (perform arguments start)) :
    K.Holds m (m.callWith name n perform) := by
  unfold Machine.callWith
  split
  · exact rules.holds_failed inv (Fault.derails_short _ _ _)
  · have taken := Machine.edits_data (m.toStore.sameBooks_take n.arity)
    refine rules.holds_bind (rules.holds_after_edits inv taken fun kept => ?_) ?_
    · refine rules.holds_onFault (action _ _ kept) fun after => ?_
      exact after.edits_pushAll _
    · intro result after _ kept
      refine rules.holds_of_edits kept (after.edits_pushResult n result) fun f ended fails => ?_
      cases fails

variable {call : Caller} (obeys : K.Obeys P call)

include obeys

theorem holds_callNative {m : Machine} (name : String) {n : Native} (inv : K.inv m)
    (host : ∀ f, n.action = .host f → P f) : K.Holds m (m.callNative call name n) := by
  refine rules.holds_callWith name n inv fun arguments start kept => ?_
  cases kind : n.action with
  | primitive p => exact rules.holds_primitive p arguments kept
  | directive d => exact rules.holds_directive d arguments kept
  | host f => exact obeys f arguments start (host f kind) kept

end Kept

namespace Sustained

variable {K : Contract} {P : Host.Callable → Prop} (sustained : K.Sustained P)
  {call : Caller} (obeys : K.Obeys P call)

include sustained obeys

/-! ## Entries and tokens -/

theorem holds_executeEntry {m : Machine} {entry : Nat} {w : Word} (inv : K.inv m)
    (known : m.dictionary.get? entry = some w) : K.Holds m (m.executeEntry call entry) := by
  unfold Machine.executeEntry
  obtain ⟨name, immediate, body⟩ := w
  rw [known]
  cases body with
  | native n =>
    exact sustained.holds_callNative obeys name inv fun f host =>
      sustained.hosts inv known rfl host
  | colon address => exact sustained.enter obeys inv (.colon known)
  | created slot behavior =>
    refine sustained.holds_after_edits inv (m.edits_pushAll [.cell slot]) fun kept => ?_
    simp only
    split
    · exact sustained.holds_done () kept
    · next given => exact sustained.enter obeys kept (.behavior known given)

theorem holds_executeWord {m : Machine} (name : String) (inv : K.inv m) :
    K.Holds m (m.executeWord call name) := by
  unfold Machine.executeWord
  split
  · next entry found =>
    obtain ⟨w, known, _⟩ := Machine.exists_get?_of_lookup found
    exact sustained.holds_executeEntry obeys inv known
  · next f missing =>
    exact sustained.holds_failed inv (Store.steady_lookup name m.toStore f missing)

omit obeys in
theorem holds_interpretLiterals {m : Machine} (values : List Value) (inv : K.inv m) :
    K.Holds m (m.interpretLiterals values) := by
  refine sustained.holds_of_edits inv (m.edits_interpretLiterals values) fun f after fails => ?_
  unfold Machine.interpretLiterals at fails
  split at fails
  · split at fails
    · cases fails
    · next g missing =>
      cases fails
      exact sustained.calm (sustained.steady_joinedLiterals values inv f missing)
  · cases fails

theorem holds_interpretName {m : Machine} (name : String) (inv : K.inv m) :
    K.Holds m (m.interpretName call name) := by
  unfold Machine.interpretName
  split
  · next address own =>
    refine sustained.holds_of_edits inv (.single (Machine.edit_append_own own)) ?_
    intro f after fails
    cases fails
  · split
    · next f missing =>
      exact sustained.holds_failed inv (Store.steady_lookup name m.toStore f missing)
    · next entry found =>
      obtain ⟨w, known, _⟩ := Machine.exists_get?_of_lookup found
      simp only [known]
      split
      · next compiled =>
        rw [Bool.and_eq_true, Bool.not_eq_true'] at compiled
        refine sustained.holds_of_edits inv (.single (.append compiled.1 (.entry known compiled.2)))
          fun f after fails => ?_
        cases fails
      · exact sustained.holds_executeEntry obeys inv known

theorem holds_interpret {m : Machine} (token : Token) (inv : K.inv m) :
    K.Holds m (m.interpret call token) := by
  refine sustained.holds_onFault ?_ Machine.edits_abandonIfCompiling
  cases token with
  | word name => exact sustained.holds_interpretName obeys name inv
  | datum v => exact sustained.holds_interpretLiterals [v] inv
  | batch values => exact sustained.holds_interpretLiterals values inv
  | malformed content => exact sustained.holds_failed inv rfl

theorem holds_run (tokens : List Token) {m : Machine} (inv : K.inv m) :
    K.Holds m (m.run call tokens) := by
  induction tokens generalizing m with
  | nil => exact sustained.holds_done () inv
  | cons token rest ih =>
    exact sustained.holds_bind (sustained.holds_interpret obeys token inv) fun _ _ _ kept => ih kept

theorem holds_execute {m : Machine} (source : String) (inv : K.inv m) :
    K.Holds m (m.execute call source) := by
  unfold Machine.execute
  split
  · next tokens _ => exact sustained.holds_run obeys tokens inv
  · next f missing =>
    exact sustained.holds_failed inv (Token.steady_tokenize source f missing)

/-! ## Host callables -/

theorem holds_action {m : Machine} {f : Host.Callable} {action : Host.Action} (tame : P f)
    (inside : action ∈ f.script) (inv : K.inv m) : K.Holds m (action.perform call m) := by
  cases action with
  | push values =>
    refine sustained.holds_bind (sustained.holds_marking inv (Value.steady_copyAll _ values)) ?_
    intro own ready _ kept
    refine sustained.holds_of_edits kept (ready.edits_pushAll own) fun f after fails => ?_
    cases fails
  | run tokens =>
    refine sustained.holds_bind (sustained.holds_marking inv
      (SteadyMarking.mapM (Token.steady_copy _) tokens)) ?_
    intro own ready _ kept
    exact sustained.holds_run obeys own kept
  | execute source => exact sustained.holds_execute obeys source inv
  | executeWord name => exact sustained.holds_executeWord obeys name inv
  | fail fault =>
    exact ⟨inv, sustained.weaken (sustained.refl m), sustained.raises tame inside⟩
  | demand text =>
    rcases Host.Action.demand_cases call text m with same | same
    · rw [same]
      exact sustained.holds_done () inv
    · rw [same]
      exact sustained.holds_failed inv rfl
  | executeAddress address => exact sustained.invade obeys tame inside rfl inv
  | dropReturn => exact sustained.invade obeys tame inside rfl inv
  | abort => exact sustained.invade obeys tame inside rfl inv
  | handle => exact sustained.holds_done () inv

/-- A script that has kept the contract so far keeps it further on. -/
theorem holds_resumeScript {f : Host.Callable} (tame : P f) {m : Machine}
    {script : List Host.Action} {o : Outcome Unit} (inside : ∀ action ∈ script, action ∈ f.script)
    (held : K.Holds m o) : K.Holds m (Host.resumeScript call script o) := by
  fun_induction Host.resumeScript call script o with
  | case1 o => exact held
  | case2 action rest middle ih =>
    rw [List.forall_mem_cons] at inside
    refine ih inside.2 ?_
    exact sustained.holds_bind held fun _ _ _ kept =>
      sustained.holds_action obeys tame inside.1 kept
  | case3 action rest fault middle ih =>
    rw [List.forall_mem_cons] at inside
    refine ih inside.2 ?_
    by_cases handled : action.handles fault = true
    · rw [if_pos handled]
      rw [Host.Action.handle_of_handles handled] at inside
      exact ⟨held.1, sustained.handle tame inside.1 held.1 held.2.1⟩
    · rw [if_neg handled]
      exact held

theorem holds_runScript {f : Host.Callable} (tame : P f) {m : Machine}
    (script : List Host.Action) (inside : ∀ action ∈ script, action ∈ f.script) (inv : K.inv m) :
    K.Holds m (Host.runScript call script m) :=
  sustained.holds_resumeScript obeys tame inside (sustained.holds_done () inv)

omit obeys in
/-- Callables keep the contract, nested to any depth. -/
theorem obeys_callHost : ∀ depth : Nat, K.Obeys P (Host.callHost depth)
  | 0 => fun _ _ _ _ inv => sustained.holds_failed inv rfl
  | depth + 1 => by
    intro f arguments m tame inv
    unfold Host.callHost
    split
    · next fault missing =>
      exact sustained.holds_failed inv (Host.Signature.steady_bind _ f.signature fault missing)
    · refine sustained.holds_bind (sustained.holds_runScript (obeys_callHost depth) tame f.script
        (fun _ inside => inside) inv) fun _ after _ kept => ?_
      exact sustained.holds_marking kept (Host.Answer.steady_evaluate arguments after f.answer)

omit obeys in
theorem obeys_caller : K.Obeys P Host.caller := sustained.obeys_callHost Host.maxDepth

end Sustained
end Contract
end ThreadedForth
