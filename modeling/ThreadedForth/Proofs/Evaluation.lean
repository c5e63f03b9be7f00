import ThreadedForth.Proofs.Plain

/-!
# Structured evaluation

The loop keeps its calls as bare integers on the return stack, and tells by comparing
depths whether an exit goes back or ends the run.  Here is the same execution in
structured form.  `Machine.eval` does what the cells of a body say, one after the other; a
call is a recursive evaluation of its target, one level deeper; and an exit is where the
recursion returns.  It works on the store alone, and knows how many calls are open but
not from where.

The recursion ends because a call goes one level deeper and there are only as many levels
as the capacity allows, and because within a body the address only goes up.

`Machine.loop_refines` says that the loop does the same.  Between the two stands the
return stack: the evaluation that a call begins is done exactly when the loop is back at
the address that the call has noted (`Machine.Refined`).
-/

namespace ThreadedForth

/-- How an evaluation ends. -/
inductive Evaluation where
  | done (s : Store)
  | failed (f : Fault) (s : Store)
  /-- There is a cell that is not evaluated here: a native action that is no primitive, or
  something that compiled code never holds. -/
  | stuck

namespace Evaluation

/-- Goes on after success. -/
def bind (e : Evaluation) (next : Store → Evaluation) : Evaluation :=
  match e with
  | done s => next s
  | failed f s => failed f s
  | stuck => stuck

/-- What an operation has done to the store. -/
def ofOutcome : Outcome Unit → Evaluation
  | .done () m => done m.toStore
  | .failed f m => failed f m.toStore

@[simp] theorem bind_done (s : Store) (next : Store → Evaluation) :
    (done s).bind next = next s := rfl

@[simp] theorem bind_failed (f : Fault) (s : Store) (next : Store → Evaluation) :
    (failed f s).bind next = failed f s := rfl

@[simp] theorem bind_stuck (next : Store → Evaluation) : stuck.bind next = stuck := rfl

end Evaluation

/-- Does what a cell of the code of `m` says, if code is entered by `enter`. -/
def Cell.act (m : Machine) (enter : Int → Store → Evaluation) (s : Store) : Cell → Evaluation
  | .native entry =>
    match s.dictionary.get? entry with
    | some ⟨name, _, .native n⟩ =>
      match n.action with
      | .primitive p =>
        .ofOutcome (Machine.callWith name n p.perform { m with toStore := s })
      | _ => .stuck
    | _ => .stuck
  | .literal values => .done (s.pushAll values)
  | .call target _ => enter target s
  | .created entry =>
    match s.dictionary.get? entry with
    | some ⟨_, _, .created slot .none⟩ => .done (s.pushAll [.cell slot])
    | some ⟨_, _, .created slot (.int target)⟩ => enter target (s.pushAll [.cell slot])
    | _ => .stuck
  | .does target => .ofOutcome (Machine.bindBehavior (.int target) { m with toStore := s })
  | .exit => .done s
  | .foreign _ => .stuck

namespace Cell

variable {m : Machine} {enter : Int → Store → Evaluation} {s : Store} {entry slot : Nat}
  {name : String} {immediate : Bool}

theorem act_primitive {n : Native} {p : Primitive}
    (known : s.dictionary.get? entry = some ⟨name, immediate, .native n⟩)
    (kind : n.action = .primitive p) :
    (native entry).act m enter s =
      .ofOutcome (Machine.callWith name n p.perform { m with toStore := s }) := by
  simp only [act, known, kind]

theorem act_created
    (known : s.dictionary.get? entry = some ⟨name, immediate, .created slot .none⟩) :
    (created entry).act m enter s = .done (s.pushAll [.cell slot]) := by
  simp only [act, known]

theorem act_behavior {target : Int}
    (known : s.dictionary.get? entry = some ⟨name, immediate, .created slot (.int target)⟩) :
    (created entry).act m enter s = enter target (s.pushAll [.cell slot]) := by
  simp only [act, known]

end Cell

namespace Machine

/-- Evaluates the code of `m` from an address to the exit of its body, with `depth` open
calls around it. -/
def eval (m : Machine) (depth : Nat) (address : Int) (s : Store) : Evaluation :=
  match fetched : fetch address { m with toStore := s } with
  | .error f => .failed f s
  | .ok .exit => .done s
  | .ok cell =>
    (cell.act m (fun target s =>
      if full : m.capacity ≤ depth then .failed (.full m.capacity) s
      else eval m (depth + 1) target s) s).bind fun after => eval m depth (address + 1) after
termination_by (m.capacity.toNat - depth, (m.code.size - address).toNat)
decreasing_by
  · exact Prod.Lex.left _ _ (by omega)
  · have bounds := bounds_of_fetch fetched
    exact Prod.Lex.right _ (by simp only at bounds; omega)

/-- The evaluation that a call begins when `depth` calls are open already. -/
def evalCall (m : Machine) (depth : Nat) (target : Int) (s : Store) : Evaluation :=
  if m.capacity ≤ depth then .failed (.full m.capacity) s
  else m.eval (depth + 1) target s

variable {m : Machine} {depth : Nat} {address : Int} {s : Store}

theorem eval_of_error {f : Fault} (missing : fetch address { m with toStore := s } = .error f) :
    m.eval depth address s = .failed f s := by
  rw [eval]
  split <;> simp_all

theorem eval_of_exit (fetched : fetch address { m with toStore := s } = .ok .exit) :
    m.eval depth address s = .done s := by
  rw [eval]
  split <;> simp_all

/-- A cell that is no exit is done, and then the rest of the body. -/
theorem eval_of_cell {cell : Cell} (fetched : fetch address { m with toStore := s } = .ok cell)
    (inner : cell ≠ .exit) :
    m.eval depth address s =
      (cell.act m (m.evalCall depth) s).bind (m.eval depth (address + 1)) := by
  rw [eval]
  split
  · simp_all
  · simp_all
  · next other fetched' =>
    rw [fetched] at fetched'
    cases fetched'
    rfl

/-! ## What stands around the store -/

/-- A primitive that is called looks at the store and the size of the code alone, and
changes the store alone. -/
theorem callPrimitive_congr (name : String) (n : Native) (p : Primitive) (m m' : Machine)
    (store : m'.toStore = m.toStore) (size : m'.code.size = m.code.size) :
    (∃ t, m.callWith name n p.perform = .done () { m with toStore := t } ∧
      m'.callWith name n p.perform = .done () { m' with toStore := t }) ∨
    ∃ f t, m.callWith name n p.perform = .failed f { m with toStore := t } ∧
      m'.callWith name n p.perform = .failed f { m' with toStore := t } := by
  unfold callWith
  simp only [Primitive.perform_eq, here]
  rw [store]
  by_cases short : m.stack.depth < n.arity
  · rw [if_pos short, if_pos short]
    exact .inr ⟨_, m.toStore, rfl, store ▸ rfl⟩
  · rw [if_neg short, if_neg short]
    simp only [size]
    generalize p.apply m.code.size (m.toStore.take n.arity).1 (m.toStore.take n.arity).2 = result
    cases result with
    | ok made =>
      obtain ⟨v, t⟩ := made
      simp only [Outcome.ofStore, Outcome.onFault, Outcome.bind_done, pushResult]
      by_cases pushed : v ≠ .none ∨ n.pushesNone
      · exact .inl ⟨t.pushAll [v], by rw [if_pos pushed]; rfl, by rw [if_pos pushed]; rfl⟩
      · exact .inl ⟨t, by rw [if_neg pushed], by rw [if_neg pushed]⟩
    | error f =>
      simp only [Outcome.ofStore, Outcome.onFault, Outcome.bind_failed]
      by_cases interrupt : f.isInterrupt
      · exact .inr ⟨f, _, by rw [if_pos interrupt], by rw [if_pos interrupt]⟩
      · exact .inr ⟨f, _, by rw [if_neg interrupt]; rfl, by rw [if_neg interrupt]; rfl⟩

/-- Giving a behavior looks at the store alone, and changes the store alone. -/
theorem bindBehavior_congr (target : Int) (m m' : Machine) (store : m'.toStore = m.toStore) :
    (∃ t, m.bindBehavior (.int target) = .done () { m with toStore := t } ∧
      m'.bindBehavior (.int target) = .done () { m' with toStore := t }) ∨
    ∃ f t, m.bindBehavior (.int target) = .failed f { m with toStore := t } ∧
      m'.bindBehavior (.int target) = .failed f { m' with toStore := t } := by
  unfold bindBehavior noteBehavior
  rw [store]
  cases m.lastCreated with
  | none => exact .inr ⟨_, m.toStore, rfl, store ▸ rfl⟩
  | some entry =>
    simp only
    split
    · cases Value.Template.wholeText (.int target) with
      | ok text => exact .inl ⟨_, rfl, rfl⟩
      | error f => exact .inl ⟨_, rfl, rfl⟩
    · exact .inl ⟨_, rfl, rfl⟩

/-! ## The loop refines evaluation -/

/-- The machine `m` in the middle of a run, with another store. -/
def running (m : Machine) (s : Store) (returns : Stack Int) (address : Int) : Machine :=
  { m with toStore := s, returns := returns, ip := some address }

/-- A run of the machine `m` ends as an evaluation says.  When the evaluation is done the
body is left: the run is over if no call is open beyond its base, and goes back to the
return address on top otherwise. -/
def Refined (m : Machine) (call : Caller) (base credit : Nat) (returns : Stack Int)
    (o : Outcome Unit) : Evaluation → Prop
  | .done t =>
    (returns.depth = base →
      o = .done () { m with toStore := t, returns := returns, ip := none }) ∧
    ∀ back rest, returns.items = back :: rest.items → base ≤ rest.depth →
      o = (m.running t rest back).loop call base credit
  | .failed f t => ∃ after, o = .failed f after ∧ after.toStore = t
  | .stuck => True

section Refined

variable {call : Caller} {base credit : Nat}

theorem turn_of_missing {f : Fault} (at_ : m.ip = some address)
    (missing : m.fetch address = .error f) : m.turn base = .fault f m := by
  unfold turn
  rw [at_]
  simp only [missing]

theorem turn_of_fetched {cell : Cell} (at_ : m.ip = some address)
    (fetched : m.fetch address = .ok cell) :
    m.turn base = step base (address + 1) (m.moved (address + 1)) cell := by
  unfold turn
  rw [at_]
  simp only [fetched]
  rfl

theorem stepNative_primitive {entry : Nat} {name : String} {immediate : Bool} {n : Native}
    {p : Primitive} (known : m.dictionary.get? entry = some ⟨name, immediate, .native n⟩)
    (kind : n.action = .primitive p) :
    m.stepNative entry = .ofOutcome (m.callWith name n p.perform) := by
  simp only [stepNative, known, kind]

theorem stepCreated_bare {entry slot : Nat} {name : String} {immediate : Bool} {resume : Int}
    (known : m.dictionary.get? entry = some ⟨name, immediate, .created slot .none⟩) :
    m.stepCreated entry resume = .next (m.pushAll [.cell slot]) := by
  simp only [stepCreated, known]

theorem stepCreated_behavior {entry slot : Nat} {name : String} {immediate : Bool}
    {target resume : Int}
    (known : m.dictionary.get? entry = some ⟨name, immediate, .created slot (.int target)⟩) :
    m.stepCreated entry resume = (m.pushAll [.cell slot]).nest (.int target) resume := by
  simp only [stepCreated, known]

/-- The exit of a run that has no call open ends it. -/
theorem stepExit_of_level (level : m.returns.depth = base) :
    m.stepExit base = .halt { m with ip := none } := by
  unfold stepExit
  have depth := m.returns.depth_eq
  split
  · next r rest popped =>
    have waits : m.returns.items = r :: rest.items := Stack.pop?_eq_some_iff.mp popped
    rw [waits, List.length_cons, ← rest.depth_eq] at depth
    rw [if_neg (by omega), if_pos (by omega)]
  · next popped =>
    have empty : m.returns.items = [] := Stack.pop?_eq_none_iff.mp popped
    rw [empty, List.length_nil] at depth
    rw [if_pos (by omega)]

/-- At an exit a body is left. -/
theorem refined_exit {returns : Stack Int}
    (fetched : fetch address { m with toStore := s } = .ok .exit) :
    m.Refined call base credit returns ((m.running s returns address).loop call base credit)
      (.done s) := by
  have turned : (m.running s returns address).turn base =
      stepExit base (m.running s returns (address + 1)) :=
    turn_of_fetched (m := m.running s returns address) rfl fetched
  refine ⟨fun level => ?_, fun back rest waits above => ?_⟩
  · have halts : stepExit base (m.running s returns (address + 1)) =
        .halt { m with toStore := s, returns := returns, ip := none } := stepExit_of_level level
    exact loop_of_halt call (turned.trans halts)
  · have popped : (m.running s returns (address + 1)).returns.pop? = some (back, rest) :=
      Stack.pop?_eq_some_iff.mpr waits
    have goes : stepExit base (m.running s returns (address + 1)) =
        .next (m.running s rest back) := by
      unfold stepExit
      rw [popped]
      exact if_pos above
    exact loop_of_next call (turned.trans goes)

/-- What a call does is what the evaluation of its target does, and the run goes on where
the call has come from. -/
theorem refined_call {returns : Stack Int} {target : Int}
    {next : Store → Evaluation} (deep : base ≤ returns.depth)
    (called : m.Refined call base credit (returns.push (address + 1))
      ((m.running s (returns.push (address + 1)) target).loop call base credit)
      (m.eval (returns.depth + 1) target s))
    (further : ∀ t, m.Refined call base credit returns
      ((m.running t returns (address + 1)).loop call base credit) (next t)) :
    m.Refined call base credit returns
      ((m.running s (returns.push (address + 1)) target).loop call base credit)
      ((m.eval (returns.depth + 1) target s).bind next) := by
  cases ends : m.eval (returns.depth + 1) target s with
  | stuck => trivial
  | failed f t =>
    rw [ends] at called
    exact called
  | done t =>
    rw [ends] at called
    rw [called.2 (address + 1) returns rfl deep]
    exact further t

/-- A run does what the evaluation of its code does. -/
theorem loop_refines : ∀ {returns : Stack Int}, returns.depth = depth → base ≤ depth →
    m.Refined call base credit returns ((m.running s returns address).loop call base credit)
      (m.eval depth address s) := by
  induction depth, address, s using eval.induct m with
  | case1 depth address s f missing =>
    intro returns level deep
    rw [eval_of_error missing]
    have turned : (m.running s returns address).turn base =
        .fault f (m.running s returns address) :=
      turn_of_missing (m := m.running s returns address) rfl missing
    exact ⟨_, loop_of_fault call turned, rfl⟩
  | case2 depth address s fetched =>
    intro returns level deep
    rw [eval_of_exit fetched]
    exact refined_exit fetched
  | case3 depth address s cell inner fetched callee next =>
    intro returns level deep
    subst level
    have turned : (m.running s returns address).turn base =
        step base (address + 1) (m.running s returns (address + 1)) cell :=
      turn_of_fetched (m := m.running s returns address) rfl fetched
    -- what is left is to go on after this cell, with the store that it leaves
    have further : ∀ t,
        (m.running s returns address).turn base = .next (m.running t returns (address + 1)) →
        m.Refined call base credit returns
          ((m.running s returns address).loop call base credit)
          (m.eval returns.depth (address + 1) t) := by
      intro t goes
      rw [loop_of_next call goes]
      exact next t rfl deep
    -- a call that fits is the evaluation of its target
    have entered : ∀ target t,
        (m.running s returns address).turn base =
          nest (.int target) (address + 1) (m.running t returns (address + 1)) →
        m.Refined call base credit returns
          ((m.running s returns address).loop call base credit)
          ((m.evalCall returns.depth target t).bind (m.eval returns.depth (address + 1))) := by
      intro target t turned
      rw [nest_int] at turned
      unfold evalCall
      by_cases full : m.capacity ≤ returns.depth
      · have fault := turned.trans (if_pos full)
        rw [if_pos full]
        exact ⟨_, loop_of_fault call fault, rfl⟩
      · have goes := turned.trans (if_neg full)
        rw [if_neg full, loop_of_next call goes]
        exact refined_call deep (callee target t full rfl (by omega)) fun u => next u rfl deep
    -- an operation on the store is what it is in the middle of a run
    have operated : ∀ {o o' : Outcome Unit},
        ((∃ t, o = .done () { m with toStore := t } ∧
          o' = .done () (m.running t returns (address + 1))) ∨
        ∃ f t, o = .failed f { m with toStore := t } ∧
          o' = .failed f (m.running t returns (address + 1))) →
        (m.running s returns address).turn base = .ofOutcome o' →
        m.Refined call base credit returns
          ((m.running s returns address).loop call base credit)
          ((Evaluation.ofOutcome o).bind (m.eval returns.depth (address + 1))) := by
      rintro o o' (⟨t, rfl, rfl⟩ | ⟨f, t, rfl, rfl⟩) turned
      · exact further t turned
      · exact ⟨_, loop_of_fault call turned, rfl⟩
    rw [eval_of_cell fetched inner]
    cases cell with
    | literal values => exact further _ turned
    | call target name => exact entered target s turned
    | exit => exact absurd rfl inner
    | foreign items => trivial
    | does target =>
      exact operated (bindBehavior_congr target { m with toStore := s }
        (m.running s returns (address + 1)) rfl) turned
    | native entry =>
      simp only [Cell.act]
      split
      · next name immediate n known =>
        split
        · next p kind =>
          exact operated (callPrimitive_congr name n p { m with toStore := s }
            (m.running s returns (address + 1)) rfl rfl)
            (turned.trans (stepNative_primitive known kind))
        · trivial
      · trivial
    | created entry =>
      simp only [Cell.act]
      split
      · next slot known => exact further _ (turned.trans (stepCreated_bare known))
      · next slot target known => exact entered target _ (turned.trans (stepCreated_behavior known))
      · trivial

end Refined

/-! ## Plain code stays plain -/

section Plain

variable {P : Host.Callable → Prop} {after : Store}

/-- What an operation has done to the store is seen in the machine it leaves. -/
theorem toStore_of_ofOutcome {o : Outcome Unit} (h : .ofOutcome o = Evaluation.done after) :
    o.machine.toStore = after := by
  cases o with
  | done a ended =>
    cases h
    rfl
  | failed f ended => cases h

theorem Plain.act {enter : Int → Store → Evaluation} {cell : Cell}
    (plain : Plain P { m with toStore := s })
    (entered : ∀ target t t', Plain P { m with toStore := t } → enter target t = .done t' →
      Plain P { m with toStore := t' })
    (h : cell.act m enter s = .done after) : Plain P { m with toStore := after } := by
  have data : ∀ values, Plain P { m with toStore := s.pushAll values } :=
    fun values => plain.congr rfl rfl
  cases cell with
  | native entry =>
    simp only [Cell.act] at h
    split at h
    · next name immediate n known =>
      split at h
      · next p kind =>
        have called := plain.edits (edits_callPrimitive name n p { m with toStore := s })
        rw [← toStore_of_ofOutcome h]
        have framed := frame_callWith name n p { m with toStore := s }
        exact called.congr (congrArg Frame.code framed).symm rfl
      · cases h
    · cases h
  | literal values =>
    cases h
    exact data values
  | call target name => exact entered target s after plain h
  | created entry =>
    simp only [Cell.act] at h
    split at h
    · cases h
      exact data _
    · exact entered _ _ after (data _) h
    · cases h
  | does target =>
    have bound := plain.bindBehavior target
    rw [← toStore_of_ofOutcome h]
    have framed := frame_bindBehavior (.int target) { m with toStore := s }
    exact bound.congr (congrArg Frame.code framed).symm rfl
  | exit =>
    cases h
    exact plain
  | foreign items => cases h

theorem Plain.eval : ∀ {after : Store}, Plain P { m with toStore := s } →
    m.eval depth address s = .done after → Plain P { m with toStore := after } := by
  induction depth, address, s using eval.induct m with
  | case1 depth address s f missing =>
    intro after plain ends
    rw [eval_of_error missing] at ends
    cases ends
  | case2 depth address s fetched =>
    intro after plain ends
    rw [eval_of_exit fetched] at ends
    cases ends
    exact plain
  | case3 depth address s cell inner fetched callee next =>
    intro after plain ends
    rw [eval_of_cell fetched inner] at ends
    cases acted : cell.act m (m.evalCall depth) s with
    | failed f t =>
      rw [acted] at ends
      cases ends
    | stuck =>
      rw [acted] at ends
      cases ends
    | done t =>
      rw [acted, Evaluation.bind_done] at ends
      refine next t (plain.act (fun target u u' plain called => ?_) acted) ends
      unfold evalCall at called
      split at called
      · cases called
      · next room => exact callee target u room plain called

theorem Plain.evalCall {target : Int} (plain : Plain P { m with toStore := s })
    (h : m.evalCall depth target s = .done after) : Plain P { m with toStore := after } := by
  unfold Machine.evalCall at h
  split at h
  · cases h
  · exact plain.eval h

end Plain

/-! ## Without host callables -/

theorem Plain.act_ne_stuck {P : Host.Callable → Prop} {enter : Int → Store → Evaluation}
    {cell : Cell} (hostless : ∀ f, ¬ P f) (plain : Plain P { m with toStore := s })
    (fetched : fetch address { m with toStore := s } = .ok cell)
    (entered : ∀ target t, Plain P { m with toStore := t } → enter target t ≠ .stuck) :
    cell.act m enter s ≠ .stuck := by
  have answered : ∀ o : Outcome Unit, Evaluation.ofOutcome o ≠ .stuck := by
    intro o
    cases o with
    | done a after => exact nofun
    | failed f after => exact nofun
  have pushed : ∀ slot, Plain P { m with toStore := s.pushAll [.cell slot] } :=
    fun slot => plain.congr rfl rfl
  cases cell with
  | native entry =>
    obtain ⟨name, immediate, n, known, free⟩ := plain.fits_of_fetch fetched
    cases kind : n.action with
    | primitive p =>
      rw [Cell.act_primitive known kind]
      exact answered _
    | directive d => exact absurd kind (free d)
    | host f => exact absurd ((plain.entries entry _ known).2 f kind) (hostless f)
  | literal values => exact nofun
  | call target name => exact entered target s plain
  | created entry =>
    obtain ⟨name, immediate, slot, behavior, known⟩ := plain.fits_of_fetch fetched
    rcases plain.entries entry _ known with rfl | ⟨target, rfl⟩
    · rw [Cell.act_created known]
      exact nofun
    · rw [Cell.act_behavior known]
      exact entered target _ (pushed slot)
  | does target => exact answered _
  | exit => exact nofun
  | foreign items => exact (plain.fits_of_fetch fetched).elim

/-- Without host callables every evaluation comes to an end of its own. -/
theorem Plain.eval_ne_stuck {P : Host.Callable → Prop} (hostless : ∀ f, ¬ P f) :
    Plain P { m with toStore := s } → m.eval depth address s ≠ .stuck := by
  induction depth, address, s using eval.induct m with
  | case1 depth address s f missing =>
    intro plain
    rw [eval_of_error missing]
    exact nofun
  | case2 depth address s fetched =>
    intro plain
    rw [eval_of_exit fetched]
    exact nofun
  | case3 depth address s cell inner fetched callee next =>
    intro plain
    rw [eval_of_cell fetched inner]
    have acted : cell.act m (m.evalCall depth) s ≠ .stuck := by
      refine plain.act_ne_stuck hostless fetched fun target t plain => ?_
      unfold Machine.evalCall
      split
      · exact nofun
      · next room => exact callee target t room plain
    cases ends : cell.act m (m.evalCall depth) s with
    | stuck => exact absurd ends acted
    | failed f t => exact nofun
    | done t => exact next t (plain.act (fun _ _ _ => Plain.evalCall) ends)

end Machine

/-- In a state that a session without host callables has reached, the loop does what
structured evaluation does, from whatever address it starts and whatever is on the return
stack: it succeeds with the same store and leaves the return stack as it was, or it fails
with the same fault and the same store. -/
theorem Session.loop_eq_eval {session : List Session.Operation} {capacity : Int}
    {withPrelude verbose : Bool}
    (within : ∀ operation ∈ session,
      operation.Within (Session.registering fun _ => False)) (call : Caller) (credit : Nat)
    (address : Int) (returns : Stack Int) {m : Machine}
    (reached : m = Session.play session (Machine.fresh capacity withPrelude verbose)) :
    (∃ s, m.eval returns.depth address m.toStore = .done s ∧
      Machine.loop call returns.depth credit { m with returns := returns, ip := some address } =
        .done () { m with toStore := s, returns := returns, ip := none }) ∨
    ∃ f s after, m.eval returns.depth address m.toStore = .failed f s ∧
      Machine.loop call returns.depth credit { m with returns := returns, ip := some address } =
        .failed f after ∧ after.toStore = s := by
  have spanning := Contract.plain_spanning (Session.registering fun _ => False) id
  have plain : m.Plain fun _ => False := by
    rw [reached]
    exact spanning.inv_play within (spanning.inv_fresh (Machine.plain_bare capacity verbose))
  have refined : m.Refined call returns.depth credit returns
      ((m.running m.toStore returns address).loop call returns.depth credit)
      (m.eval returns.depth address m.toStore) :=
    Machine.loop_refines rfl (Nat.le_refl _)
  cases ends : m.eval returns.depth address m.toStore with
  | stuck => exact absurd ends (Machine.Plain.eval_ne_stuck (fun _ => id) plain)
  | done s =>
    rw [ends] at refined
    exact .inl ⟨s, rfl, refined.1 rfl⟩
  | failed f s =>
    rw [ends] at refined
    obtain ⟨after, failed, same⟩ := refined
    exact .inr ⟨f, s, after, rfl, failed, same⟩

/-- A session that defines a word and another one that calls it twice. -/
def Session.doubling : List Session.Operation :=
  [.define (.text "pair") [.datum (.int 1), .datum (.int 2)],
    .define (.text "quad") [.word "pair", .word "pair"]]

theorem Session.loop_eq_eval_doubling :
    (∀ operation ∈ Session.doubling,
      operation.Within (Session.registering fun _ => False)) ∧
    ∃ m, m = Session.play Session.doubling (Machine.fresh 16 false false) ∧
      m.fetch 2 = .ok (.call 0 "pair") ∧
      ((∃ s, m.eval 1 2 m.toStore = .done s ∧
        Machine.loop Host.caller 1 9 { m with returns := Stack.empty.push 7, ip := some 2 } =
          .done () { m with toStore := s, returns := Stack.empty.push 7, ip := none }) ∨
      ∃ f s after, m.eval 1 2 m.toStore = .failed f s ∧
        Machine.loop Host.caller 1 9 { m with returns := Stack.empty.push 7, ip := some 2 } =
          .failed f after ∧ after.toStore = s) := by
  have within : ∀ operation ∈ Session.doubling,
      operation.Within (Session.registering fun _ => False) := by
    intro operation inside
    simp only [Session.doubling, List.mem_cons, List.not_mem_nil, or_false] at inside
    rcases inside with rfl | rfl
    · trivial
    · trivial
  refine ⟨within, _, rfl, ?_, ?_⟩
  · rfl
  · exact Session.loop_eq_eval within Host.caller 9 2 (Stack.empty.push 7) rfl

end ThreadedForth
