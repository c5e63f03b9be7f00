import ThreadedForth.Proofs.Reach

/-!
# Reached code on two machines

Code refers to nothing but what it reaches.  So when two machines agree on what some words
of the first one reach, these words should do the same on both.  This module says when they
agree, and proves that they do.

The stores of the two machines are compared by a relation `R`.  Which one it is depends on
what has happened between the machines: a word may have been defined, or words may have been
created, or nothing at all.  `Machine.Counterpart` lists what is asked of it.  Each demand is
about a single step of reached code, namely that related stores are left related, and that
an operation which fails on one of them fails on the other one with the same fault.

The second machine may run the code inside further calls.  The code can then run out of
return stack where it does not on the first machine, and this is the only difference that
the depth makes (`Machine.Compared`).

* `Machine.act_compared`: one cell;
* `Machine.eval_compared`: a body, by the recursion of its evaluation;
* `Machine.evalCall_compared`: a call on the second machine of what is run by itself on the
  first one.
-/

namespace ThreadedForth
namespace Machine

variable {m m' : Machine} {roots : Nat → Prop} {R : Store → Store → Prop} {deeper : Prop}
  {s t : Store}

/-- What the second machine has in common with the first one, as far as the code reaches
that starts at `roots`. -/
structure Counterpart (m m' : Machine) (roots : Nat → Prop) (R : Store → Store → Prop) :
    Prop where
  capacity : m'.capacity = m.capacity
  cells {a : Nat} {cell : Cell} : m.Reached roots (.address a) → m.code[a]? = some cell →
    m'.code[a]? = some cell
  words {s t : Store} {entry : Nat} {w : Word} : R s t → m.Reached roots (.entry entry) →
    s.dictionary.get? entry = some w →
    ∃ marked, t.dictionary.get? entry = some { w with immediate := marked }
  literal {s t : Store} {address : Int} {values : List Value} : R s t →
    m.Reached roots (.address address) → m.fetch address = .ok (.literal values) →
    R (s.pushAll values) (t.pushAll values)
  slot {s t : Store} {entry slot : Nat} {name : String} {immediate : Bool} {behavior : Value} :
    R s t → m.Reached roots (.entry entry) →
    m.dictionary.get? entry = some ⟨name, immediate, .created slot behavior⟩ →
    R (s.pushAll [.cell slot]) (t.pushAll [.cell slot])
  calculation {s t : Store} {entry : Nat} {name : String} {immediate : Bool} {n : Native}
    {p : Primitive} : R s t → m.Reached roots (.entry entry) →
    m.dictionary.get? entry = some ⟨name, immediate, .native n⟩ → n.action = .primitive p →
    p.IsCalculation →
    Outcome.Alongside { m with toStore := s } { m' with toStore := t }
      (fun u v => s.SameBooks u ∧ R u v)
      (callWith name n p.perform { m with toStore := s })
      (callWith name n p.perform { m' with toStore := t })
  behavior {s t : Store} {address target : Int} : R s t → m.Reached roots (.address address) →
    m.fetch address = .ok (.does target) →
    Outcome.Alongside { m with toStore := s } { m' with toStore := t }
      (fun u v => Given target s u ∧ R u v)
      (bindBehavior (.int target) { m with toStore := s })
      (bindBehavior (.int target) { m' with toStore := t })

/-- How two evaluations compare: both succeed and leave related stores, or both fail alike
and leave related stores, or the second one runs out of return stack because it is
deeper. -/
inductive Compared (m : Machine) (roots : Nat → Prop) (R : Store → Store → Prop)
    (deeper : Prop) : Evaluation → Evaluation → Prop where
  | overflow {e : Evaluation} {t : Store} (below : deeper) :
      Compared m roots R deeper e (.failed (.full m.capacity) t)
  | done {s t : Store} (later : m.Later roots s) (related : R s t) :
      Compared m roots R deeper (.done s) (.done t)
  | failed {f : Fault} {s t : Store} (later : m.Later roots s) (related : R s t) :
      Compared m roots R deeper (.failed f s) (.failed f t)

theorem Compared.bind {e e' : Evaluation} {next next' : Store → Evaluation}
    (first : m.Compared roots R deeper e e')
    (second : ∀ s t, m.Later roots s → R s t →
      m.Compared roots R deeper (next s) (next' t)) :
    m.Compared roots R deeper (e.bind next) (e'.bind next') := by
  cases first with
  | overflow below => exact .overflow below
  | done later related => exact second _ _ later related
  | failed later related => exact .failed later related

theorem Compared.mono {further : Prop} {e e' : Evaluation} (weaker : deeper → further)
    (compared : m.Compared roots R deeper e e') : m.Compared roots R further e e' := by
  cases compared with
  | overflow below => exact .overflow (weaker below)
  | done later related => exact .done later related
  | failed later related => exact .failed later related

/-- Operations that end in the same way give evaluations that compare. -/
theorem Compared.of_alongside {P : Store → Store → Prop} {o o' : Outcome Unit}
    (ends : Outcome.Alongside { m with toStore := s } { m' with toStore := t } P o o')
    (later : ∀ u v, P u v → m.Later roots u) (related : ∀ u v, P u v → R u v) :
    m.Compared roots R deeper (.ofOutcome o) (.ofOutcome o') := by
  cases ends with
  | done left => exact .done (later _ _ left) (related _ _ left)
  | failed left => exact .failed (later _ _ left) (related _ _ left)

/-- A covered cell does the same on both machines, if code that is entered does, and if what
it does to the store by itself keeps the relation. -/
theorem act_compared {enter enter' : Int → Store → Evaluation} {cell : Cell}
    (common : m.Counterpart m' roots R)
    (entered : ∀ target s t, m.Reached roots (.address target) → m.Later roots s → R s t →
      m.Compared roots R deeper (enter target s) (enter' target t))
    (covered : cell.Covered m roots) (later : m.Later roots s) (related : R s t)
    (pushes : ∀ values, cell = .literal values → R (s.pushAll values) (t.pushAll values))
    (gives : ∀ target, cell = .does target →
      Outcome.Alongside { m with toStore := s } { m' with toStore := t }
        (fun u v => Given target s u ∧ R u v)
        (bindBehavior (.int target) { m with toStore := s })
        (bindBehavior (.int target) { m' with toStore := t })) :
    m.Compared roots R deeper (cell.act m enter s) (cell.act m' enter' t) := by
  cases cell with
  | native entry =>
    obtain ⟨reached, name, immediate, n, p, known, kind, calculation⟩ := covered
    have here := later.native reached known
    obtain ⟨marked, there⟩ := common.words related reached here
    rw [Cell.act_primitive here kind, Cell.act_primitive there kind]
    refine .of_alongside (common.calculation related reached known kind calculation) ?_ ?_
    · exact fun u v left => later.sameBooks left.1
    · exact fun u v left => left.2
  | literal values =>
    exact .done (later.sameBooks (s.sameBooks_pushAll values)) (pushes values rfl)
  | call target name => exact entered target s t covered later related
  | created entry =>
    obtain ⟨reached, name, immediate, slot, behavior, known, proper⟩ := covered
    have pushed := later.sameBooks (s.sameBooks_pushAll [.cell slot])
    have slots := common.slot related reached known
    rcases later.created reached known proper with here | ⟨target, within, here⟩
    · obtain ⟨marked, there⟩ := common.words related reached here
      rw [Cell.act_created here, Cell.act_created there]
      exact .done pushed slots
    · obtain ⟨marked, there⟩ := common.words related reached here
      rw [Cell.act_behavior here, Cell.act_behavior there]
      exact entered target _ _ within pushed slots
  | does target =>
    refine .of_alongside (gives target rfl) ?_ ?_
    · rintro u v ⟨rfl | ⟨entry, created, books⟩, -⟩
      · exact later
      · exact later.setBehavior (covered entry (later.lastCreated.symm.trans created)) books
    · exact fun u v left => left.2
  | exit => exact .done later related
  | foreign items => exact covered.elim

/-- At a reached address that is in order there is the same cell on both machines. -/
theorem Counterpart.fetch {address : Int} (common : m.Counterpart m' roots R)
    (inOrder : m.InOrder roots) (reached : m.Reached roots (.address address)) :
    ∃ cell, ∀ s t, Machine.fetch address { m with toStore := s } = .ok cell ∧
      Machine.fetch address { m' with toStore := t } = .ok cell := by
  obtain ⟨a, cell, rfl, known, -⟩ := inOrder.cells address reached
  refine ⟨cell, fun s t => ⟨fetch_eq_ok_iff.mpr known, fetch_eq_ok_iff.mpr ?_⟩⟩
  exact common.cells reached known

/-- Reached code does the same on both machines, some levels deeper on the second one. -/
theorem eval_compared {depth : Nat} {address : Int} (common : m.Counterpart m' roots R)
    (inOrder : m.InOrder roots) (calculates : m.Calculates roots) (levels : Nat) :
    ∀ {t : Store}, m.Reached roots (.address address) → m.Later roots s → R s t →
    m.Compared roots R (0 < levels) (m.eval depth address s)
      (m'.eval (depth + levels) address t) := by
  induction depth, address, s using eval.induct m with
  | case1 depth address s f missing =>
    intro t reached
    obtain ⟨cell, found⟩ := common.fetch inOrder reached
    rw [(found s t).1] at missing
    cases missing
  | case2 depth address s fetched =>
    intro t reached later related
    obtain ⟨cell, found⟩ := common.fetch inOrder reached
    obtain rfl : cell = .exit := Except.ok.inj ((found s t).1.symm.trans fetched)
    rw [eval_of_exit fetched, eval_of_exit (found s t).2]
    exact .done later related
  | case3 depth address s cell inner fetched callee next =>
    intro t reached later related
    obtain ⟨other, found⟩ := common.fetch inOrder reached
    obtain rfl : other = cell := Except.ok.inj ((found s t).1.symm.trans fetched)
    have here : m.fetch address = .ok other := (found m.toStore t).1
    rw [eval_of_cell fetched inner, eval_of_cell (found s t).2 inner]
    have acted : m.Compared roots R (0 < levels) (other.act m (m.evalCall depth) s)
        (other.act m' (m'.evalCall (depth + levels)) t) := by
      refine act_compared common (fun target u v within later related => ?_)
        (inOrder.covered_of_fetch calculates reached here) later related ?_ ?_
      · -- a call may fail to fit on the second machine alone, but then it is deeper
        unfold evalCall
        rw [common.capacity]
        by_cases full : m.capacity ≤ (depth + levels : Nat)
        · rw [if_pos full]
          by_cases level : levels = 0
          · rw [if_pos (by omega)]
            exact .failed later related
          · exact .overflow (Nat.pos_of_ne_zero level)
        · have shifted := callee target u (by omega) (t := v) within later related
          rw [Nat.add_right_comm] at shifted
          rw [if_neg full, if_neg (by omega)]
          exact shifted
      · rintro values rfl
        exact common.literal related reached here
      · rintro target rfl
        exact common.behavior related reached here
    exact acted.bind fun u v later related => next u (.next reached here inner) later related

/-- A call of reached code does what the code does by itself, one level deeper. -/
theorem evalCall_compared {target : Int} (common : m.Counterpart m' roots R)
    (inOrder : m.InOrder roots) (calculates : m.Calculates roots)
    (reached : m.Reached roots (.address target)) (later : m.Later roots s) (related : R s t) :
    m.Compared roots R True (m.eval 0 target s) (m'.evalCall 0 target t) := by
  unfold evalCall
  split
  · rw [common.capacity]
    exact .overflow trivial
  · exact (eval_compared common inOrder calculates 1 reached later related).mono fun _ => trivial

end Machine
end ThreadedForth
