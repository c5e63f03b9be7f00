import Mathlib.Data.Int.Interval
import Mathlib.Data.Set.Finite.Basic
import Mathlib.Order.WellFounded
import ThreadedForth.Proofs.Layout

/-!
# How deep calls may nest

Code that only pushes literals, calls and exits does the same every time, and whether it fits on
the return stack can be told beforehand.  Put the bodies that it calls in the place of the calls,
and theirs in the place of their calls; if this comes to an end there is an `Expansion`, a tree
in which a call has the called body as a branch.  Its `depth` is the number of calls that are
open inside each other at most, and its `values` are the literals in the order in which they are
met.

The expansion is not part of the code.  What is in the code is which body calls which
(`Machine.Calls`), and the expansion of a body exists exactly if all bodies that are reached by
calls are straight down to an exit and none of them is reached from itself
(`Machine.layered_iff`).  There are only finitely many addresses, so calls that never come back
to the same body cannot go on for ever.

A run needs `depth` places on the return stack and not one more.  Calls that stand side by side
use the same places, one after the other, since the return stack is at each exit what it was at
the call; so the induction is on the expansion, with any number of calls open around it.

* `Machine.Expands.loop_of_fits`: a body that fits runs to its exit;
* `Machine.Expands.loop_of_exceeds`: a body that does not fit fails with a return stack that is
  full;
* `Machine.executeAddress_of_layered`: code that is run from an address ends in the one way or
  in the other, as its depth tells.
-/

namespace ThreadedForth

open Relation (ReflTransGen TransGen)

/-! ## Straight code -/

/-- What a cell of straight code says. -/
inductive Instruction where
  | push (values : List Value)
  | call (target : Int)
  | leave

/-- Does what an instruction says.  `resume` is the address after it. -/
def Instruction.step (base : Nat) (resume : Int) (m : Machine) : Instruction → Turn
  | push values => .next (m.pushAll values)
  | call target => m.nest (.int target) resume
  | leave => m.stepExit base

/-- The instruction of a literal, a call or an exit.  It may be spelled by a row of values that
was handed in. -/
def Cell.instruction? (m : Machine) : Cell → Option Instruction
  | .literal values => some (.push values)
  | .call target _ => some (.call target)
  | .exit => some .leave
  | .foreign (.text "exit" :: _) => some .leave
  | .foreign (.text "literal" :: v :: _) => v.items?.map .push
  | .foreign (.text "call" :: address :: _) =>
    match m.locate address with
    | .ok (some target) => some (.call target)
    | _ => none
  | _ => none

namespace Machine

variable {m : Machine} {base : Nat}

/-- A cell with an instruction does what the instruction says. -/
theorem step_of_instruction? {cell : Cell} {i : Instruction}
    (said : cell.instruction? m = some i) (resume : Int) :
    m.step base resume cell = i.step base resume m := by
  unfold Cell.instruction? at said
  split at said
  case h_1 | h_2 | h_3 =>
    cases said
    rfl
  case h_4 rest =>
    cases said
    cases rest <;> rfl
  case h_5 v rest =>
    obtain ⟨values, items, rfl⟩ := Option.map_eq_some_iff.mp said
    rw [step, stepForeign]
    simp only [items]
    rfl
  case h_6 address rest =>
    split at said
    · next target located =>
      cases said
      rw [step, stepForeign]
      simp only [Instruction.step, nest, located, locate_int]
    · cases said
  case h_7 => cases said

/-- The instruction at an address. -/
def instructionAt? (m : Machine) (address : Int) : Option Instruction :=
  (m.fetch address).toOption.bind (Cell.instruction? m)

variable {a b target : Int} {values : List Value} {s : Store} {returns : Stack Int}
  {i : Instruction}

theorem exists_of_instructionAt? (said : m.instructionAt? a = some i) :
    ∃ cell, m.fetch a = .ok cell ∧ cell.instruction? m = some i := by
  obtain ⟨cell, found, said⟩ := Option.bind_eq_some_iff.mp said
  cases fetched : m.fetch a with
  | error f =>
    rw [fetched] at found
    cases found
  | ok other =>
    rw [fetched] at found
    cases found
    exact ⟨cell, rfl, said⟩

theorem bounds_of_instructionAt? (said : m.instructionAt? a = some i) :
    -(m.code.size : Int) ≤ a ∧ a < m.code.size := by
  obtain ⟨cell, fetched, -⟩ := exists_of_instructionAt? said
  exact bounds_of_fetch fetched

/-- In the middle of a run the code says what it says before.  The slots matter because a fault
may name a value. -/
theorem instructionAt?_running (slots : s.slots = m.slots) (returns : Stack Int) (b : Int) :
    (m.running s returns b).instructionAt? a = m.instructionAt? a := by
  have located : ∀ v, (m.running s returns b).locate v = m.locate v := by
    intro v
    unfold locate ranOff running
    simp only [slots]
  have fetched : (m.running s returns b).fetch a = m.fetch a := by
    unfold fetch ranOff running
    simp only [slots]
  unfold instructionAt?
  rw [fetched]
  refine congrArg _ (funext fun cell => ?_)
  unfold Cell.instruction?
  simp only [located]

/-! ### Turns -/

theorem turn_of_instructionAt? (said : m.instructionAt? a = some i) (slots : s.slots = m.slots) :
    (m.running s returns a).turn base =
      i.step base (a + 1) (m.running s returns (a + 1)) := by
  obtain ⟨cell, fetched, said⟩ :=
    exists_of_instructionAt? ((instructionAt?_running slots returns (a + 1)).trans said)
  have turned : (m.running s returns a).turn base =
      step base (a + 1) (m.running s returns (a + 1)) cell :=
    turn_of_fetched (m := m.running s returns a) rfl fetched
  rw [turned]
  exact step_of_instruction? said (a + 1)

/-- An exit goes back to the return address on top, if that was not there before the run. -/
theorem stepExit_push (s : Store) (back b : Int) (deep : base ≤ returns.depth) :
    (m.running s (returns.push back) b).stepExit base = .next (m.running s returns back) := by
  have popped : (m.running s (returns.push back) b).returns.pop? = some (back, returns) :=
    Stack.pop?_push back returns
  unfold stepExit
  rw [popped]
  exact if_pos deep

end Machine

/-! ## Bodies that call each other -/

namespace Machine

/-- The addresses of the body that begins at `a`, down to its first exit. -/
inductive Along (m : Machine) (a : Int) : Int → Prop where
  | start : Along m a a
  | next {b : Int} {i : Instruction} (before : Along m a b) (said : m.instructionAt? b = some i)
      (inner : i ≠ .leave) : Along m a (b + 1)

/-- The body that begins at `a` calls the one that begins at `target`. -/
def Calls (m : Machine) (a target : Int) : Prop :=
  ∃ b, m.Along a b ∧ m.instructionAt? b = some (.call target)

/-- Whatever is reached from `a` by calls is straight down to an exit, and is not reached again
from itself. -/
structure Layered (m : Machine) (a : Int) : Prop where
  straight : ∀ b c, ReflTransGen m.Calls a b → m.Along b c → (m.instructionAt? c).isSome
  acyclic : ∀ b, ReflTransGen m.Calls a b → ¬ TransGen m.Calls b b

end Machine

/-- A body, with the bodies that it calls in the place of their addresses. -/
inductive Expansion where
  | leave
  | push (values : List Value) (rest : Expansion)
  | call (callee rest : Expansion)

namespace Expansion

/-- The number of calls that are open inside each other at most: none if there is no call, and
one more than in the deepest of the bodies that are called otherwise. -/
def depth : Expansion → Nat
  | leave => 0
  | push _ rest => rest.depth
  | call callee rest => max (callee.depth + 1) rest.depth

/-- The literals, in the order in which they are met. -/
def values : Expansion → List Value
  | leave => []
  | push values rest => values ++ rest.values
  | call callee rest => callee.values ++ rest.values

/-- The number of calls. -/
def calls : Expansion → Nat
  | leave => 0
  | push _ rest => rest.calls
  | call callee rest => callee.calls + 1 + rest.calls

end Expansion

namespace Machine

variable {m : Machine} {base : Nat} {a b target : Int} {e : Expansion}

/-- The expansion of the body that begins at an address. -/
inductive Expands (m : Machine) : Int → Expansion → Prop where
  | leave {a : Int} (said : m.instructionAt? a = some .leave) : Expands m a .leave
  | push {a : Int} {values : List Value} {rest : Expansion}
      (said : m.instructionAt? a = some (.push values)) (further : Expands m (a + 1) rest) :
      Expands m a (.push values rest)
  | call {a target : Int} {callee rest : Expansion}
      (said : m.instructionAt? a = some (.call target)) (inner : Expands m target callee)
      (further : Expands m (a + 1) rest) : Expands m a (.call callee rest)

/-- A body has one expansion at most. -/
theorem Expands.unique {other : Expansion} (expands : m.Expands a e)
    (again : m.Expands a other) : other = e := by
  induction expands generalizing other with
  | leave said =>
    cases again with
    | leave => rfl
    | push said' => cases said.symm.trans said'
    | call said' => cases said.symm.trans said'
  | push said further ih =>
    cases again with
    | leave said' => cases said.symm.trans said'
    | push said' further' =>
      cases said.symm.trans said'
      rw [ih further']
    | call said' => cases said.symm.trans said'
  | call said inner further innerIh furtherIh =>
    cases again with
    | leave said' => cases said.symm.trans said'
    | push said' => cases said.symm.trans said'
    | call said' inner' further' =>
      cases said.symm.trans said'
      rw [innerIh inner', furtherIh further']

/-- Every address of a body with an expansion has an instruction, and the rest of the body from
there on has an expansion with no more calls. -/
theorem Expands.along (expands : m.Expands a e) (along : m.Along a b) :
    ∃ rest, m.Expands b rest ∧ rest.calls ≤ e.calls := by
  induction along with
  | start => exact ⟨e, expands, Nat.le_refl _⟩
  | next before said inner ih =>
    obtain ⟨rest, there, fewer⟩ := ih
    cases there with
    | leave said' =>
      cases said.symm.trans said'
      exact absurd rfl inner
    | push said' further => exact ⟨_, further, fewer⟩
    | call said' callee further =>
      refine ⟨_, further, Nat.le_trans ?_ fewer⟩
      exact Nat.le_add_left ..

theorem Expands.isSome (expands : m.Expands a e) : (m.instructionAt? a).isSome := by
  cases expands with
  | leave said => exact said ▸ rfl
  | push said => exact said ▸ rfl
  | call said => exact said ▸ rfl

/-- A body that is called has an expansion with fewer calls. -/
theorem Expands.calls (expands : m.Expands a e) (calls : m.Calls a target) :
    ∃ callee, m.Expands target callee ∧ callee.calls < e.calls := by
  obtain ⟨b, along, said⟩ := calls
  obtain ⟨rest, there, fewer⟩ := expands.along along
  cases there with
  | leave said' => cases said.symm.trans said'
  | push said' => cases said.symm.trans said'
  | @call _ _ callee rest said' inner further =>
    cases said.symm.trans said'
    refine ⟨callee, inner, Nat.lt_of_lt_of_le ?_ fewer⟩
    simp only [Expansion.calls]
    omega

/-- So has one that is reached by several calls, one inside the other. -/
theorem Expands.reached (expands : m.Expands a e) (calls : TransGen m.Calls a target) :
    ∃ callee, m.Expands target callee ∧ callee.calls < e.calls := by
  induction calls with
  | single once => exact expands.calls once
  | tail _ last ih =>
    obtain ⟨middle, there, fewer⟩ := ih
    obtain ⟨callee, inner, fewest⟩ := there.calls last
    exact ⟨callee, inner, Nat.lt_trans fewest fewer⟩

theorem Expands.layered (expands : m.Expands a e) : m.Layered a := by
  have expanded : ∀ b, ReflTransGen m.Calls a b → ∃ body, m.Expands b body := by
    intro b reached
    rcases Relation.reflTransGen_iff_eq_or_transGen.mp reached with rfl | reached
    · exact ⟨e, expands⟩
    · obtain ⟨body, there, -⟩ := expands.reached reached
      exact ⟨body, there⟩
  refine ⟨fun b c reached along => ?_, fun b reached again => ?_⟩
  · obtain ⟨body, there⟩ := expanded b reached
    obtain ⟨rest, here, -⟩ := there.along along
    exact here.isSome
  · -- a body that is reached from itself would have fewer calls than it has
    obtain ⟨body, there⟩ := expanded b reached
    obtain ⟨callee, inner, fewer⟩ := there.reached again
    rw [there.unique inner] at fewer
    exact Nat.lt_irrefl _ fewer

/-! ### Layered code has an expansion -/

theorem Layered.bounds (layered : m.Layered a) (reached : ReflTransGen m.Calls a b) :
    -(m.code.size : Int) ≤ b ∧ b < m.code.size := by
  obtain ⟨i, said⟩ := Option.isSome_iff_exists.mp (layered.straight b b reached .start)
  exact bounds_of_instructionAt? said

/-- A body has an expansion if all the bodies that it calls have one.  Its own addresses go up,
and end within the code. -/
theorem exists_expands_of_calls {c : Int}
    (straight : ∀ c, m.Along b c → (m.instructionAt? c).isSome)
    (callees : ∀ target, m.Calls b target → ∃ callee, m.Expands target callee)
    (along : m.Along b c) : ∃ e, m.Expands c e := by
  induction left : (m.code.size - c).toNat using Nat.strongRecOn generalizing c with
  | _ bound ih =>
    obtain ⟨i, said⟩ := Option.isSome_iff_exists.mp (straight c along)
    have bounds := bounds_of_instructionAt? said
    have further : i ≠ .leave → ∃ rest, m.Expands (c + 1) rest := fun inner =>
      ih _ (by omega) (along.next said inner) rfl
    cases i with
    | leave => exact ⟨_, .leave said⟩
    | push values =>
      obtain ⟨rest, further⟩ := further nofun
      exact ⟨_, .push said further⟩
    | call target =>
      obtain ⟨rest, further⟩ := further nofun
      obtain ⟨callee, inner⟩ := callees target ⟨c, along, said⟩
      exact ⟨_, .call said inner further⟩

theorem Layered.exists_expands (layered : m.Layered a) : ∃ e, m.Expands a e := by
  -- only finitely many bodies are reached, so calls without cycles are well-founded on them
  have finite : Finite {b // ReflTransGen m.Calls a b} :=
    ((Set.finite_Icc (-(m.code.size : Int)) m.code.size).subset fun b reached =>
      ⟨(layered.bounds reached).1, (layered.bounds reached).2.le⟩).to_subtype
  let inside (x y : {b // ReflTransGen m.Calls a b}) : Prop := TransGen m.Calls y.1 x.1
  have trans : IsTrans _ inside := ⟨fun _ _ _ first second => second.trans first⟩
  have irrefl : Std.Irrefl inside := ⟨fun b => layered.acyclic b.1 b.2⟩
  have founded : WellFounded inside := Finite.wellFounded_of_trans_of_irrefl inside
  have expanded : ∀ b : {b // ReflTransGen m.Calls a b}, ∃ e, m.Expands b.1 e := by
    intro b
    induction b using founded.induction with
    | _ b ih =>
      refine exists_expands_of_calls (fun c => layered.straight b.1 c b.2) ?_ .start
      intro target calls
      exact ih ⟨target, b.2.tail calls⟩ (.single calls)
  exact expanded ⟨a, .refl⟩

/-- Layered code is code that has an expansion. -/
theorem layered_iff : m.Layered a ↔ ∃ e, m.Expands a e :=
  ⟨Layered.exists_expands, fun ⟨_, expands⟩ => expands.layered⟩

end Machine

/-! ## Running layered code -/

theorem Store.pushAll_nil (s : Store) : s.pushAll [] = s := by
  have stacked : s.stack.pushAll [] = s.stack := by
    ext1
    simp
  simp only [pushAll, stacked]

namespace Machine

section Running

variable {m : Machine} {base : Nat} {a target back : Int} {e : Expansion} {s : Store}
  {returns : Stack Int}

/-- A call for which there is room. -/
theorem turn_call (said : m.instructionAt? a = some (.call target)) (slots : s.slots = m.slots)
    (room : ¬ m.capacity ≤ returns.depth) :
    (m.running s returns a).turn base =
      .next (m.running s (returns.push (a + 1)) target) := by
  rw [turn_of_instructionAt? said slots, Instruction.step, nest_int]
  exact if_neg room

/-- A call for which there is none. -/
theorem turn_call_full (said : m.instructionAt? a = some (.call target))
    (slots : s.slots = m.slots) (full : m.capacity ≤ returns.depth) :
    (m.running s returns a).turn base =
      .fault (.full m.capacity) (m.running s returns (a + 1)) := by
  rw [turn_of_instructionAt? said slots, Instruction.step, nest_int]
  exact if_pos full

/-- An exit from a body that has been called. -/
theorem turn_leave (said : m.instructionAt? a = some .leave) (slots : s.slots = m.slots)
    (deep : base ≤ returns.depth) :
    (m.running s (returns.push back) a).turn base = .next (m.running s returns back) := by
  rw [turn_of_instructionAt? said slots]
  exact stepExit_push s back (a + 1) deep

/-- An exit from the body with which the run has begun. -/
theorem turn_leave_level (said : m.instructionAt? a = some .leave) (slots : s.slots = m.slots) :
    (m.running s returns a).turn returns.depth =
      .halt { m.running s returns (a + 1) with ip := none } := by
  rw [turn_of_instructionAt? said slots]
  exact stepExit_of_level rfl

/-- A call of a body that runs to its exit comes back behind the call. -/
theorem loop_of_called {call : Caller} {credit : Nat} {last : Int} {values : List Value}
    (said : m.instructionAt? a = some (.call target)) (slots : s.slots = m.slots)
    (deep : base ≤ returns.depth) (room : ¬ m.capacity ≤ returns.depth)
    (left : m.instructionAt? last = some .leave)
    (ran : (m.running s (returns.push (a + 1)) target).loop call base credit =
      (m.running (s.pushAll values) (returns.push (a + 1)) last).loop call base credit) :
    (m.running s returns a).loop call base credit =
      (m.running (s.pushAll values) returns (a + 1)).loop call base credit := by
  have back : (m.running (s.pushAll values) (returns.push (a + 1)) last).turn base =
      .next (m.running (s.pushAll values) returns (a + 1)) := turn_leave left slots deep
  rw [loop_of_next call (turn_call said slots room), ran, loop_of_next call back]

variable (call : Caller) (credit : Nat) (s : Store) (returns : Stack Int)

/-- A body that fits runs to its exit, and puts its literals on the data stack.  The return stack
is then what it was. -/
theorem Expands.loop_of_fits (expands : m.Expands a e) (slots : s.slots = m.slots)
    (deep : base ≤ returns.depth) (fits : returns.depth + e.depth ≤ m.capacity.toNat) :
    ∃ last, m.instructionAt? last = some .leave ∧
      (m.running s returns a).loop call base credit =
        (m.running (s.pushAll e.values) returns last).loop call base credit := by
  induction expands generalizing s returns with
  | @leave a said =>
    rw [Expansion.values, Store.pushAll_nil]
    exact ⟨a, said, rfl⟩
  | @push a values rest said further ih =>
    obtain ⟨last, left, ran⟩ := ih (s.pushAll values) returns slots deep fits
    refine ⟨last, left, ?_⟩
    rw [loop_of_next call (turn_of_instructionAt? said slots), Expansion.values,
      Store.pushAll_append]
    exact ran
  | @call a target callee rest said inner further innerIh furtherIh =>
    simp only [Expansion.depth] at fits
    obtain ⟨innerLast, innerLeft, innerRan⟩ :=
      innerIh s (returns.push (a + 1)) slots (Nat.le_succ_of_le deep)
        (by rw [Stack.depth_push]; omega)
    obtain ⟨last, left, ran⟩ := furtherIh (s.pushAll callee.values) returns slots deep (by omega)
    refine ⟨last, left, ?_⟩
    rw [loop_of_called said slots deep (by omega) innerLeft innerRan, ran, Expansion.values,
      Store.pushAll_append]

/-- A body that does not fit fails at the first call for which there is no room. -/
theorem Expands.loop_of_exceeds (expands : m.Expands a e) (slots : s.slots = m.slots)
    (deep : base ≤ returns.depth) (low : returns.depth ≤ m.capacity.toNat)
    (exceeds : m.capacity.toNat < returns.depth + e.depth) :
    ∃ values full last, values <+: e.values ∧ full.depth = m.capacity.toNat ∧
      (m.running s returns a).loop call base credit =
        .failed (.full m.capacity) (m.running (s.pushAll values) full last) := by
  induction expands generalizing s returns with
  | leave said =>
    simp only [Expansion.depth] at exceeds
    omega
  | @push a pushed rest said further ih =>
    obtain ⟨values, full, last, met, reached, ran⟩ :=
      ih (s.pushAll pushed) returns slots deep low exceeds
    refine ⟨pushed ++ values, full, last, ?_, reached, ?_⟩
    · exact (List.prefix_append_right_inj pushed).mpr met
    · rw [loop_of_next call (turn_of_instructionAt? said slots), Store.pushAll_append]
      exact ran
  | @call a target callee rest said inner further innerIh furtherIh =>
    simp only [Expansion.depth] at exceeds
    by_cases none_ : m.capacity ≤ returns.depth
    · refine ⟨[], returns, a + 1, List.nil_prefix, by omega, ?_⟩
      rw [Store.pushAll_nil]
      exact loop_of_fault call (turn_call_full said slots none_)
    · by_cases fits : returns.depth + 1 + callee.depth ≤ m.capacity.toNat
      · -- the called body fits, so it is the rest that does not
        obtain ⟨innerLast, innerLeft, innerRan⟩ :=
          inner.loop_of_fits call credit s (returns.push (a + 1)) slots
            (Nat.le_succ_of_le deep) fits
        obtain ⟨values, full, last, met, reached, ran⟩ :=
          furtherIh (s.pushAll callee.values) returns slots deep low (by omega)
        refine ⟨callee.values ++ values, full, last, ?_, reached, ?_⟩
        · exact (List.prefix_append_right_inj callee.values).mpr met
        · rw [loop_of_called said slots deep none_ innerLeft innerRan, ran,
            ← Store.pushAll_append]
      · obtain ⟨values, full, last, met, reached, ran⟩ :=
          innerIh s (returns.push (a + 1)) slots (Nat.le_succ_of_le deep)
            (by rw [Stack.depth_push]; omega) (by rw [Stack.depth_push]; omega)
        refine ⟨values, full, last, met.trans (List.prefix_append ..), reached, ?_⟩
        rw [loop_of_next call (turn_call said slots none_)]
        exact ran

end Running

variable {m : Machine} {a : Int}

/-- A machine with three bodies, the second of which calls the first one twice.  Its last cells
are handed in as rows of values, and a run of them has failed before. -/
def layering : Machine :=
  { bare 1 false with
    code := #[.literal [.int 1], .exit, .literal [.int 2], .call 0 "one", .call 0 "one", .exit,
      .foreign [.text "call", .int 2], .foreign [.text "exit", .none]]
    returns := Stack.empty.push 7 }

/-- The body in the last two cells of the code. -/
def outermost : Expansion :=
  .call (.push [.int 2] (.call (.push [.int 1] .leave) (.call (.push [.int 1] .leave) .leave)))
    .leave

theorem expands_layering : layering.Expands (-2) outermost := by
  have one : layering.Expands 0 (.push [.int 1] .leave) := .push rfl (.leave rfl)
  have two : layering.Expands 2
      (.push [.int 2] (.call (.push [.int 1] .leave) (.call (.push [.int 1] .leave) .leave))) :=
    .push rfl (.call rfl one (.call rfl one (.leave rfl)))
  exact .call rfl two (.leave rfl)

end Machine
end ThreadedForth
