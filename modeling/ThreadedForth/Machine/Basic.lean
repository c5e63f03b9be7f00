import ThreadedForth.Code.Cell
import ThreadedForth.Machine.Primitive

/-!
# The machine

A machine is a store together with code and the state of its execution: the address
of the next cell while code is running, and the return addresses of the calls that
are open.  The return stack has a capacity, which a call may not exceed; a capacity
of zero or less allows no call at all.

An operation on the machine ends with an `Outcome`: it is done, with a result, or it
has failed, with a fault.  Either way the machine goes on from the state it was left
in, since a failed operation may have done part of its work.

`Machine.callWith` is the calling convention of native words.  The arguments are
taken off the data stack before the action starts; if it fails they are put back on
top of whatever it has left there; if it succeeds the result is pushed, unless it is
absent and the word does not push absent results.
-/

namespace ThreadedForth

/-- The whole state. -/
structure Machine extends Store where
  code : Array Cell
  /-- The return addresses of the open calls, the innermost on top. -/
  returns : Stack Int
  /-- The address of the next cell, while code is running. -/
  ip : Option Int
  /-- The greatest number of open calls. -/
  capacity : Int
  deriving DecidableEq

/-- How an operation ends. -/
inductive Outcome (α : Type) where
  | done (result : α) (machine : Machine)
  | failed (fault : Fault) (machine : Machine)

namespace Outcome

variable {α β : Type}

/-- The state an operation leaves behind. -/
def machine : Outcome α → Machine
  | done _ m => m
  | failed _ m => m

/-- Goes on after success. -/
def bind (o : Outcome α) (next : α → Machine → Outcome β) : Outcome β :=
  match o with
  | done a m => next a m
  | failed f m => failed f m

/-- Changes the result. -/
def map (g : α → β) : Outcome α → Outcome β
  | done a m => done (g a) m
  | failed f m => failed f m

/-- Changes the state left behind, by success and failure alike. -/
def adjust (g : Machine → Machine) : Outcome α → Outcome α
  | done a m => done a (g m)
  | failed f m => failed f (g m)

/-- Changes the state left behind by a failure that is no interrupt. -/
def onFault (g : Machine → Machine) : Outcome α → Outcome α
  | done a m => done a m
  | failed f m => failed f (if f.isInterrupt then m else g m)

/-- The outcome of a routine on the store alone. -/
def ofRoutine (m : Machine) : EStateM.Result Fault Store α → Outcome α
  | .ok a s => done a { m with toStore := s }
  | .error f s => failed f { m with toStore := s }

/-- The outcome of work on the store that is done in one piece, and leaves no traces when it
fails. -/
def ofStore (m : Machine) : Except Fault (α × Store) → Outcome α
  | .ok (a, s) => done a { m with toStore := s }
  | .error f => failed f m

/-- The outcome of work that changes nothing. -/
def ofExcept (m : Machine) : Except Fault α → Outcome α
  | .ok a => done a m
  | .error f => failed f m

@[simp] theorem bind_done (a : α) (m : Machine) (next : α → Machine → Outcome β) :
    (done a m).bind next = next a m := rfl

@[simp] theorem bind_failed (f : Fault) (m : Machine) (next : α → Machine → Outcome β) :
    (failed f m : Outcome α).bind next = failed f m := rfl

@[simp] theorem machine_done (a : α) (m : Machine) : (done a m).machine = m := rfl

@[simp] theorem machine_failed (f : Fault) (m : Machine) :
    (failed f m : Outcome α).machine = m := rfl

theorem machine_map (g : α → β) (o : Outcome α) : (o.map g).machine = o.machine := by
  cases o <;> rfl

end Outcome

namespace Machine

/-- The address the next compiled cell gets. -/
def here (m : Machine) : Nat := m.code.size

/-- Puts values on the data stack, the last one on top. -/
def pushAll (values : List Value) (m : Machine) : Machine :=
  { m with toStore := m.toStore.pushAll values }

/-- Does work that takes marks. -/
def marking {α : Type} (work : Value.Marking α) (m : Machine) : Outcome α :=
  .ofStore m (m.toStore.marking work)

/-- Work that takes marks changes nothing but the next mark, and nothing at all when it
fails. -/
theorem marking_cases {α : Type} (work : Value.Marking α) (m : Machine) :
    (∃ a next, m.marking work = .done a { m with nextMark := next }) ∨
      ∃ f, m.marking work = .failed f m := by
  unfold marking Store.marking
  cases ends : work.run m.nextMark with
  | ok result => exact Or.inl ⟨result.1, result.2, rfl⟩
  | error f => exact Or.inr ⟨f, rfl⟩

/-- Makes a note. -/
def note (level : Level) (channel : Channel) (text : String) (m : Machine) : Machine :=
  { m with toStore := m.toStore.note level channel text }

/-- Shows something to the user. -/
def tell (u : Utterance) (m : Machine) : Machine := { m with toStore := m.toStore.tell u }

/-- Drops what is being run or compiled. -/
def abort (m : Machine) : Machine :=
  let cleared := { m with toStore := m.toStore.abandon, returns := .empty, ip := none }
  cleared.note .debug .core s!"aborted; data stack depth {cleared.stack.depth}"

/-- Pushes the result of a native word. -/
def pushResult (n : Native) (result : Value) (m : Machine) : Machine :=
  if result ≠ .none ∨ n.pushesNone then m.pushAll [result] else m

/-- Calls a native word whose action is `perform`. -/
def callWith (name : String) (n : Native) (perform : List Value → Machine → Outcome Value)
    (m : Machine) : Outcome Unit :=
  if m.stack.depth < n.arity then
    .failed (.short n.arity m.stack.depth (some name)) m
  else
    let (arguments, rest) := m.toStore.take n.arity
    ((perform arguments { m with toStore := rest }).onFault (pushAll arguments)).bind
      fun result after => .done () (after.pushResult n result)

end Machine

/-- Performs a primitive on the machine. -/
def Primitive.perform (p : Primitive) (arguments : List Value) (m : Machine) : Outcome Value :=
  .ofRoutine m (p.run m.here arguments m.toStore)

end ThreadedForth
