import ThreadedForth.Machine.Interpret

/-!
# Calling the host

A host callable that is called first matches its arguments with its parameters, then
carries out its script, and then answers.  Its operations are the machine's own, so
a callable can run words that call it again.  `callHost` follows such nesting down
to a fixed depth: at each level the operations of a script are given the caller of
the level below.

The values that a callable brings along become values of the machine with every
call: each call makes them anew.

`Host.caller` is the one that everything outside uses.
-/

namespace ThreadedForth
namespace Host

/-- Carries out one operation of a script. -/
def Action.perform (call : Caller) (m : Machine) : Action → Outcome Unit
  | .push values =>
    (m.marking (Value.copyAll m.slots.size values)).bind fun own ready =>
      .done () (ready.pushAll own)
  | .run tokens =>
    (m.marking (tokens.mapM (Token.copy m.slots.size))).bind fun own ready =>
      ready.run call own
  | .execute source => m.execute call source
  | .executeWord name => m.executeWord call name
  | .executeAddress address => m.executeAddress call address
  | .dropReturn =>
    match m.returns.pop? with
    | some (_, rest) => .done () { m with returns := rest }
    | none => .failed .nothingToPop m
  | .abort => .done () m.abort
  | .fail f => .failed f m
  | .demand text =>
    if m.stack.items.head?.any Value.truth then .done () m
    else .failed (.raisedValue text) m
  | .handle => .done () m

/-- Looking at the data stack changes nothing. -/
theorem Action.demand_cases (call : Caller) (text : String) (m : Machine) :
    perform call m (.demand text) = .done () m ∨
      perform call m (.demand text) = .failed (.raisedValue text) m := by
  simp only [perform]
  split
  · exact .inl rfl
  · exact .inr rfl

/-- Whether an operation handles a failure of those before it. -/
def Action.handles (f : Fault) (action : Action) : Bool :=
  action == .handle && !f.isInterrupt

theorem Action.handle_of_handles {f : Fault} {action : Action}
    (handled : action.handles f = true) : action = .handle :=
  beq_iff_eq.mp (Bool.and_eq_true_iff.mp handled).1

/-- Whether a failure is handled or not, the state is the one that it has left. -/
theorem Action.machine_handled (f : Fault) (m : Machine) (action : Action) :
    (if action.handles f then .done () m else .failed f m : Outcome Unit).machine = m := by
  split <;> rfl

/-- Carries out what is left of a script after the outcome of its first part.  Behind a
failure, operations are left out up to one that handles it. -/
def resumeScript (call : Caller) : List Action → Outcome Unit → Outcome Unit
  | [], o => o
  | action :: rest, .done () m => resumeScript call rest (action.perform call m)
  | action :: rest, .failed f m =>
    resumeScript call rest (if action.handles f then .done () m else .failed f m)

/-- Carries out a script. -/
def runScript (call : Caller) (script : List Action) (m : Machine) : Outcome Unit :=
  resumeScript call script (.done () m)

/-- The value that a callable answers with. -/
def Answer.evaluate (arguments : List Value) (m : Machine) : Answer → Value.Marking Value
  | .nothing => pure .none
  | .arguments => do return .list (← Value.takeMark) arguments
  | .returnDepth => pure (.int m.returns.depth)
  | .position => pure (m.ip.elim .none .int)
  | .mode => pure (.bool m.compiling)
  | .value v => v.copy m.slots.size

/-- Calls a host callable, nested to the depth `depth` at most. -/
def callHost : (depth : Nat) → Caller
  | 0, _, _, m => .failed .exhausted m
  | depth + 1, f, arguments, m =>
    match f.signature.bind arguments.length with
    | .error fault => .failed fault m
    | .ok () =>
      (runScript (callHost depth) f.script m).bind fun () after =>
        after.marking (f.answer.evaluate arguments after)

/-- The depth to which host callables may nest. -/
def maxDepth : Nat := 1000

/-- How host callables act. -/
def caller : Caller := callHost maxDepth

end Host
end ThreadedForth
