import ThreadedForth.Machine.Weight

/-!
# Running code and words

A run takes turns until one of them ends it.  Between turns it may have to call a
native action that is no primitive.  How a host callable acts is not known here; it
is a parameter (`Caller`), and everything that runs code takes it along.

A run without host callables needs no bound, because every turn makes the machine
lighter.  A host callable may change the code and the return stack as it likes, so
the number of such calls is bounded by a `credit`, which is far beyond what any
program uses.  The loop ends by the lexicographic order of credit and weight.

`executeAddress` begins a run of its own inside whatever is running.  The place of
execution is put back when it ends, however it ends.  A run that starts when
nothing is running finds no use for return addresses that an earlier, failed run
has left behind, and discards them.
-/

namespace ThreadedForth

/-- How host callables act on the machine. -/
abbrev Caller := Host.Callable → List Value → Machine → Outcome Value

/-- Performs the action of a native word. -/
def Action.perform (call : Caller) : Action → List Value → Machine → Outcome Value
  | .primitive p => p.perform
  | .directive d => d.perform
  | .host f => call f

namespace Machine

/-- Calls a native word. -/
def callNative (call : Caller) (name : String) (n : Native) (m : Machine) : Outcome Unit :=
  m.callWith name n (n.action.perform call)

/-- The number of native calls other than primitives that one run may make. -/
def maxEntries : Nat := 1000000000

/-- Takes turns until the run ends. -/
def loop (call : Caller) (base : Nat) (credit : Nat) (m : Machine) : Outcome Unit :=
  match _ : m.turn base with
  | .next after => loop call base credit after
  | .halt after => .done () after
  | .fault f after => .failed f after
  | .enter name n after =>
    match credit with
    | 0 => .failed .exhausted after
    | credit + 1 =>
      match after.callNative call name n with
      | .done () ended => loop call base credit ended
      | .failed f ended => .failed f ended
termination_by (credit, m.weight)
decreasing_by
  · exact Prod.Lex.right _ (weight_lt_of_turn_next ‹_›)
  · exact Prod.Lex.left _ _ (Nat.lt_succ_self _)

section Unfolding

variable (call : Caller) {base credit : Nat} {m after ended : Machine} {f : Fault}
  {name : String} {n : Native}

/-- A run goes on after a turn that goes on. -/
theorem loop_of_next (h : m.turn base = .next after) :
    loop call base credit m = loop call base credit after := by
  rw [loop]
  split <;> simp_all

/-- A run is over after a turn that halts. -/
theorem loop_of_halt (h : m.turn base = .halt after) :
    loop call base credit m = .done () after := by
  rw [loop]
  split <;> simp_all

/-- A run fails with a turn that fails. -/
theorem loop_of_fault (h : m.turn base = .fault f after) :
    loop call base credit m = .failed f after := by
  rw [loop]
  split <;> simp_all

/-- A run with credit calls the native action that a turn hands over to, and goes on
if that succeeds. -/
theorem loop_of_enter (h : m.turn base = .enter name n after) :
    loop call base (credit + 1) m =
      (after.callNative call name n).bind fun () ended => loop call base credit ended := by
  rw [loop]
  split <;> simp_all only [reduceCtorEq, Turn.enter.injEq]
  cases after.callNative call name n <;> rfl

end Unfolding

/-- Drops the return addresses that a failed run has left behind. -/
def discardStale (m : Machine) : Machine :=
  match m.ip, m.returns.depth with
  | none, count + 1 =>
    { m with returns := .empty }.note .debug .interpreter
      s!"discarding {count + 1} stale return addresses"
  | _, _ => m

/-- Runs the code from an address on. -/
def executeAddress (call : Caller) (address : Value) (m : Machine) : Outcome Unit :=
  let start := m.discardStale
  match start.locate address with
  | .error f => .failed f start
  | .ok place =>
    (loop call start.returns.depth maxEntries { start with ip := place }).adjust
      fun ended => { ended with ip := m.ip }

/-- Runs an entry of the dictionary. -/
def executeEntry (call : Caller) (entry : Nat) (m : Machine) : Outcome Unit :=
  match m.dictionary.get? entry with
  | some ⟨name, _, .native n⟩ => m.callNative call name n
  | some ⟨_, _, .colon address⟩ => m.executeAddress call (.int address)
  | some ⟨_, _, .created slot behavior⟩ =>
    let pushed := m.pushAll [.cell slot]
    match behavior with
    | .none => .done () pushed
    | address => pushed.executeAddress call address
  | none => .failed .cellTooShort m

/-- Runs the word that a name means. -/
def executeWord (call : Caller) (name : String) (m : Machine) : Outcome Unit :=
  match m.lookup name with
  | .ok entry => m.executeEntry call entry
  | .error f => .failed f m

end Machine
end ThreadedForth
