import ThreadedForth.Machine.Store

/-!
# Routines

A word does its work in place, one statement after the other.  A statement that fails ends
the work there; what the statements before it have changed stays changed, and nobody undoes
it.  So a routine that fails leaves a state too: the one it has come to.

Most statements are checks.  They look at the state and may fail, but they change nothing
(`Routine.check`).  The others change the state and do not fail.
-/

namespace ThreadedForth

/-- Work that is done in place on a state.  It ends with a result or a fault, and in either
case with the state it has come to. -/
abbrev Routine (σ α : Type) := EStateM Fault σ α

namespace Routine

variable {σ α : Type}

/-- Looks at the state, without changing it. -/
def check (look : σ → Except Fault α) : Routine σ α := fun s =>
  match look s with
  | .ok a => .ok a s
  | .error f => .error f s

/-- Does work on the store of a larger state. -/
def focus (get : σ → Store) (put : Store → σ → σ) (r : Routine Store α) : Routine σ α := fun s =>
  match r (get s) with
  | .ok a t => .ok a (put t s)
  | .error f t => .error f (put t s)

/-- Takes the top value off the data stack. -/
def popTop : Routine Store Value := fun s =>
  match s.stack.pop? with
  | some (top, rest) => .ok top { s with stack := rest }
  | none => .error .nothingToPop s

/-- Makes a value that may need a mark. -/
def make (value : Nat → Value) : Routine Store Value := modifyGet (Store.make value)

/-- Computes a value that may need a mark. -/
def compute (value : Nat → Except Fault Value) : Routine Store Value := do
  let result ← check fun s => value s.nextMark
  modify Store.advance
  return result

/-- Registers an entry, whose name is checked once more, and yields its number. -/
def install (w : Word) : Routine Store Nat := do
  let _ ← check (Store.checkName (.text w.name))
  let entry := (← get).dictionary.size
  modify (Store.install w)
  return entry

end Routine
end ThreadedForth
