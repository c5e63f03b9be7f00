import ThreadedForth.Machine.Stack

/-!
# What the primitives do

A primitive is given its arguments, the oldest first, which have already been taken off
the data stack, and works on the store.  It has a result, which may be absent.

Two primitives begin definitions.  `define` opens one at the next free address of the
code, which it is told.  `create` makes a word with a slot of its own at once.
-/

namespace ThreadedForth

namespace Store

/-- Checks that no definition is open, for the sake of a new one. -/
def checkIdle (name : String) (s : Store) : Except Fault Unit :=
  if s.compiling then
    match s.draft with
    | some draft => .error (.nestedDefinition name draft.name)
    | none => .error .noOpenDefinition
  else .ok ()

/-- What the slot of a cell holds. -/
def load (v : Value) (s : Store) : Except Fault Value :=
  match v with
  | .cell slot => .ok (s.slots.getD slot .none)
  | _ => .error (v.quoting s.slots (.notACell "load"))

/-- The slot of a cell that a value is stored to. -/
def target (v : Value) (s : Store) : Except Fault Nat :=
  match v with
  | .cell slot => .ok slot
  | _ => .error (v.quoting s.slots (.notACell "store"))

/-- Writes a text. -/
def write (text : String) (s : Store) : Store := s.tell (.wrote text)

end Store

/-- The code of the character that a value stands for. -/
def Value.characterCode (v : Value) : Except Fault Nat := do
  let code ← v.toInteger
  if code < -0x80000000 ∨ 0x80000000 ≤ code then throw .codeTooLarge
  else if code < 0 ∨ 0x110000 ≤ code then throw .codeOutOfRange
  else return code.toNat

namespace Routine

/-- Opens a colon definition whose code begins at `here`. -/
def define (here : Nat) (name : Value) : Routine Store Unit := do
  let valid ← check (Store.readName name)
  check (Store.checkIdle valid.1)
  modify fun s => { s with barrier := here }
  modify fun s => { s with draft := some (.opened valid here) }
  modify fun s => { s with compiling := true }

/-- Makes a word with a fresh slot, and yields the slot. -/
def create (name : Value) : Routine Store Value := do
  let valid ← check (Store.readName name)
  let slot := (← get).slots.size
  modify fun s => { s with slots := s.slots.push .none }
  let entry ← install ⟨valid.1, false, .created slot .none⟩
  modify fun s => { s with lastCreated := some entry }
  modify fun s => { s with lastDefined := some entry }
  modify (Store.note .debug .defining ("created '" ++ valid.1 ++ "'"))
  return .cell slot

/-- Puts a value into the slot of a cell. -/
def store (v cell : Value) : Routine Store Unit := do
  let slot ← check (Store.target cell)
  modify fun s => { s with slots := s.slots.setIfInBounds slot v }

/-- Writes a text that may fail to be made. -/
def write (text : Store → Except Fault String) : Routine Store Unit := do
  modify (Store.write (← check text))

/-- Writes the character with the code that is the integer of a value. -/
def emit (v : Value) : Routine Store Unit := do
  let code ← check fun _ => v.characterCode
  modify (Store.tell (.emitted code))

/-- A routine without a result. -/
def silent (r : Routine Store Unit) : Routine Store Value := do
  r
  return .none

end Routine

namespace Primitive

/-- Runs a primitive on its arguments.  `here` is the next free address of the code. -/
def run (here : Nat) (p : Primitive) (arguments : List Value) : Routine Store Value :=
  match p, arguments with
  | swap, [] => Routine.swap.silent
  | drop, [] => Routine.drop.silent
  | gather, [count] => (Routine.gather count).silent
  | spread, [] => Routine.spread.silent
  | pluck, [index] => Routine.pluck index
  | pick, [index] => .check (Store.pick index)
  | depth, [] => .check fun s => .ok (.int s.stack.depth)
  | clear, [] => Routine.clear.silent
  | define, [name] => (Routine.define here name).silent
  | load, [v] => .check (Store.load v)
  | store, [v, target] => (Routine.store v target).silent
  | create, [name] => Routine.create name
  | add, [a, b] => .compute (Value.add · a b)
  | sub, [a, b] => .compute (Value.sub · a b)
  | mul, [a, b] => .compute (Value.mul · a b)
  | div, [a, b] => .compute (Value.div · a b)
  | mod, [a, b] => do Routine.compute (Value.mod (← get).slots · a b)
  | negate, [a] => .compute (Value.negate · a)
  | equal, [a, b] => return .bool (a.same b)
  | compare c, [a, b] => .check fun _ => (Value.ordered c a b).map .bool
  | nop, [] => return .none
  | print, [v] => (Routine.write fun s => (v.plain s.slots).map (· ++ "\n")).silent
  | dot, [v] => (Routine.write fun s => (v.brief s.slots).map (· ++ " ")).silent
  | cr, [] => (Routine.write fun _ => .ok "\n").silent
  | emit, [v] => (Routine.emit v).silent
  | type, [v] => (Routine.write fun s => v.plain s.slots).silent
  | constant v, [] => return v
  | _, _ => throw .argumentExcess

end Primitive
end ThreadedForth
