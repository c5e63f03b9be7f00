import ThreadedForth.Machine.Routine

/-!
# The data stack

The operations on the data stack, by themselves.  Each begins with checks, of its count
or index and of the depth of the stack, and goes on to change the stack in place.

A count or index is an integer that is not below zero.  A truth value counts as an
integer in arithmetic but is no count.
-/

namespace ThreadedForth
namespace Store

/-- Reads a count or index, on behalf of the word `word`. -/
def readCount (word : String) (v : Value) (s : Store) : Except Fault Nat :=
  match v with
  | .int n =>
    if n < 0 then .error (v.quoting s.slots (.negativeCount word)) else .ok n.toNat
  | _ => .error (v.quoting s.slots (.notAnInteger word))

/-- Checks that the data stack holds a number of values. -/
def require (needed : Nat) (word : Option String) (s : Store) : Except Fault Unit :=
  if s.stack.depth < needed then .error (.short needed s.stack.depth word) else .ok ()

/-- Takes the top `n` values off, and returns them with the oldest first. -/
def take (n : Nat) (s : Store) : List Value × Store :=
  ((s.stack.take n).1, { s with stack := (s.stack.take n).2 })

/-- Putting back what was taken off restores the store. -/
theorem pushAll_take (n : Nat) (s : Store) : (s.take n).2.pushAll (s.take n).1 = s := by
  simp [take, pushAll, Stack.pushAll_of_take]

/-- Taking off what was pushed yields it and restores the store. -/
theorem take_pushAll (values : List Value) (s : Store) :
    (s.pushAll values).take values.length = (values, s) := by
  simp [take, pushAll, Stack.take_of_pushAll]

/-- The value that stands a number of places below the top. -/
def nth (i : Nat) (s : Store) : Value := s.stack.items.getD i .none

/-- The value on top. -/
def peek (s : Store) : Except Fault Value := do
  s.require 1 none
  return s.nth 0

/-- The value whose place below the top is given. -/
def pick (index : Value) (s : Store) : Except Fault Value := do
  let i ← s.readCount "pick" index
  s.require (i + 1) (some "pick")
  return s.nth i

end Store

namespace Routine

/-- Takes the top values off: a single value for a count of one, and otherwise a list
with the oldest first. -/
def pop (count : Value) : Routine Store Value := do
  let n ← check (Store.readCount "pop" count)
  check (Store.require n none)
  if n = 1 then popTop
  else
    let values ← modifyGet (Store.take n)
    make (.list · values)

/-- Exchanges the two values on top. -/
def swap : Routine Store Unit := do
  check (Store.require 2 (some "swap"))
  let s ← get
  set { s with stack := ((s.stack.take 2).2.push (s.nth 0)).push (s.nth 1) }

/-- Drops the value on top. -/
def drop : Routine Store Unit := do
  check (Store.require 1 (some "drop"))
  let _ ← popTop

/-- Replaces the top values by the list of them, the oldest first. -/
def gather (count : Value) : Routine Store Unit := do
  let n ← check (Store.readCount "gather" count)
  check (Store.require n (some "gather"))
  let gathered ←
    if n = 1 then do
      let single ← popTop
      make (.list · [single])
    else pop count
  modify (Store.push gathered)

/-- Replaces a list or tuple on top by its items. -/
def spread : Routine Store Unit := do
  check (Store.require 1 (some "spread"))
  let s ← get
  match s.nth 0 with
  | .list _ items | .tuple _ items =>
    let _ ← popTop
    modify (Store.pushAll items)
  | v => throw (v.quoting s.slots .notAComposite)

/-- Removes the value that stands a number of places below the top. -/
def pluck (index : Value) : Routine Store Value := do
  let i ← check (Store.readCount "pluck" index)
  check (Store.require (i + 1) (some "pluck"))
  let s ← get
  set { s with stack := s.stack.eraseIdx i }
  return s.nth i

/-- Empties the data stack. -/
def clear : Routine Store Unit := modify fun s => { s with stack := .empty }

end Routine
end ThreadedForth
