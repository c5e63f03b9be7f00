import ThreadedForth.Number.Numeral

/-!
# Values

What the data stack holds.  Values are dynamic: any word may meet any of them, and
the kind of a value decides what can be done with it.

Three kinds of value have identity.  A *cell* names the slot of a created word, by
the number of words created before it, and two cells are the same value exactly
when they name the same slot.  What the slot holds is not part of the value; it is
part of the machine that owns it.

A list, a tuple and a number that is no number carry a *mark*.  Whatever makes one
of them gives it a mark that nothing else has; passing a value on keeps its mark.
So two lists that look alike are one list exactly when their marks agree.  Marks
are never shown, and only two things ask for them: the comparison of items
(`Value.Order`) and the text of a value that leads back to itself
(`Value.Display`).

`Value.copy` makes a value that comes from outside one of the machine's own: all its
parts get new marks, and the cells in it must be there.

Equality of values in the sense of Lean (`=`, decidable below) tells apart values
of different kinds, different marks and, of floating-point numbers, different bits.
The equality that words compute is coarser and is defined in `Value.Order`.
-/

namespace ThreadedForth

/-- A value of the data stack. -/
inductive Value where
  /-- The absence of a value, which is a value too. -/
  | none
  | bool (b : Bool)
  | int (n : Int)
  | float (x : Float)
  /-- A floating-point number that is no number. -/
  | nan (mark : Nat)
  | text (s : String)
  | list (mark : Nat) (items : List Value)
  | tuple (mark : Nat) (items : List Value)
  /-- The slot of the created word with this number. -/
  | cell (slot : Nat)
  deriving Inhabited

namespace Value

mutual

/-- Whether two values are identical. -/
def identical : Value → Value → Bool
  | none, none => true
  | bool a, bool b => a == b
  | int a, int b => a == b
  | float a, float b => decide (a = b)
  | nan a, nan b => a == b
  | text a, text b => a == b
  | list m as, list n bs => m == n && identicalAll as bs
  | tuple m as, tuple n bs => m == n && identicalAll as bs
  | cell a, cell b => a == b
  | _, _ => false

/-- Whether two lists of values are identical, value by value. -/
def identicalAll : List Value → List Value → Bool
  | [], [] => true
  | a :: as, b :: bs => identical a b && identicalAll as bs
  | _, _ => false

end

mutual

theorem identical_iff : ∀ a b : Value, identical a b = true ↔ a = b
  | none, b => by cases b <;> simp [identical]
  | bool a, b => by cases b <;> simp [identical]
  | int a, b => by cases b <;> simp [identical]
  | float a, b => by cases b <;> simp [identical]
  | nan a, b => by cases b <;> simp [identical]
  | text a, b => by cases b <;> simp [identical]
  | list m as, b => by cases b <;> simp [identical, identicalAll_iff as]
  | tuple m as, b => by cases b <;> simp [identical, identicalAll_iff as]
  | cell a, b => by cases b <;> simp [identical]

theorem identicalAll_iff : ∀ as bs : List Value, identicalAll as bs = true ↔ as = bs
  | [], bs => by cases bs <;> simp [identicalAll]
  | a :: as, bs => by
    cases bs with
    | nil => simp [identicalAll]
    | cons b bs => simp [identicalAll, identical_iff a b, identicalAll_iff as bs]

end

instance : DecidableEq Value := fun a b =>
  decidable_of_iff (identical a b = true) (identical_iff a b)

/-- The name of a value's kind, as faults quote it. -/
def kindName : Value → String
  | none => "NoneType"
  | bool _ => "bool"
  | int _ => "int"
  | float _ | nan _ => "float"
  | text _ => "str"
  | list .. => "list"
  | tuple .. => "tuple"
  | cell _ => "DataCell"

/-- The integer a value counts as: integers do, and the truth values count as zero
and one. -/
def integer? : Value → Option Int
  | int n => some n
  | bool b => some (if b then 1 else 0)
  | _ => Option.none

/-- Whether a value counts as true: what is neither empty nor zero does. -/
def truth : Value → Bool
  | none => false
  | bool b => b
  | int n => n != 0
  | float x => x != 0
  | nan _ => true
  | text s => s != ""
  | list _ items => !items.isEmpty
  | tuple _ items => !items.isEmpty
  | cell _ => true

/-- The items of a value that can be gone through: those of a list or tuple, and the
characters of a text. -/
def items? : Value → Option (List Value)
  | list _ items => some items
  | tuple _ items => some items
  | text s => some (s.toList.map fun c => text (String.singleton c))
  | _ => Option.none

/-- A floating-point number as a value, which takes the mark `mark` if it needs
one. -/
def ofFloat (mark : Nat) (x : Float) : Value := if x.isNaN then nan mark else float x

/-- The value that a numeral spells.  A numeral spells a number. -/
def ofScalar : Number.Scalar → Value
  | .int n => int n
  | .float x => float x

/-- The greatest index a sequence can have. -/
def maxIndex : Nat := 0x7FFFFFFFFFFFFFFF

/-- The greatest number of bytes a sequence is built with. -/
def maxBytes : Nat := 1000000000

/-! ## Copies -/

/-- Work that takes marks, and may fail.  The state is the next mark that nothing
has. -/
abbrev Marking := StateT Nat (Except Fault)

/-- Takes a mark. -/
def takeMark : Marking Nat := modifyGet fun next => (next, next + 1)

mutual

/-- A copy of a value that shares no part with it that has a mark.  The cells in it
must be among the first `slots` ones. -/
def copy (slots : Nat) : Value → Marking Value
  | nan _ => do return nan (← takeMark)
  | list _ items => do
    let mark ← takeMark
    return list mark (← copyAll slots items)
  | tuple _ items => do
    let mark ← takeMark
    return tuple mark (← copyAll slots items)
  | cell slot => if slot < slots then pure (cell slot) else throw .missingSlot
  | v => pure v

/-- Copies of values, one by one. -/
def copyAll (slots : Nat) : List Value → Marking (List Value)
  | [] => pure []
  | v :: rest => do
    let own ← copy slots v
    return own :: (← copyAll slots rest)

end

end Value
end ThreadedForth
