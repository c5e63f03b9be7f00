import ThreadedForth.Value.Basic

/-!
# Equality and order of values

The equality that words compute looks through the kinds of number: a truth value
equals the integer it counts as, and an integer equals a floating-point number of
exactly its size.  No rounding takes place, so the comparison is right at any size.
A number that is no number equals nothing, itself included.  Lists equal lists and
tuples equal tuples, item by item; any two values can be asked.

Items are compared less strictly than values on their own: an item also agrees
with itself, which its mark tells (`Value.agrees`).  That changes the answer for one
kind of value only, because every other one equals itself: a number that is no number
agrees with the number of its own mark, so a list of such numbers equals itself, and
equals no list of numbers that were made apart from them.  For lists and tuples it
changes the work only.  A list that holds another one twice, which holds a third one
twice, and so on, is small, but has a great many items at the bottom; the marks spare
the comparison of such a list with itself the way down.  For the same reason lists of
different lengths are told apart before any of their items are looked at.

The order is defined within numbers, within texts (by code point), within lists
and within tuples, and nowhere else.  Two sequences are ordered by the first place
where they differ, or by their lengths when one continues the other.
-/

namespace ThreadedForth
namespace Value

/-- The number a value counts as. -/
def scalar? : Value → Option Number.Scalar
  | bool b => some (.int (if b then 1 else 0))
  | int n => some (.int n)
  | float x => some (.float x)
  | nan _ => some (.float Number.Binary64.nan)
  | _ => Option.none

/-- The order of two numbers, found without rounding.  There is none when one of
them is no number. -/
def compareScalars : Number.Scalar → Number.Scalar → Option Ordering
  | .int m, .int n => some (compare m n)
  | .int m, .float y => Number.Binary64.compareInt m y
  | .float x, .int n => (Number.Binary64.compareInt n x).map Ordering.swap
  | .float x, .float y =>
    if x < y then some .lt
    else if x == y then some .eq
    else if y < x then some .gt
    else Option.none

/-- Whether two values count as equal numbers. -/
def sameNumber (a b : Value) : Bool :=
  match a.scalar?, b.scalar? with
  | some x, some y => compareScalars x y == some .eq
  | _, _ => false

/-- Whether two values are one and the same by their marks.  Values without a mark
are not told to be. -/
def sharesMark : Value → Value → Bool
  | nan m, nan n => m == n
  | list m _, list n _ => m == n
  | tuple m _, tuple n _ => m == n
  | _, _ => false

mutual

/-- Whether two values are equal, as words compute it. -/
def same : Value → Value → Bool
  | none, none => true
  | text a, text b => a == b
  | list _ as, list _ bs => as.length == bs.length && sameAll as bs
  | tuple _ as, tuple _ bs => as.length == bs.length && sameAll as bs
  | cell a, cell b => a == b
  | a, b => sameNumber a b

/-- Whether two lists of values agree item by item. -/
def sameAll : List Value → List Value → Bool
  | [], [] => true
  | a :: as, b :: bs => (sharesMark a b || same a b) && sameAll as bs
  | _, _ => false

end

/-- Whether two values agree as items: they are equal, or one and the same. -/
def agrees (a b : Value) : Bool := sharesMark a b || same a b

/-- The two questions that can be asked about an order. -/
inductive Comparison where
  | less
  | greater
  deriving DecidableEq, Repr

namespace Comparison

/-- The sign of a comparison. -/
def symbol : Comparison → String
  | less => "<"
  | greater => ">"

/-- Whether an order answers the question with yes. -/
def holds : Comparison → Ordering → Bool
  | less, order => order == .lt
  | greater, order => order == .gt

end Comparison

/-- The order of two texts, by code points. -/
def compareTexts (a b : String) : Ordering :=
  if a < b then .lt else if a = b then .eq else .gt

/-- Compares two values that are not sequences of one kind. -/
def orderedScalars (c : Comparison) (a b : Value) : Except Fault Bool :=
  match a.scalar?, b.scalar? with
  | some x, some y => .ok ((compareScalars x y).elim false c.holds)
  | _, _ => .error (.notOrdered c.symbol a.kindName b.kindName)

mutual

/-- Whether one value stands before or after another. -/
def ordered (c : Comparison) : Value → Value → Except Fault Bool
  | text a, text b => .ok (c.holds (compareTexts a b))
  | list _ as, list _ bs => orderedAll c as bs
  | tuple _ as, tuple _ bs => orderedAll c as bs
  | a, b => orderedScalars c a b

/-- Whether one sequence stands before or after another. -/
def orderedAll (c : Comparison) : List Value → List Value → Except Fault Bool
  | [], [] => .ok false
  | [], _ :: _ => .ok (c.holds .lt)
  | _ :: _, [] => .ok (c.holds .gt)
  | a :: as, b :: bs => if agrees a b then orderedAll c as bs else ordered c a b

end

end Value
end ThreadedForth
