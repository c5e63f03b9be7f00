import ThreadedForth.Value.Template

/-!
# Arithmetic

The operators, on any two values.  Integers are unbounded, and truth values count
as integers.  When one operand is a floating-point number the other one becomes
one as well, which fails for an integer past the greatest floating-point number.

* The sum of two texts, two lists or two tuples joins them.
* The product of a text, list or tuple with an integer repeats it.
* The quotient of two integers is an integer when the division leaves no remainder,
  and otherwise the floating-point number nearest to the exact quotient.
* The remainder has the sign of the divisor.  The remainder of a text is the text
  as a template, filled from the other operand.

A result that needs a mark gets the one that the operator is handed.  Two results
need none because they are not made: a tuple joined with an empty one, or repeated
once, is the tuple itself.
-/

namespace ThreadedForth
namespace Value

/-! ## Numbers -/

/-- The floating-point number an integer becomes. -/
def integerToFloat (n : Int) : Except Fault Float :=
  match Number.Binary64.ofInt? n with
  | some x => .ok x
  | Option.none => .error .integerTooLarge

/-- Applies an operator to two numbers: the one on integers when both are integers,
and otherwise the one on floating-point numbers. -/
def onScalars (onInts : Int → Int → Except Fault Value)
    (onFloats : Float → Float → Except Fault Value) :
    Number.Scalar → Number.Scalar → Except Fault Value
  | .int m, .int n => onInts m n
  | .int m, .float y => do onFloats (← integerToFloat m) y
  | .float x, .int n => do onFloats x (← integerToFloat n)
  | .float x, .float y => onFloats x y

/-- Applies an operator, known by its sign, to two values that must be numbers. -/
def onNumbers (operator : String) (onInts : Int → Int → Except Fault Value)
    (onFloats : Float → Float → Except Fault Value) (a b : Value) : Except Fault Value :=
  match a.scalar?, b.scalar? with
  | some x, some y => onScalars onInts onFloats x y
  | _, _ => .error (.unsupportedOperands operator a.kindName b.kindName)

/-! ## Sums and differences -/

/-- Two tuples joined.  Nothing is made when one of them is empty. -/
def joinTuples (mark m n : Nat) : List Value → List Value → Value
  | [], bs => tuple n bs
  | as, [] => tuple m as
  | as, bs => tuple mark (as ++ bs)

/-- The sum of two values. -/
def add (mark : Nat) : Value → Value → Except Fault Value
  | text s, text t => .ok (text (s ++ t))
  | list _ as, list _ bs => .ok (list mark (as ++ bs))
  | tuple m as, tuple n bs => .ok (joinTuples mark m n as bs)
  | a, b =>
    match a with
    | text _ | list .. | tuple .. => .error (.notJoinable a.kindName b.kindName)
    | _ =>
      onNumbers "+" (fun m n => .ok (int (m + n))) (fun x y => .ok (ofFloat mark (x + y))) a b

/-- The difference of two values. -/
def sub (mark : Nat) (a b : Value) : Except Fault Value :=
  onNumbers "-" (fun m n => .ok (int (m - n))) (fun x y => .ok (ofFloat mark (x - y))) a b

/-! ## Products -/

/-- How often a sequence of the given length, with items of `width` bytes, is repeated
for the factor `n`: never for a factor below zero.  `tooLong` is the fault of a length
past every index. -/
def repetitions (width length : Nat) (n : Int) (tooLong : Fault) : Except Fault Nat :=
  if (maxIndex : Int) < n ∨ n < -(maxIndex : Int) - 1 then .error .countTooLarge
  else if maxIndex < length * n.toNat then .error tooLong
  else if maxBytes < width * length * n.toNat then .error .outOfMemory
  else .ok (if length = 0 then 0 else n.toNat)

/-- A text repeated `n` times.  It is put together from two halves, and from the text
itself when there is one more. -/
def repeatText (s : String) (n : Nat) : String :=
  if n = 0 then ""
  else
    let half := repeatText s (n / 2)
    if n % 2 = 0 then half ++ half else half ++ half ++ s
termination_by n
decreasing_by omega

/-- Items repeated `n` times. -/
def repeatItems (items : List Value) (n : Nat) : List Value := Nat.repeat (items ++ ·) n []

/-- A text, list or tuple repeated `n` times. -/
def repeatBy (mark : Nat) (n : Int) : Value → Except Fault Value
  | text s => do
    let count ← repetitions 1 s.length n .textTooLong
    return text (repeatText s count)
  | list _ items => do
    let count ← repetitions 8 items.length n .outOfMemory
    return list mark (repeatItems items count)
  | tuple own items => do
    let count ← repetitions 8 items.length n .outOfMemory
    return tuple (if n = 1 then own else mark) (repeatItems items count)
  | v => .error (.unsupportedOperands "*" v.kindName "int")

/-- Whether a value is a text, list or tuple. -/
def isSequence : Value → Bool
  | text _ | list .. | tuple .. => true
  | _ => false

/-- A sequence repeated by a value, which must be an integer. -/
def repeatByValue (mark : Nat) (sequence times : Value) : Except Fault Value :=
  match times.integer? with
  | some n => repeatBy mark n sequence
  | Option.none => .error (.notRepeatable times.kindName)

/-- The product of two values. -/
def mul (mark : Nat) (a b : Value) : Except Fault Value :=
  if a.isSequence then repeatByValue mark a b
  else if b.isSequence then repeatByValue mark b a
  else
    onNumbers "*" (fun m n => .ok (int (m * n))) (fun x y => .ok (ofFloat mark (x * y))) a b

/-! ## Quotients and remainders -/

/-- The quotient of two integers. -/
def divInts (m n : Int) : Except Fault Value :=
  if n = 0 then .error .integerModuloZero
  else if Int.fmod m n = 0 then .ok (int (Int.fdiv m n))
  else
    match Number.Binary64.ofQuotient? (decide (m < 0) != decide (n < 0)) m.natAbs n.natAbs with
    | some x => .ok (float x)
    | Option.none => .error .quotientTooLarge

/-- The quotient of two floating-point numbers. -/
def divFloats (mark : Nat) (x y : Float) : Except Fault Value :=
  if y == 0 then .error .floatDivisionZero else .ok (ofFloat mark (x / y))

/-- The quotient of two values. -/
def div (mark : Nat) (a b : Value) : Except Fault Value :=
  onNumbers "/" divInts (divFloats mark) a b

/-- The remainder of two integers. -/
def modInts (m n : Int) : Except Fault Value :=
  if n = 0 then .error .integerModuloZero else .ok (int (Int.fmod m n))

/-- The remainder of two floating-point numbers. -/
def modFloats (mark : Nat) (x y : Float) : Except Fault Value :=
  if y == 0 then .error .floatModuloZero
  else .ok (ofFloat mark (Number.Binary64.modulo x y))

/-- The remainder of two values, or a template filled from the second one. -/
def mod (slots : Array Value) (mark : Nat) (a b : Value) : Except Fault Value :=
  match a with
  | text template => do return text (← Template.fill slots template b)
  | _ => onNumbers "%" modInts (modFloats mark) a b

/-- The negative of a value. -/
def negate (mark : Nat) (a : Value) : Except Fault Value :=
  match a.scalar? with
  | some (.int n) => .ok (int (-n))
  | some (.float x) => .ok (ofFloat mark (-x))
  | Option.none => .error (.noNegative a.kindName)

end Value
end ThreadedForth
