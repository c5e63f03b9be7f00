import ThreadedForth.Number.Positional
import ThreadedForth.Number.Shortest

/-!
# How numbers are written

Integers are written in decimal, up to a limit on the number of digits: a longer
integer has no decimal text at all.  Floating-point numbers are written with the
fewest digits that read back, positionally when the decimal point falls between
three zeros after it and sixteen digits before it, and with an exponent of at
least two digits otherwise.  A whole number keeps one zero after its point.

Where a number of digits is asked for, a number is rounded to it, a half going to the
even neighbour: to digits behind the point (`fixedText`), to significant digits
(`scientificText`), or to whichever of the two is shorter (`generalText`).
-/

namespace ThreadedForth
namespace Number

/-- The greatest number of decimal digits an integer is written or read with. -/
def digitLimit : Nat := 4300

/-- The least magnitude that has too many digits. -/
def decimalBound : Nat := Nat.pow 10 digitLimit

/-- The decimal text of an integer, unless it has too many digits. -/
def decimal? (n : Int) : Option String :=
  if decimalBound ≤ n.natAbs then none
  else
    let digits := Positional.digits 10 n.natAbs
    some (String.ofList (if n < 0 then '-' :: digits else digits))

theorem isSome_decimal? {n : Int} : (decimal? n).isSome = true ↔ n.natAbs < decimalBound := by
  unfold decimal?
  by_cases long : decimalBound ≤ n.natAbs
  · rw [if_pos long]
    exact ⟨nofun, fun short => absurd long (Nat.not_le.mpr short)⟩
  · rw [if_neg long]
    exact ⟨fun _ => Nat.lt_of_not_le long, fun _ => rfl⟩

theorem lt_decimalBound_of_le_two {n : Nat} (small : n ≤ 2) : n < decimalBound :=
  Nat.lt_of_le_of_lt small (by decide +kernel)

/-- The hexadecimal text of an integer, with its sign before the base mark. -/
def hexadecimal (n : Int) : String :=
  let digits := '0' :: 'x' :: Positional.digits 16 n.natAbs
  String.ofList (if n < 0 then '-' :: digits else digits)

/-- The exponent of a number in scientific notation: a sign and at least two
digits. -/
def exponentText (n : Int) : List Char :=
  let digits := Nat.toDigits 10 n.natAbs
  let padded := List.replicate (2 - digits.length) '0' ++ digits
  'e' :: (if n < 0 then '-' else '+') :: padded

/-- The text of a positive decimal. -/
def decimalText (d : Decimal) : List Char :=
  let digits := Nat.toDigits 10 d.digits
  let point : Int := digits.length + d.exponent
  if -4 < point ∧ point ≤ 16 then
    if point ≤ 0 then
      '0' :: '.' :: List.replicate (-point).toNat '0' ++ digits
    else if (digits.length : Int) ≤ point then
      digits ++ List.replicate (point.toNat - digits.length) '0' ++ ['.', '0']
    else digits.take point.toNat ++ '.' :: digits.drop point.toNat
  else
    let body :=
      match digits with
      | first :: [] => [first]
      | first :: rest => first :: '.' :: rest
      | [] => []
    body ++ exponentText (point - 1)

/-- The text of a floating-point number. -/
def floatText (x : Float) : String :=
  match Binary64.ofFloat x with
  | .notANumber => "nan"
  | .infinite negative => if negative then "-inf" else "inf"
  | .finite negative m e =>
    let body := if m = 0 then ['0', '.', '0'] else decimalText (Decimal.shortest m e)
    String.ofList (if negative then '-' :: body else body)

/-! ## A given number of digits -/

/-- More digits than a floating-point number has, behind its point or from its first one
on.  Further ones are zeros. -/
def enoughDigits : Nat := 1100

/-- Digits with a point before the last `places` of them, and a zero where there would be
none before it.  If the point is the last character it stands only on demand. -/
def withPoint (demanded : Bool) (places : Nat) (digits : List Char) : List Char :=
  let padded := List.replicate (places + 1 - digits.length) '0' ++ digits
  let whole := padded.length - places
  let fraction := padded.drop whole
  padded.take whole ++ (if fraction.isEmpty && !demanded then [] else '.' :: fraction)

/-- A text without the zeros that end its fraction, and without the point if there is no
fraction left. -/
def dropZeros (text : List Char) : List Char :=
  if text.contains '.' then
    match text.reverse.dropWhile (· == '0') with
    | '.' :: whole => whole.reverse
    | kept => kept.reverse
  else text

/-- A quotient rounded to `places` digits behind the point. -/
def fixedText (demanded : Bool) (places num den : Nat) : List Char :=
  let exact := min places enoughDigits
  let digits := Positional.digits 10 (Binary64.divNearest (num * Nat.pow 10 exact) den)
  withPoint demanded places (digits ++ List.replicate (places - exact) '0')

/-- A quotient rounded to `count` significant digits, at least one: the digits, and the
power of ten that the first of them counts. -/
def significant (count num den : Nat) : List Char × Int :=
  if num = 0 then (List.replicate count '0', 0)
  else
    let exact := min count enoughDigits
    let zeros := List.replicate (count - exact) '0'
    let first := Decimal.magnitude num den - 1
    let last := first - (exact - 1 : Nat)
    let rounded :=
      if 0 ≤ last then Binary64.divNearest num (den * Nat.pow 10 last.toNat)
      else Binary64.divNearest (num * Nat.pow 10 (-last).toNat) den
    let digits := Positional.digits 10 rounded
    -- a row of nines is rounded up to a number with one digit more
    if exact < digits.length then (digits.take exact ++ zeros, first + 1)
    else (digits ++ zeros, first)

/-- A quotient with an exponent, rounded to `places` digits behind the point. -/
def scientificText (demanded : Bool) (places num den : Nat) : List Char :=
  let (digits, exponent) := significant (places + 1) num den
  withPoint demanded places digits ++ exponentText exponent

/-- A quotient rounded to `count` significant digits, positionally if its exponent is not
below minus four and less than the number of digits.  Zeros at the end of the fraction
are kept only on demand, and so is a point there. -/
def generalText (demanded : Bool) (count num den : Nat) : List Char :=
  let kept := if demanded then count else min count enoughDigits
  let (digits, exponent) := significant kept num den
  let finish := fun text => if demanded then text else dropZeros text
  if -4 ≤ exponent ∧ exponent < count then
    finish (withPoint demanded (kept - 1 - exponent).toNat digits)
  else finish (withPoint demanded (kept - 1) digits) ++ exponentText exponent

end Number
end ThreadedForth
