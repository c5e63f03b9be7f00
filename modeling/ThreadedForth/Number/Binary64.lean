/-!
# Binary floating point, exactly

A floating-point number is a significand times a power of two.  This module takes
numbers apart into that form and puts them together again by rounding an exact
quotient, so that every conversion between integers, decimals and floating point
is one exact computation followed by one rounding.

`roundQuotient num den` is the rounding.  It looks for the exponent at which the
quotient has fifty-three significant bits (or for the least exponent, when the
quotient is too small for that), divides, and lets a half go to the even
neighbour.  Since the significand of a number and its exponent stand next to each
other in the sixty-four bits, a carry out of the significand steps the exponent by
itself, and a carry past the greatest exponent is the overflow.

The remainder of two floating-point numbers is exact too: both are integers over a
common power of two, and the remainder of the integers is again representable.
-/

namespace ThreadedForth
namespace Number

/-- What the bits of a floating-point number stand for. -/
inductive Binary64 where
  /-- The number `significand * 2 ^ exponent`, with a sign of its own, since zero
  has two. -/
  | finite (negative : Bool) (significand : Nat) (exponent : Int)
  | infinite (negative : Bool)
  | notANumber
  deriving DecidableEq, Repr

namespace Binary64

/-- The least exponent a significand is scaled by. -/
def minExponent : Int := -1074

/-- The greatest bit of a significand, which has fifty-three: two to the power of
fifty-two.  The bits of the exponent begin above it. -/
def leadingBit : Nat := 0x10000000000000

/-- The bit of the sign: two to the power of sixty-three. -/
def signBit : Nat := 0x8000000000000000

/-- The bits of positive infinity: all bits of the exponent and none of the
significand. -/
def infinityBits : Nat := 0x7FF * leadingBit

/-- Takes a floating-point number apart. -/
def ofFloat (x : Float) : Binary64 :=
  let bits := x.toBits.toNat
  let negative := decide (signBit ≤ bits)
  let exponent := bits / leadingBit % 2048
  let fraction := bits % leadingBit
  if exponent = 2047 then
    if fraction = 0 then .infinite negative else .notANumber
  else if exponent = 0 then .finite negative fraction minExponent
  else .finite negative (leadingBit + fraction) (minExponent + (exponent - 1 : Nat))

/-- The floating-point number with the given sign and the given other bits. -/
def assemble (negative : Bool) (bits : Nat) : Float :=
  Float.ofBits (UInt64.ofNat (if negative then signBit + bits else bits))

/-- The quotient of `num` and `den` rounded to the nearest integer, a half going to
the even neighbour. -/
def divNearest (num den : Nat) : Nat :=
  let q := num / den
  let r := num % den
  if 2 * r < den then q
  else if 2 * r = den then q + q % 2
  else q + 1

/-- The exponent at which the quotient of two positive numbers has fifty-three
significant bits, or the least exponent if that one is greater.  The first guess,
from the lengths of the two numbers, is right or one too small. -/
def exponentFor (num den : Nat) : Int :=
  let guess : Int := (num.log2 : Int) - (den.log2 : Int) - 53
  let scaled :=
    if 0 ≤ guess then num / (den * Nat.pow 2 guess.toNat)
    else num * Nat.pow 2 (-guess).toNat / den
  let exponent := if 2 * leadingBit ≤ scaled then guess + 1 else guess
  max exponent minExponent

/-- The bits of the non-negative number nearest to `num / den`, a half going to the
even neighbour, or `none` when that lies past the greatest number.  The
denominator is positive. -/
def roundQuotient (num den : Nat) : Option Nat :=
  if num = 0 then some 0
  else
    let exponent := exponentFor num den
    let significand :=
      if 0 ≤ exponent then divNearest num (den * Nat.pow 2 exponent.toNat)
      else divNearest (num * Nat.pow 2 (-exponent).toNat) den
    let bits := (exponent - minExponent).toNat * leadingBit + significand
    if infinityBits ≤ bits then none else some bits

/-- The floating-point number nearest to a signed quotient, or `none` when that
lies past the greatest number. -/
def ofQuotient? (negative : Bool) (num den : Nat) : Option Float :=
  (roundQuotient num den).map (assemble negative)

/-- The floating-point number nearest to an integer, or `none` when the integer is
too large. -/
def ofInt? (n : Int) : Option Float :=
  ofQuotient? (decide (n < 0)) n.natAbs 1

/-- A finite number as an integer over a power of two: the numerator without its
sign and the denominator. -/
def quotient (significand : Nat) (exponent : Int) : Nat × Nat :=
  if 0 ≤ exponent then (significand * Nat.pow 2 exponent.toNat, 1)
  else (significand, Nat.pow 2 (-exponent).toNat)

/-- A finite number with its fraction cut off. -/
def truncate (negative : Bool) (significand : Nat) (exponent : Int) : Int :=
  let (num, den) := quotient significand exponent
  let magnitude : Int := (num / den : Nat)
  if negative then -magnitude else magnitude

/-- Whether a finite number is a whole number. -/
def isWhole (significand : Nat) (exponent : Int) : Bool :=
  let (num, den) := quotient significand exponent
  num % den = 0

/-- Positive or negative zero. -/
def signedZero (negative : Bool) : Float := assemble negative 0

/-- Positive or negative infinity. -/
def infinity (negative : Bool) : Float := assemble negative infinityBits

/-- The number that is no number. -/
def nan : Float := Float.ofBits 0x7FF8000000000000

/-- The remainder of a division that cuts the quotient off, which has the sign of
the dividend.  It is exact. -/
def remainder (x y : Float) : Float :=
  match ofFloat x, ofFloat y with
  | .finite negative m e, .finite _ n f =>
    let common := min e f
    let dividend := m * Nat.pow 2 (e - common).toNat
    let divisor := n * Nat.pow 2 (f - common).toNat
    if divisor = 0 then nan
    else
      let (num, den) := quotient (dividend % divisor) common
      (ofQuotient? negative num den).getD nan
  | .finite _ _ _, .infinite _ => x
  | _, _ => nan

/-- The remainder of a division that rounds the quotient down, which has the sign
of the divisor, also when it is zero.  The divisor is not zero. -/
def modulo (x y : Float) : Float :=
  let r := remainder x y
  if r == 0 then signedZero (decide (y < 0))
  else if (decide (y < 0)) != (decide (r < 0)) then r + y
  else r

/-- The order of an integer and a quotient with a positive denominator. -/
def compareQuotient (n : Int) (num : Int) (den : Nat) : Ordering :=
  compare (n * den) num

/-- The order of an integer and a floating-point number, found without rounding.
There is none when the second is no number. -/
def compareInt (n : Int) (x : Float) : Option Ordering :=
  match ofFloat x with
  | .finite negative significand exponent =>
    let (num, den) := quotient significand exponent
    let signed : Int := if negative then -(num : Int) else num
    some (compareQuotient n signed den)
  | .infinite negative => some (if negative then .gt else .lt)
  | .notANumber => none

end Binary64
end Number
end ThreadedForth
