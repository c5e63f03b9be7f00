import ThreadedForth.Number.Binary64

/-!
# The shortest decimal that reads back

Every floating-point number stands for an interval of reals: those that round to
it.  Its text is the decimal with the fewest digits inside that interval and, of
several such, the one nearest to the number; an exact tie goes to the even digit.

The search is the plain one.  For one digit, two digits, and so on up to
seventeen, it takes the two neighbours of the number on the grid of decimals with
that many digits, and the first grid with a neighbour inside the interval wins.
No other point of the grid needs to be tried: if any of them lies in the interval,
so does one of the two neighbours.  All of it is done in integers.  The unit is a
quarter of the distance between the number and its successor, because the interval
ends half a distance above and, below a power of two, a quarter below.
-/

namespace ThreadedForth
namespace Number

/-- A decimal: `digits * 10 ^ exponent`. -/
structure Decimal where
  digits : Nat
  exponent : Int
  deriving DecidableEq, Repr

namespace Decimal

/-- Drops the trailing zeros of the digits, at most `count` of them, and raises the
exponent instead. -/
def trim : Nat → Decimal → Decimal
  | 0, d => d
  | count + 1, d =>
    if d.digits ≠ 0 ∧ d.digits % 10 = 0 then trim count ⟨d.digits / 10, d.exponent + 1⟩ else d

/-- Whether `num / den` is below `10 ^ k`. -/
def belowPowerOfTen (num den : Nat) (k : Int) : Bool :=
  if 0 ≤ k then num < den * Nat.pow 10 k.toNat else num * Nat.pow 10 (-k).toNat < den

/-- The number of digits of the positive quotient `num / den` before its point, or
minus the number of zeros after it.  The estimate from the binary lengths is off
by at most two. -/
def magnitude (num den : Nat) : Int :=
  let guess : Int := ((num.log2 : Int) - (den.log2 : Int)) * 30103 / 100000
  (([guess - 1, guess, guess + 1].find? (belowPowerOfTen num den)).getD (guess + 2))

/-- The neighbours of a number on the grid of decimals of exponent `exponent` that
lie in the number's interval, the nearer one if both do.  The number is `4 * m`
quarters, its interval runs from `low` to `high` quarters, and a quarter is
`quarter.1 / quarter.2`; `closed` says whether the ends belong to it. -/
def onGrid (m low high : Nat) (closed : Bool) (quarter : Nat × Nat) (exponent : Int) :
    Option Decimal :=
  let scale := quarter.1 * (if exponent < 0 then Nat.pow 10 (-exponent).toNat else 1)
  let step := quarter.2 * (if exponent < 0 then 1 else Nat.pow 10 exponent.toNat)
  let target := 4 * m * scale
  let inside (point : Nat) : Bool :=
    if closed then low * scale ≤ point * step && point * step ≤ high * scale
    else low * scale < point * step && point * step < high * scale
  let below := target / step
  let gapBelow := target - below * step
  let gapAbove := (below + 1) * step - target
  let choice :=
    match inside below, inside (below + 1) with
    | true, true =>
      if gapBelow < gapAbove then some below
      else if gapAbove < gapBelow then some (below + 1)
      else some (below + below % 2)
    | true, false => some below
    | false, true => some (below + 1)
    | false, false => none
  choice.map fun point => ⟨point, exponent⟩

/-- The shortest decimal that reads back as `m * 2 ^ e`, for a positive `m`. -/
def shortest (m : Nat) (e : Int) : Decimal :=
  let quarter := Binary64.quotient 1 (e - 2)
  let narrow := m = Binary64.leadingBit && e ≠ Binary64.minExponent
  let low := 4 * m - (if narrow then 1 else 2)
  let high := 4 * m + 2
  let k := magnitude (4 * m * quarter.1) quarter.2
  let found := (List.range 17).findSome? fun i =>
    onGrid m low high (m % 2 = 0) quarter (k - (i + 1 : Nat))
  trim 20 (found.getD ⟨m, e⟩)

end Decimal
end Number
end ThreadedForth
