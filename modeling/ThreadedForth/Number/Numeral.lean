import ThreadedForth.Fault
import ThreadedForth.Text.Blank
import ThreadedForth.Text.Digit
import ThreadedForth.Text.Quoted

/-!
# Numerals

The spellings of numbers.  A numeral is, in this order of preference,

* an integer in base sixteen, eight or two: an optional sign, a base mark (a zero
  and one of the letters `x`, `o`, `b`), and digits of that base;
* an integer in base ten: an optional sign and decimal digits;
* a decimal with a point or an exponent.

Wherever two digits stand next to each other a single underscore may stand between
them, and one may follow the base mark.  Decimal digits may come from any script.
Padding on either side is dropped.  A text with a base mark is an integer or
nothing; an integer in base ten with more digits than the limit is read as a
decimal instead.  The words for infinity and for no number are decimals as well,
but a source text cannot spell them: `read` wants a digit.

Integers are read exactly.  A decimal is the floating-point number nearest to the
exact quotient that it spells.
-/

namespace ThreadedForth
namespace Number

/-- A number that a numeral can spell. -/
inductive Scalar where
  | int (n : Int)
  | float (x : Float)
  deriving DecidableEq

namespace Numeral

/-! ## Signs and digits -/

/-- Splits a sign off: whether it is a minus, and the rest. -/
def splitSign : List Char → Bool × List Char
  | '-' :: rest => (true, rest)
  | '+' :: rest => (false, rest)
  | text => (false, text)

/-- A magnitude with its sign. -/
def signed (negative : Bool) (magnitude : Nat) : Int :=
  if negative then -(magnitude : Int) else magnitude

/-- Reads a whole text as digits with single underscores between them. -/
def digits? (digit? : Char → Option Nat) : List Char → Option (List Nat)
  | [] => none
  | c :: rest =>
    match digit? c with
    | none => none
    | some d =>
      match rest with
      | [] => some [d]
      | '_' :: tail => (digits? digit? tail).map (d :: ·)
      | tail => (digits? digit? tail).map (d :: ·)

/-- Whether a text begins with a decimal digit. -/
def startsWithDigit : List Char → Bool
  | [] => false
  | c :: _ => (Text.decimalDigit? c).isSome

/-- Splits off the longest run of decimal digits with single underscores between
them. -/
def spanDigits : List Char → List Nat × List Char
  | [] => ([], [])
  | c :: rest =>
    match Text.decimalDigit? c with
    | none => ([], c :: rest)
    | some d =>
      match rest with
      | '_' :: tail =>
        if startsWithDigit tail then
          let (ds, after) := spanDigits tail
          (d :: ds, after)
        else ([d], '_' :: tail)
      | tail =>
        let (ds, after) := spanDigits tail
        (d :: ds, after)

/-- The number that digits spell in a base, the most significant digit first. -/
def valueOf (base : Nat) (digits : List Nat) : Nat :=
  digits.foldl (fun value d => value * base + d) 0

/-! ## Integers -/

/-- The first two hundred characters of a text between quotes. -/
def excerpt (text : List Char) : String :=
  String.ofList ((Text.quoted (String.ofList text)).toList.take 200)

/-- Reads an integer in base ten.  The digits are counted before anything behind them
is looked at, except that an underscore there belongs to them and stands wrong. -/
def readInteger (text : List Char) : Except Fault Int :=
  let (negative, body) := splitSign (Text.trimBy Text.isPadding text)
  let refused := Fault.notAnIntegerText (excerpt text)
  match spanDigits body with
  | (_, '_' :: _) => .error refused
  | (digits, rest) =>
    if digitLimit < digits.length then .error (.tooManyDigits digits.length)
    else if digits = [] ∨ rest ≠ [] then .error refused
    else .ok (signed negative (valueOf 10 digits))

/-- The base that the letter of a base mark stands for. -/
def markedBase? (c : Char) : Option Nat :=
  if c = 'x' ∨ c = 'X' then some 16
  else if c = 'o' ∨ c = 'O' then some 8
  else if c = 'b' ∨ c = 'B' then some 2
  else none

/-- Splits a base mark off: the base, and the digits after the mark. -/
def splitMark? : List Char → Option (Nat × List Char)
  | '0' :: c :: rest => (markedBase? c).map fun base => (base, rest)
  | _ => none

/-- Reads what follows a base mark. -/
def readMarked? (base : Nat) (body : List Char) : Option Nat :=
  let unpadded := (body.reverse.dropWhile Text.isPadding).reverse
  let digits := match unpadded with
    | '_' :: rest => rest
    | rest => rest
  (digits? (Text.baseDigit? base) digits).map (valueOf base)

/-! ## Decimals -/

/-- Reads the exponent of a decimal, which ends the text. -/
def readExponent? : List Char → Option Int
  | [] => some 0
  | c :: rest =>
    if c = 'e' ∨ c = 'E' then
      let (negative, body) := splitSign rest
      match spanDigits body with
      | ([], _) => none
      | (digits, []) => some (signed negative (valueOf 10 digits))
      | _ => none
    else none

/-- The floating-point number nearest to `digits * 10 ^ exponent`, infinite when
that lies past the greatest number.  Where the place of the first digit alone
decides the result, the power of ten is not computed. -/
def nearest (negative : Bool) (digits : List Nat) (exponent : Int) : Float :=
  let significant := digits.dropWhile (· = 0)
  let place : Int := significant.length + exponent
  if significant = [] ∨ place < -400 then Binary64.signedZero negative
  else if 400 < place then Binary64.infinity negative
  else
    let m := valueOf 10 significant
    let (num, den) :=
      if 0 ≤ exponent then (m * Nat.pow 10 exponent.toNat, 1)
      else (m, Nat.pow 10 (-exponent).toNat)
    (Binary64.ofQuotient? negative num den).getD (Binary64.infinity negative)

/-- An ASCII letter in lower case; any other character as it is. -/
def lower (text : List Char) : List Char := text.map Char.toLower

/-- Reads a decimal, or one of the words for infinity and for no number. -/
def readFloat? (text : List Char) : Option Float :=
  let (negative, body) := splitSign (Text.trimBy Text.isPadding text)
  if lower body = "inf".toList ∨ lower body = "infinity".toList then
    some (Binary64.infinity negative)
  else if lower body = "nan".toList then some Binary64.nan
  else
    let (whole, rest) := spanDigits body
    let (fraction, rest) := match rest with
      | '.' :: tail => spanDigits tail
      | tail => ([], tail)
    if whole = [] ∧ fraction = [] then none
    else (readExponent? rest).map fun exponent =>
      nearest negative (whole ++ fraction) (exponent - fraction.length)

/-! ## Numerals -/

/-- Whether a text begins with a word for infinity or for no number. -/
def startsWithSymbol (body : List Char) : Bool :=
  "inf".toList.isPrefixOf (lower body) || "nan".toList.isPrefixOf (lower body)

/-- Reads a numeral. -/
def read (text : List Char) : Except Fault Scalar :=
  if text = [] then .error .emptyNumeral
  else
    let (negative, body) := splitSign text
    let refused := Fault.notANumeral (String.ofList text)
    match splitMark? body with
    | some (base, digits) =>
      match readMarked? base digits with
      | some magnitude => .ok (.int (signed negative magnitude))
      | none => .error refused
    | none =>
      match readInteger text with
      | .ok n => .ok (.int n)
      | .error _ =>
        if body.any Text.isDigit && !startsWithSymbol body then
          match readFloat? text with
          | some x => .ok (.float x)
          | none => .error refused
        else .error refused

end Numeral
end Number
end ThreadedForth
