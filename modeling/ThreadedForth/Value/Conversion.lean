import ThreadedForth.Value.Display

/-!
# Values as integers

The conversion of any value that a word meets to an integer.
-/

namespace ThreadedForth
namespace Value

/-- The integer part of a floating-point number. -/
def floatToInteger (x : Float) : Except Fault Int :=
  match Number.Binary64.ofFloat x with
  | .finite negative m e => .ok (Number.Binary64.truncate negative m e)
  | .infinite _ => .error .infinityToInteger
  | .notANumber => .error .notANumberToInteger

/-- The integer of a value: of a number its integer part, of a text the integer that
it spells. -/
def toInteger : Value → Except Fault Int
  | int n => .ok n
  | bool b => .ok (if b then 1 else 0)
  | float x => floatToInteger x
  | nan _ => .error .notANumberToInteger
  | text s => Number.Numeral.readInteger s.toList
  | v => .error (.noInteger v.kindName)

end Value
end ThreadedForth
