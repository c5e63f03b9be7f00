import ThreadedForth.Value.Order

/-!
# The text of a value

A value has two texts.  Its *literal* text is how it is shown inside a list or in a
fault: texts are quoted.  Its *plain* text is how it is printed: a text is printed
as it is, and any other value as its literal text.

A cell shows what its slot holds, so the text of a value depends on the slots, and
a value can lead back to itself through a slot.  A list or tuple that is met again
while it is being shown, which its mark tells, is abbreviated by three dots between
its brackets.  A slot
that leads back to itself without passing a list or tuple would be shown for ever;
`maxNesting` bounds the depth that is followed.

Not every value has a text: an integer with more digits than the limit has none.
-/

namespace ThreadedForth
namespace Value

/-- The depth to which the text of a value is followed. -/
def maxNesting : Nat := 1000

/-- The decimal text of an integer, or the fault of one that has too many digits. -/
def decimalText (n : Int) : Except Fault String :=
  match Number.decimal? n with
  | some s => .ok s
  | Option.none => .error (.tooManyDigits Option.none)

/-- Texts with a comma and a blank between them. -/
def commaSeparated (texts : List String) : String := String.intercalate ", " texts

/-- The text of a list whose items have the given texts. -/
def listText (texts : List String) : String := "[" ++ commaSeparated texts ++ "]"

/-- The text of a tuple whose items have the given texts.  A single item is followed
by a comma, which makes it a tuple. -/
def tupleText : List String → String
  | [single] => "(" ++ single ++ ",)"
  | texts => "(" ++ commaSeparated texts ++ ")"

/-- The literal text of a value, followed to the depth `nesting`.  `inside` holds the
marks of the lists and tuples that are being shown. -/
def literalWithin (slots : Array Value) : Nat → List Nat → Value → Except Fault String
  | 0, _, _ => .error .exhausted
  | _ + 1, _, none => .ok "None"
  | _ + 1, _, bool b => .ok (if b then "True" else "False")
  | _ + 1, _, int n => decimalText n
  | _ + 1, _, float x => .ok (Number.floatText x)
  | _ + 1, _, nan _ => .ok (Number.floatText Number.Binary64.nan)
  | _ + 1, _, text s => .ok (Text.quoted s)
  | nesting + 1, inside, list mark items =>
    if mark ∈ inside then .ok "[...]"
    else do
      let texts ← items.mapM (literalWithin slots nesting (mark :: inside))
      return listText texts
  | nesting + 1, inside, tuple mark items =>
    if mark ∈ inside then .ok "(...)"
    else do
      let texts ← items.mapM (literalWithin slots nesting (mark :: inside))
      return tupleText texts
  | nesting + 1, inside, cell slot => do
    let held ← literalWithin slots nesting inside (slots.getD slot none)
    return "<DataCell " ++ held ++ ">"

/-- The literal text of a value. -/
def literal (slots : Array Value) (v : Value) : Except Fault String :=
  literalWithin slots maxNesting [] v

/-- The literal text of a tuple that has the given items and that nothing leads back
to. -/
def literalRow (slots : Array Value) (items : List Value) : Except Fault String := do
  return tupleText (← items.mapM (literal slots))

/-- The plain text of a value. -/
def plain (slots : Array Value) : Value → Except Fault String
  | text s => .ok s
  | v => literal slots v

/-- The plain text of a value in which a whole floating-point number appears without
its fraction. -/
def brief (slots : Array Value) (v : Value) : Except Fault String :=
  match v with
  | float x =>
    match Number.Binary64.ofFloat x with
    | .finite negative m e =>
      if Number.Binary64.isWhole m e then
        decimalText (Number.Binary64.truncate negative m e)
      else plain slots v
    | _ => plain slots v
  | _ => plain slots v

/-- A fault that quotes a value by its literal text.  When the value has no text, the
lack of one is the fault. -/
def quoting (slots : Array Value) (v : Value) (fault : String → Fault) : Fault :=
  match literal slots v with
  | .ok shown => fault shown
  | .error missing => missing

end Value
end ThreadedForth
