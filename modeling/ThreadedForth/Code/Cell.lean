import ThreadedForth.Value.Arithmetic

/-!
# Code cells

Compiled code is a row of cells.  All code shares one row, the code space, and a
body is a stretch of it that is entered at its address and left at an exit.

A cell refers to a native or created word by its number in the dictionary, and to a
colon word by the address of its code, so that a later definition of the same name
changes nothing in code that exists.

A cell can also be handed in from outside as a row of values.  `Cell.ofItems` reads
the rows that spell an instruction; any other row becomes a `foreign` cell.  Such a
cell is still tried when it is reached, by what its first item says, and goes as
far as its other items allow.
-/

namespace ThreadedForth

/-- One cell of compiled code. -/
inductive Cell where
  /-- Calls the native word with this number. -/
  | native (entry : Nat)
  /-- Pushes values. -/
  | literal (values : List Value)
  /-- Runs the code at an address, which belongs to the word of this name. -/
  | call (address : Int) (name : String)
  /-- Pushes the slot of the created word with this number, and runs its behavior. -/
  | created (entry : Nat)
  /-- Gives the word created last the behavior at an address. -/
  | does (address : Int)
  /-- Leaves the body. -/
  | exit
  /-- A row of values that spells no instruction. -/
  | foreign (items : List Value)
  deriving DecidableEq

namespace Cell

/-- The cell that a row of values spells. -/
def ofItems : List Value → Cell
  | [.text "exit"] => exit
  | [.text "literal", .tuple _ values] => literal values
  | [.text "call", .int address, .text name] => call address name
  | [.text "does", .int address] => does address
  | items => foreign items

/-- The values of a literal cell together with further ones.  A cell that is handed in
as a literal one must hold a tuple to be joined. -/
def openValues (cell : Cell) (added : List Value) : Except Fault (Option (List Value)) :=
  match cell with
  | literal values => .ok (some (values ++ added))
  | foreign [] => .error .cellTooShort
  | foreign [.text "literal"] => .error .cellTooShort
  | foreign (.text "literal" :: v :: _) =>
    match v with
    | .tuple _ values => .ok (some (values ++ added))
    | .text _ | .list .. => .error (.notJoinable v.kindName "tuple")
    | _ => .error (.unsupportedOperands "+" v.kindName "tuple")
  | _ => .ok none

end Cell
end ThreadedForth
