import ThreadedForth.Session.Extension
import ThreadedForth.Session.Console

/-!
# Sessions

The operations by which a machine is used from outside, with host callables in
place.  Each takes the machine and ends with an outcome.
-/

namespace ThreadedForth
namespace Session

/-- Feeds tokens. -/
def run (tokens : List Token) (m : Machine) : Outcome Unit := m.run Host.caller tokens

/-- Feeds one token. -/
def interpret (token : Token) (m : Machine) : Outcome Unit := m.interpret Host.caller token

/-- Feeds a source text. -/
def execute (source : String) (m : Machine) : Outcome Unit := m.execute Host.caller source

/-- Runs the word that a name means. -/
def executeWord (name : String) (m : Machine) : Outcome Unit := m.executeWord Host.caller name

/-- Runs the code from an address on. -/
def executeAddress (address : Value) (m : Machine) : Outcome Unit :=
  m.executeAddress Host.caller address

/-- Feeds values, which are pushed or, while the machine compiles, compiled. -/
def feed (values : List Value) (m : Machine) : Outcome Unit :=
  if values = [] then .done () m else run [.batch values] m

/-- Makes a colon definition from tokens. -/
def define (name : Value) (tokens : List Token) (m : Machine) : Outcome Unit :=
  run (.batch [name] :: .word "define" :: tokens ++ [.word "return"]) m

/-- Pushes values. -/
def push (values : List Value) (m : Machine) : Outcome Unit := .done () (m.pushAll values)

/-- Runs a routine on the store. -/
def onStore {α : Type} (r : Routine Store α) (m : Machine) : Outcome α := .ofRoutine m (r m.toStore)

/-- Takes values off the data stack. -/
def pop (count : Value) (m : Machine) : Outcome Value := onStore (Routine.pop count) m

/-- The value on top of the data stack. -/
def peek (m : Machine) : Outcome Value := .ofExcept m m.toStore.peek

/-- Gathers values into a list. -/
def gather (count : Value) (m : Machine) : Outcome Unit := onStore (Routine.gather count) m

/-- Removes a value from inside the data stack. -/
def pluck (index : Value) (m : Machine) : Outcome Value := onStore (Routine.pluck index) m

/-- Reads a value inside the data stack. -/
def pick (index : Value) (m : Machine) : Outcome Value := .ofExcept m (m.toStore.pick index)

/-- Empties the data stack. -/
def clear (m : Machine) : Outcome Unit := onStore Routine.clear m

/-- Exchanges the two values on top. -/
def swap (m : Machine) : Outcome Unit := onStore Routine.swap m

/-- Drops the value on top. -/
def drop (m : Machine) : Outcome Unit := onStore Routine.drop m

/-- Replaces a list or tuple on top by its items. -/
def spread (m : Machine) : Outcome Unit := onStore Routine.spread m

/-- Drops what is being run or compiled. -/
def abort (m : Machine) : Outcome Unit := .done () m.abort

/-- The entry that a value means as a name.  Only texts are names. -/
def lookup (name : Value) (m : Machine) : Outcome Nat :=
  match name with
  | .text s => .ofExcept m (m.toStore.lookup s)
  | _ => .failed (name.quoting m.slots .undefinedWord) m

/-- Switches compiling on or off, and nothing else. -/
def setCompiling (on : Bool) (m : Machine) : Outcome Unit :=
  .done () { m with compiling := on }

/-- Appends a cell that is handed in as a row of values. -/
def appendCell (items : List Value) (m : Machine) : Outcome Unit :=
  .done () (m.append (Cell.ofItems items))

/-- How a machine is shown. -/
def describe (m : Machine) : String :=
  let depth := m.stack.depth
  let names := m.dictionary.nameCount
  s!"<InteractiveForth depth={depth} words={names}>"

/-- A dialogue at the console. -/
def converse (d : Console.Display) (script : List Console.Input) (m : Machine) : Outcome Unit :=
  Console.dialogue d script m

end Session
end ThreadedForth
