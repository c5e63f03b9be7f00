import ThreadedForth.Session.Basic

/-!
# A session as a list of operations

Everything that can be done to a machine from outside is an `Operation`, and a
session is a list of them.  An operation that fails does not end the session: the
next one finds the machine as the failed one has left it.

The values that come with an operation are not yet values of the machine.  They are
copied first (`Operation.copy`), so that whatever two operations bring along, or one
operation brings along twice, is made apart.  An operation that brings along a cell
that is not there, or a mapping that cannot be, fails at this point.

`Operation.perform` carries an operation out.  `Session.outcomes` tells how each
operation of a session ends, and `Session.play` in what state the session leaves the
machine.
-/

namespace ThreadedForth
namespace Session

/-- Something done to a machine from outside. -/
inductive Operation where
  /-- Feeds a source text. -/
  | execute (source : String)
  /-- Feeds tokens. -/
  | run (tokens : List Token)
  /-- Feeds one token. -/
  | interpret (token : Token)
  /-- Makes a colon definition from tokens. -/
  | define (name : Value) (tokens : List Token)
  /-- Feeds values. -/
  | feed (values : List Value)
  /-- Pushes values, also while the machine compiles. -/
  | push (values : List Value)
  /-- Takes values off the data stack. -/
  | pop (count : Value)
  /-- Gathers values into a list. -/
  | gather (count : Value)
  /-- Removes a value from inside the data stack. -/
  | pluck (index : Value)
  /-- Reads a value inside the data stack. -/
  | pick (index : Value)
  /-- Reads the value on top of the data stack. -/
  | peek
  /-- Counts the data stack. -/
  | depth
  /-- Empties the data stack. -/
  | clear
  /-- Exchanges the two values on top. -/
  | swap
  /-- Drops the value on top. -/
  | drop
  /-- Replaces a list or tuple on top by its items. -/
  | spread
  /-- Asks for the address of the next compiled cell. -/
  | here
  /-- Drops what is being run or compiled. -/
  | abort
  /-- Asks for the entry that a value means as a name. -/
  | lookup (name : Value)
  /-- Runs the word that a name means. -/
  | executeWord (name : String)
  /-- Runs the code from an address on. -/
  | executeAddress (address : Value)
  /-- Registers a callable. -/
  | defineNative (name : Value) (item : Host.Item) (options : Host.Options)
  /-- Registers a value. -/
  | defineConstant (name value : Value)
  /-- Registers the items of a mapping. -/
  | importMapping (pairs : List (Value × Host.Item))
  /-- Registers the public attributes of an object. -/
  | importObject (attributes : List (String × Host.Attribute))
  /-- Switches compiling on or off, and nothing else. -/
  | setCompiling (on : Bool)
  /-- Appends a cell that is handed in as a row of values. -/
  | appendCell (items : List Value)
  /-- Asks how the machine is shown. -/
  | describe
  /-- Holds a dialogue at the console. -/
  | converse (d : Console.Display) (script : List Console.Input)

/-- What an operation returns. -/
inductive Result where
  /-- The machine itself, ready for the next operation. -/
  | itself
  /-- A value, which may be the absent one. -/
  | value (v : Value)
  /-- An entry of the dictionary. -/
  | entry (number : Nat)
  /-- Several entries of the dictionary. -/
  | entries (numbers : List Nat)
  deriving DecidableEq

namespace Result

/-- An operation that returns the machine. -/
def ofSelf (o : Outcome Unit) : Outcome Result := o.map fun () => itself

/-- An operation that returns nothing. -/
def ofNothing (o : Outcome Unit) : Outcome Result := o.map fun () => value .none

/-- An operation that returns a value. -/
def ofValue (o : Outcome Value) : Outcome Result := o.map value

/-- An operation that returns an entry. -/
def ofEntry (o : Outcome Nat) : Outcome Result := o.map entry

/-- An operation that returns entries. -/
def ofEntries (o : Outcome (List Nat)) : Outcome Result := o.map entries

end Result

namespace Operation

/-- An operation with its values copied. -/
def copy (slots : Nat) : Operation → Value.Marking Operation
  | run tokens => do return run (← tokens.mapM (Token.copy slots))
  | interpret token => do return interpret (← token.copy slots)
  | define name tokens => do
    let own ← name.copy slots
    return define own (← tokens.mapM (Token.copy slots))
  | feed values => do return feed (← Value.copyAll slots values)
  | push values => do return push (← Value.copyAll slots values)
  | pop count => do return pop (← count.copy slots)
  | gather count => do return gather (← count.copy slots)
  | pluck index => do return pluck (← index.copy slots)
  | pick index => do return pick (← index.copy slots)
  | lookup name => do return lookup (← name.copy slots)
  | executeAddress address => do return executeAddress (← address.copy slots)
  | defineNative name item options => do
    let ownName ← name.copy slots
    let ownItem ← item.copy slots
    return defineNative ownName ownItem (← options.copy slots)
  | defineConstant name value => do
    let own ← name.copy slots
    return defineConstant own (← value.copy slots)
  | importMapping pairs => do
    return importMapping (← pairs.mapM fun (name, item) => Host.copyPair slots name item)
  | importObject attributes => do
    return importObject (← attributes.mapM fun (name, own) => do
      return (name, ← own.copy slots))
  | appendCell items => do return appendCell (← Value.copyAll slots items)
  | operation => pure operation

/-- Carries out an operation whose values are the machine's own. -/
def carryOut (m : Machine) : Operation → Outcome Result
  | execute source => Result.ofSelf (Session.execute source m)
  | run tokens => Result.ofSelf (Session.run tokens m)
  | interpret token => Result.ofSelf (Session.interpret token m)
  | define name tokens => Result.ofSelf (Session.define name tokens m)
  | feed values => Result.ofSelf (Session.feed values m)
  | push values => Result.ofSelf (Session.push values m)
  | pop count => Result.ofValue (Session.pop count m)
  | gather count => Result.ofNothing (Session.gather count m)
  | pluck index => Result.ofValue (Session.pluck index m)
  | pick index => Result.ofValue (Session.pick index m)
  | peek => Result.ofValue (Session.peek m)
  | depth => .done (.value (.int m.stack.depth)) m
  | clear => Result.ofNothing (Session.clear m)
  | swap => Result.ofNothing (Session.swap m)
  | drop => Result.ofNothing (Session.drop m)
  | spread => Result.ofNothing (Session.spread m)
  | here => .done (.value (.int m.here)) m
  | abort => Result.ofSelf (Session.abort m)
  | lookup name => Result.ofEntry (Session.lookup name m)
  | executeWord name => Result.ofSelf (Session.executeWord name m)
  | executeAddress address => Result.ofSelf (Session.executeAddress address m)
  | defineNative name item options => Result.ofEntry (m.defineNative name item options)
  | defineConstant name value => Result.ofEntry (m.defineConstant name value)
  | importMapping pairs => Result.ofEntries (m.importMapping pairs)
  | importObject attributes => Result.ofEntries (m.importObject attributes)
  | setCompiling on => Result.ofNothing (Session.setCompiling on m)
  | appendCell items => Result.ofNothing (Session.appendCell items m)
  | describe => .done (.value (.text (Session.describe m))) m
  | converse d script => Result.ofSelf (Session.converse d script m)

/-- Carries out an operation. -/
def perform (m : Machine) (operation : Operation) : Outcome Result :=
  (m.marking (operation.copy m.slots.size)).bind fun own ready => own.carryOut ready

end Operation

/-- How the operations of a session end, one after another. -/
def outcomes : List Operation → Machine → List (Outcome Result)
  | [], _ => []
  | operation :: rest, m =>
    let ended := operation.perform m
    ended :: outcomes rest ended.machine

/-- The state in which a session leaves the machine. -/
def play (session : List Operation) (m : Machine) : Machine :=
  session.foldl (fun m operation => (operation.perform m).machine) m

end Session
end ThreadedForth
