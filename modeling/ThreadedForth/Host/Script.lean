import ThreadedForth.Host.Signature
import ThreadedForth.Source.Token

/-!
# Host callables

A host callable extends the machine with an action from outside.  When it is
called it takes a number of arguments, works on the machine through the machine's
own operations, and answers with a value.  Working on the machine includes running
words on it: a callable may be entered again from its own action.

The action is kept as a script, a list of operations in the order in which they
are carried out.  An operation that fails ends the script, unless a later one handles
failures: then the script goes on there, in the state that the failure has left.  Nothing
handles an interrupt.  The values in a script are made anew whenever it is carried out.
-/

namespace ThreadedForth
namespace Host

/-- One operation of a script. -/
inductive Action where
  /-- Pushes values. -/
  | push (values : List Value)
  /-- Feeds tokens to the machine. -/
  | run (tokens : List Token)
  /-- Feeds a source text to the machine. -/
  | execute (source : String)
  /-- Runs the word with this name. -/
  | executeWord (name : String)
  /-- Runs the code from this address on. -/
  | executeAddress (address : Value)
  /-- Drops the innermost return address. -/
  | dropReturn
  /-- Drops what is being run or compiled. -/
  | abort
  /-- Fails on purpose. -/
  | fail (fault : Fault)
  /-- Fails, with this text, unless the value on top of the data stack counts as true. -/
  | demand (text : String)
  /-- Handles the failure of an operation before it, and does nothing else. -/
  | handle
  deriving DecidableEq

/-- What a callable answers with. -/
inductive Answer where
  | nothing
  /-- The list of the arguments passed. -/
  | arguments
  /-- The number of return addresses. -/
  | returnDepth
  /-- The address of the next code cell, if code is running. -/
  | position
  /-- Whether the machine is compiling. -/
  | mode
  | value (v : Value)
  deriving DecidableEq

/-- A callable of the host. -/
structure Callable where
  label : Label
  signature : Signature
  script : List Action
  answer : Answer
  deriving DecidableEq

end Host
end ThreadedForth
