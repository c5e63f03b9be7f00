import ThreadedForth.Host.Script
import ThreadedForth.Value.Display

/-!
# Words

A dictionary entry is a name and what is behind it:

* a *native* word is an action with a fixed number of arguments, which it takes
  from the data stack;
* a *colon* word is the address of compiled code;
* a *created* word owns a slot for one value, and may have a behavior, which is the
  address of code that is run on the slot.  A behavior is absent until it is given;
  compiled code gives an integer, and code that was handed in may give any value,
  which then fails when it is to be run.

Native actions come in three sorts, and the sorting is the backbone of everything
that follows.  A `Primitive` works on the data stack, the slots, the dictionary and
the output.  It never touches the code, the return stack or the place of execution.
A `Directive` works on the code of the open definition.  It is immediate, so it is
never part of compiled code.  A host callable may do anything.

An entry that has been registered keeps everything but two things: it can be marked
as immediate, and a created word can be given another behavior.
-/

namespace ThreadedForth

/-- The native actions that leave code and execution alone. -/
inductive Primitive where
  | swap
  | drop
  | gather
  | spread
  | pluck
  | pick
  | depth
  | clear
  | define
  | load
  | store
  | create
  | add
  | sub
  | mul
  | div
  | mod
  | negate
  | equal
  | compare (comparison : Value.Comparison)
  | nop
  | print
  | dot
  | cr
  | emit
  | type
  /-- Yields a fixed value. -/
  | constant (v : Value)
  deriving DecidableEq

namespace Primitive

/-- The number of arguments a primitive takes from the data stack.  The words that
rearrange the stack in place take none. -/
def arity : Primitive → Nat
  | swap | drop | spread | depth | clear | nop | cr | constant _ => 0
  | gather | pluck | pick | define | load | create | negate | print | dot | emit | type => 1
  | store | add | sub | mul | div | mod | equal | compare _ => 2

end Primitive

/-- The native actions on the code of the open definition. -/
inductive Directive where
  /-- Ends the definition. -/
  | finish
  /-- Marks the open definition, or the word defined last, as immediate. -/
  | immediate
  /-- Compiles an exit. -/
  | exit
  /-- Compiles a value from the data stack. -/
  | literal
  /-- Ends the making of a word and begins its behavior. -/
  | does
  deriving DecidableEq, Repr

namespace Directive

/-- The number of arguments a directive takes from the data stack. -/
def arity : Directive → Nat
  | literal => 1
  | _ => 0

end Directive

/-- What a native word does. -/
inductive Action where
  | primitive (p : Primitive)
  | directive (d : Directive)
  | host (f : Host.Callable)
  deriving DecidableEq

/-- An action with the way it is called. -/
structure Native where
  action : Action
  /-- The number of values taken from the data stack as arguments. -/
  arity : Nat
  /-- Whether an absent result is pushed like any other. -/
  pushesNone : Bool
  deriving DecidableEq

/-- What is behind a name. -/
inductive Body where
  | native (native : Native)
  | colon (address : Nat)
  | created (slot : Nat) (behavior : Value)
  deriving DecidableEq

/-- A dictionary entry. -/
structure Word where
  name : String
  immediate : Bool
  body : Body
  deriving DecidableEq

namespace Word

/-- A text that is fit to be the name of a word: it is not blank. -/
abbrev Name : Type := { name : String // Text.allBlank name.toList = false }

/-- Reads a value as the name of a word. -/
def readName (slots : Array Value) (v : Value) : Except Fault Name :=
  match v with
  | .text name =>
    if valid : Text.allBlank name.toList = false then .ok ⟨name, valid⟩
    else .error (.invalidWordName (Text.quoted name))
  | _ => .error (v.quoting slots .invalidWordName)

/-- Checks that a value can name a word. -/
def checkName (slots : Array Value) (v : Value) : Except Fault String :=
  (readName slots v).map Subtype.val

theorem readName_text {slots : Array Value} {name : String}
    (valid : Text.allBlank name.toList = false) :
    readName slots (.text name) = .ok ⟨name, valid⟩ := dif_pos valid

theorem checkName_text {slots : Array Value} {name : String}
    (valid : Text.allBlank name.toList = false) : checkName slots (.text name) = .ok name := by
  rw [checkName, readName_text valid]
  rfl

/-- How a word is shown. -/
def describe (slots : Array Value) (w : Word) : String :=
  let flag := if w.immediate then " immediate" else ""
  let name := Text.quoted w.name
  match w.body with
  | .native n => s!"<Word {name} native/{n.arity}{flag}>"
  | .colon address => s!"<Word {name} @{address}{flag}>"
  | .created _ behavior =>
    let target := match behavior.plain slots with
      | .ok shown => shown
      | .error missing => missing.message
    s!"<Word {name} created does@{target}{flag}>"

end Word
end ThreadedForth
