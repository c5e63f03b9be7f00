import ThreadedForth.Machine.Run
import ThreadedForth.Source.Reader

/-!
# Feeding the machine

The machine is fed with tokens.  While it compiles, literals and words go to the end
of the code, immediate words excepted, which are run; otherwise literals go onto the
data stack and words are run.  The name of the open definition means the definition
itself, which is how a word calls itself.

A token that fails while a definition is open takes the definition with it.  An
interrupt does not.  Tokens are fed in order until one fails; a source text is read
as a whole before its first token is fed.
-/

namespace ThreadedForth
namespace Machine

/-- Compiles or pushes literals. -/
def interpretLiterals (values : List Value) (m : Machine) : Outcome Unit :=
  if m.compiling then
    match m.joinedLiterals values with
    | .ok joined => .done () (m.writeLiterals values joined)
    | .error f => .failed f m
  else .done () (m.pushAll values)

/-- The address of the open definition, when a name means it. -/
def ownAddress? (name : String) (m : Machine) : Option Nat :=
  match m.compiling, m.draft with
  | true, some draft => if draft.name = name then some draft.address else none
  | _, _ => none

/-- Compiles or runs the word that a name means. -/
def interpretName (call : Caller) (name : String) (m : Machine) : Outcome Unit :=
  match m.ownAddress? name with
  | some address => .done () (m.append (.call address name))
  | none =>
    match m.lookup name with
    | .error f => .failed f m
    | .ok entry =>
      match m.dictionary.get? entry with
      | none => .failed (.undefinedWord name) m
      | some w =>
        if m.compiling && !w.immediate then .done () (m.append (cellOf entry w))
        else m.executeEntry call entry

/-- Does what a token says. -/
def interpretToken (call : Caller) (m : Machine) : Token → Outcome Unit
  | .word name => m.interpretName call name
  | .datum v => m.interpretLiterals [v]
  | .batch values => m.interpretLiterals values
  | .malformed content => .failed (.notIterable content.kindName) m

/-- Drops the open definition if the machine is compiling. -/
def abandonIfCompiling (m : Machine) : Machine :=
  if m.compiling then { m with toStore := m.toStore.abandon } else m

/-- Feeds one token to the machine. -/
def interpret (call : Caller) (token : Token) (m : Machine) : Outcome Unit :=
  (m.interpretToken call token).onFault abandonIfCompiling

/-- Feeds tokens to the machine until one fails. -/
def run (call : Caller) : List Token → Machine → Outcome Unit
  | [], m => .done () m
  | token :: rest, m => (m.interpret call token).bind fun () after => run call rest after

/-- Feeds a source text to the machine. -/
def execute (call : Caller) (source : String) (m : Machine) : Outcome Unit :=
  match Token.tokenize source with
  | .ok tokens => m.run call tokens
  | .error f => .failed f m

end Machine
end ThreadedForth
