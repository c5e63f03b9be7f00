import ThreadedForth.Value.Basic

/-!
# Tokens

What the machine is fed, one at a time.  A token names a word or carries values.
Values are carried one by one (`datum`) or together (`batch`): the difference shows
only in that a batch may hold texts, which on their own would name words.

A value that arrives from outside is read as a token by `Token.ofValue`.  A text
names a word.  A pair whose first item is the text `literal` is a batch of the
items of its second one; when that one has no items the token is malformed, which
comes to light when the machine is fed with it.
-/

namespace ThreadedForth

/-- One item of input to the machine. -/
inductive Token where
  /-- The name of a word. -/
  | word (name : String)
  /-- A value that stands for itself. -/
  | datum (value : Value)
  /-- Values that stand for themselves, texts included. -/
  | batch (values : List Value)
  /-- A batch of the items of something that has no items. -/
  | malformed (content : Value)
  deriving DecidableEq

namespace Token

/-- Reads a value as a token. -/
def ofValue : Value → Token
  | .text name => word name
  | .tuple _ [.text "literal", content] =>
    match content.items? with
    | some values => batch values
    | none => malformed content
  | v => datum v

/-- A copy of a token, whose values share nothing with those of the token. -/
def copy (slots : Nat) : Token → Value.Marking Token
  | word name => pure (word name)
  | datum v => do return datum (← v.copy slots)
  | batch values => do return batch (← Value.copyAll slots values)
  | malformed content => do return malformed (← content.copy slots)

end Token
end ThreadedForth
