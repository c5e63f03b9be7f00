/-!
# What the machine says

Two records are kept while the machine works.  The *transcript* holds everything
that is shown to the user: what words write, and the lines and prompts of the
console.  The *journal* holds notes on what the machine does, each with a level and
the part of the machine that made it.  Warnings are always taken down; the minor
notes only on demand.

Both are kept newest first.  What words write goes to a stream that takes every text;
the lines of the console may go elsewhere (`Console.Display`).
-/

namespace ThreadedForth

/-- Something shown to the user. -/
inductive Utterance where
  /-- A text written by a word. -/
  | wrote (text : String)
  /-- A single character written by its code, which may be a code that no text can
  hold. -/
  | emitted (code : Nat)
  /-- A line of the console. -/
  | said (line : String)
  /-- A prompt of the console. -/
  | prompted (text : String)
  deriving DecidableEq, Repr

namespace Utterance

/-- The code points of a text. -/
def codesOf (text : String) : List Nat := text.toList.map Char.toNat

/-- The code points that words wrote. -/
def written : Utterance → List Nat
  | wrote text => codesOf text
  | emitted code => [code]
  | said _ | prompted _ => []

/-- The code points of the console's lines. -/
def console : Utterance → List Nat
  | said line => codesOf line ++ [10]
  | _ => []

/-- All code points that appear. -/
def shown : Utterance → List Nat
  | wrote text => codesOf text
  | emitted code => [code]
  | said line => codesOf line ++ [10]
  | prompted text => codesOf text

end Utterance

/-- How important a note is. -/
inductive Level where
  | debug
  | warning
  deriving DecidableEq, Repr

/-- Whether notes of this level are taken. -/
def Level.isTaken (verbose : Bool) : Level → Bool
  | debug => verbose
  | warning => true

/-- The parts of the machine that make notes. -/
inductive Channel where
  | core
  | dictionary
  | compiler
  | interpreter
  | defining
  | repl
  deriving DecidableEq, Repr

/-- A note on what the machine does. -/
structure Note where
  level : Level
  channel : Channel
  text : String
  deriving DecidableEq, Repr

namespace Note

/-- The name of a level. -/
def levelName : Level → String
  | .debug => "DEBUG"
  | .warning => "WARNING"

/-- The name of a part of the machine. -/
def channelName : Channel → String
  | .core => "core"
  | .dictionary => "dictionary"
  | .compiler => "compiler"
  | .interpreter => "interpreter"
  | .defining => "defining"
  | .repl => "repl"

/-- The line of a note in a log. -/
def line (n : Note) : String :=
  levelName n.level ++ " catforth." ++ channelName n.channel ++ ": " ++ n.text

/-- The lines of a journal, the oldest first. -/
def lines (journal : List Note) : List String := journal.reverse.map line

end Note
end ThreadedForth
