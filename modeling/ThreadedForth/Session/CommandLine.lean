import ThreadedForth.Session.Folder
import ThreadedForth.Session.Operation

/-!
# The command line

What the program does with its arguments, as a function: the arguments, the files
that can be read and the text of the standard input go in, and a report of
everything that comes out is the result.

The first argument decides.  `repl` opens a dialogue with the standard input, `-e`
feeds the other arguments as one source text, and the name of a source file feeds
that file.  Without arguments the program explains itself and ends, since its
interactive shell meets the end of the input at once.  Any other argument is
answered by the manual.  A `-v`, wherever it first stands, asks for the whole log.

A machine fault is reported and ends the program with status one.  Any other fault
is left to the caller, together with what has been written up to then.

The standard output takes every text here, from the words and from the console.
-/

namespace ThreadedForth
namespace CommandLine

/-- What the program leaves behind. -/
structure Report where
  /-- The exit status, or the fault that ended the program. -/
  ending : Except Fault Nat
  /-- The code points of the standard output. -/
  output : List Nat
  /-- The lines and pieces of the error output. -/
  errors : String

/-- What the program finds around it. -/
structure Surroundings where
  /-- The text of the file that a path leads to. -/
  file : String → Except Fault String
  /-- The text of the standard input. -/
  input : String

/-- The manual. -/
def manual : String :=
  "\ncatforth - A concatenative, Forth-like virtual machine\n\n" ++
  "Usage:\n" ++
  "1. Interactive REPL:      python main.py repl\n" ++
  "2. Run a source file:     python main.py program.fth\n" ++
  "3. Run source text:       python main.py -e '1 2 add print'\n" ++
  "4. Python DSL session:    python main.py (or python -i main.py)\n\n" ++
  "Add -v for debug logging.\n"

/-- What is shown before the interactive shell. -/
def shellHint : List String :=
  ["VM instance available as 'f'", "  f(1, 2).word('add', 'print')",
    "  f.execute('1 2 add print')", "  f.repl()"]

/-- A text in which every line ends with a line feed alone. -/
def unifyLineEnds : List Char → List Char
  | [] => []
  | '\r' :: '\n' :: rest => '\n' :: unifyLineEnds rest
  | '\r' :: rest => '\n' :: unifyLineEnds rest
  | c :: rest => c :: unifyLineEnds rest

/-- The lines of a text.  What follows the last line feed is a line if it is not
empty. -/
def linesOf (text : String) : List String :=
  let pieces := text.splitOn "\n"
  if pieces.getLast? = some "" then pieces.dropLast else pieces

/-- Whether an argument names a source file. -/
def isSourceFile (argument : String) : Bool :=
  argument.endsWith ".fth" || argument.endsWith ".forth"

/-- Lines, each ended by a line feed. -/
def textOfLines (lines : List String) : String :=
  String.join (lines.map (· ++ "\n"))

/-- The report on a machine that has done its work. -/
def reportOn (m : Machine) (ending : Except Fault Nat) (lastErrors : String) : Report where
  ending := ending
  output := m.transcript.reverse.flatMap Utterance.shown
  errors := textOfLines (Note.lines m.journal) ++ lastErrors

/-- The report on an outcome. -/
def reportOutcome : Outcome Unit → Report
  | .done () m => reportOn m (.ok 0) ""
  | .failed fault m =>
    if fault.kind.isOwn then reportOn m (.ok 1) ("Error: " ++ fault.message ++ "\n")
    else reportOn m (.error fault) ""

/-- Says lines on the console. -/
def sayAll (lines : List String) (m : Machine) : Machine :=
  lines.foldl (fun m line => m.tell (.said line)) m

/-- The shell that meets the end of the input at once. -/
def runShell (m : Machine) : Report :=
  let shown := (sayAll shellHint m).tell (.prompted ">>> ")
  reportOn shown (.ok 0) "\nnow exiting InteractiveConsole...\n"

/-- What the program does with its arguments once the request for the log is taken
out. -/
def runWith (verbose : Bool) (arguments : List String) (around : Surroundings) : Report :=
  let m := Machine.fresh Machine.defaultCapacity true verbose
  match arguments with
  | [] => runShell m
  | argument :: rest =>
    if argument = "repl" then
      let script := (linesOf around.input).map Console.Input.line
      reportOutcome (Session.converse .unlimited script m)
    else if argument = "-e" ∧ rest ≠ [] then
      reportOutcome (Session.execute (String.intercalate " " rest) m)
    else if isSourceFile argument then
      match around.file argument with
      | .ok text =>
        let source := String.ofList (unifyLineEnds text.toList)
        reportOutcome (Session.execute source m)
      | .error fault => reportOutcome (.failed fault m)
    else
      let answered := sayAll ["Unrecognized argument: " ++ argument, manual] m
      reportOn answered (.ok 2) ""

/-- What the program does with its arguments. -/
def run (arguments : List String) (around : Surroundings) : Report :=
  runWith (arguments.contains "-v") (arguments.erase "-v") around

end CommandLine
end ThreadedForth
