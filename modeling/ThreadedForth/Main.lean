import ThreadedForth.Session.CommandLine

/-!
# The program

Reads the arguments, the source file or the standard input, and writes what the
command line reports.  A dialogue is held line by line, so that every prompt appears
before its line is read.
-/

namespace ThreadedForth
namespace Program

/-- The text of code points.  A code that no text can hold appears as the replacement
character. -/
def textOfCodes (codes : List Nat) : String :=
  String.ofList (codes.map fun n => if n.isValidChar then Char.ofNat n else '\uFFFD')

/-- Writes what a machine has shown and noted since it was `before`. -/
def writeNews (before after : Machine) : IO Unit := do
  let utterances := after.transcript.take (after.transcript.length - before.transcript.length)
  let notes := after.journal.take (after.journal.length - before.journal.length)
  let out ← IO.getStdout
  out.putStr (textOfCodes (utterances.reverse.flatMap Utterance.shown))
  out.flush
  (← IO.getStderr).putStr (CommandLine.textOfLines (Note.lines notes))

/-- Holds a dialogue with the standard input, and returns the exit status. -/
partial def converse (m : Machine) : IO UInt32 := do
  let asked := m.tell (.prompted (Console.prompt m))
  writeNews m asked
  let line ← (← IO.getStdin).getLine
  if line.isEmpty then return 0
  let text := String.ofList (line.toList.reverse.dropWhile (· == '\n')).reverse
  if Console.isFarewell text then return 0
  let fed := Console.feed .unlimited text asked
  writeNews asked fed.machine
  match fed with
  | .done () after => converse after
  | .failed fault _ =>
    (← IO.getStderr).putStr ("Error: " ++ fault.message ++ "\n")
    return 1

/-- Reads the source file that the arguments name, if they name one. -/
def readSource (arguments : List String) : IO (Except Fault String) := do
  let path := arguments.headD ""
  if CommandLine.isSourceFile path then
    try return .ok (← IO.FS.readFile path)
    catch _ => return .error (.missingFile (Text.quoted path))
  else return .ok ""

/-- Writes a report, and returns the exit status. -/
def writeReport (report : CommandLine.Report) : IO UInt32 := do
  (← IO.getStdout).putStr (textOfCodes report.output)
  let stderr ← IO.getStderr
  stderr.putStr report.errors
  match report.ending with
  | .ok status => return UInt32.ofNat status
  | .error fault =>
    stderr.putStr ("Error: " ++ fault.message ++ "\n")
    return 1

end Program
end ThreadedForth

open ThreadedForth in
/-- The entry point. -/
def main (arguments : List String) : IO UInt32 := do
  let verbose := arguments.contains "-v"
  let others := arguments.erase "-v"
  if others.head? = some "repl" then
    let blank := Machine.bare Machine.defaultCapacity verbose
    let m := (Machine.fresh Machine.defaultCapacity true verbose).tell (.said Console.banner)
    Program.writeNews blank m
    Program.converse m
  else
    let source ← Program.readSource others
    Program.writeReport (CommandLine.run arguments ⟨fun _ => source, ""⟩)
