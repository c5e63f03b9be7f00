import ThreadedForth.Session.Builtin

/-!
# The console

The console asks for a line, feeds it to the machine, and asks again.  The prompt
tells whether a definition is open.  A line that fails is reported, and drops what
was being run or compiled; so does an interrupt, at the prompt or while a line runs.
The word `bye`, alone on its line and in any case of letters, ends the dialogue, and
so does the end of the input.

The input is a script: the lines in order, with interrupts among them.

Where the lines of the console go is a `Display`, and not every display can show
every text: one that knows the plain characters alone cannot show an error about a
word with an accent in its name.  A report that cannot be shown fails itself.  It
fails where nothing handles it any more, so that it ends the dialogue, and what was
being run or compiled is not dropped.  The other lines of the console are plain, and
every display shows them.
-/

namespace ThreadedForth
namespace Console

/-- What the user does at a prompt. -/
inductive Input where
  | line (text : String)
  | interrupt
  deriving DecidableEq, Repr

/-- What the lines of the console are shown on. -/
structure Display where
  /-- Whether a character can be shown. -/
  shows : Char → Bool
  /-- The wording of the failure to show a text. -/
  refusal : String → String
  /-- Plain characters can be shown. -/
  plain : ∀ c : Char, c.toNat < 128 → shows c = true

namespace Display

/-- A display that shows everything. -/
def unlimited : Display := ⟨fun _ => true, id, fun _ _ => rfl⟩

/-- Whether a text can be shown. -/
def showsText (d : Display) (text : String) : Bool := text.toList.all d.shows

end Display

/-- The line that opens a dialogue. -/
def banner : String := "catforth - type 'bye' to exit"

/-- The line that answers an interrupt, after an empty one. -/
def interruptReply : String := "\n(Ctrl+C) type 'bye' to exit"

/-- The prompt of a machine. -/
def prompt (m : Machine) : String := if m.compiling then "...> " else "OK> "

/-- Whether a line ends the dialogue. -/
def isFarewell (line : String) : Bool :=
  Number.Numeral.lower (Text.trimBy Text.isBlank line.toList) == "bye".toList

/-- The line that reports a failure. -/
def reply (fault : Fault) : String :=
  if fault.isInterrupt then interruptReply else "Error: " ++ fault.message

/-- Shows a line, or fails before anything of it is shown. -/
def say (d : Display) (line : String) (m : Machine) : Outcome Unit :=
  if d.showsText line then .done () (m.tell (.said line))
  else .failed (.unencodable (d.refusal line)) m

/-- Reports a failure, and drops what was being run or compiled. -/
def report (d : Display) (fault : Fault) (m : Machine) : Outcome Unit :=
  (say d (reply fault) m).bind fun () told => .done () told.abort

/-- Feeds a line to the machine, and reports its failure if it fails. -/
def feed (d : Display) (line : String) (m : Machine) : Outcome Unit :=
  match m.execute Host.caller line with
  | .done () after => .done () after
  | .failed fault after => report d fault after

/-- Goes on with a dialogue. -/
def converse (d : Display) : List Input → Machine → Outcome Unit
  | [], m => .done () (m.tell (.prompted (prompt m)))
  | input :: rest, m =>
    let asked := m.tell (.prompted (prompt m))
    match input with
    | .interrupt => (report d (.interrupted "") asked).bind fun () => converse d rest
    | .line text =>
      if isFarewell text then .done () asked
      else (feed d text asked).bind fun () => converse d rest

/-- A dialogue from its opening line to its end. -/
def dialogue (d : Display) (script : List Input) (m : Machine) : Outcome Unit :=
  (say d banner m).bind fun () => converse d script

/-! ## What every display shows -/

/-- The state after a failure has been reported: what was being run or compiled is
dropped. -/
def recover (fault : Fault) (m : Machine) : Machine := (m.tell (.said (reply fault))).abort

variable {d : Display} {line : String}

theorem Display.showsText_unlimited (text : String) : Display.unlimited.showsText text = true :=
  List.all_eq_true.mpr fun _ _ => rfl

theorem say_of_shown (shown : d.showsText line = true) (m : Machine) :
    say d line m = .done () (m.tell (.said line)) := if_pos shown

theorem say_of_not_shown (unshown : d.showsText line = false) (m : Machine) :
    say d line m = .failed (.unencodable (d.refusal line)) m :=
  if_neg (Bool.eq_false_iff.mp unshown)

/-- Plain characters are shown by every display. -/
theorem say_of_plain (d : Display)
    (plain : line.toList.all (fun c => decide (c.toNat < 128)) = true) (m : Machine) :
    say d line m = .done () (m.tell (.said line)) := by
  refine say_of_shown (List.all_eq_true.mpr fun c inside => d.plain c ?_) m
  exact of_decide_eq_true (List.all_eq_true.mp plain c inside)

theorem dialogue_eq (d : Display) (script : List Input) (m : Machine) :
    dialogue d script m = converse d script (m.tell (.said banner)) := by
  rw [dialogue, say_of_plain d (by decide +kernel)]
  rfl

theorem report_of_shown {fault : Fault} (shown : d.showsText (reply fault) = true)
    (m : Machine) : report d fault m = .done () (recover fault m) := by
  rw [report, say_of_shown shown]
  rfl

theorem report_of_not_shown {fault : Fault} (unshown : d.showsText (reply fault) = false)
    (m : Machine) : report d fault m = .failed (.unencodable (d.refusal (reply fault))) m := by
  rw [report, say_of_not_shown unshown]
  rfl

/-- An interrupt can always be reported. -/
theorem report_interrupted (d : Display) (text : String) (m : Machine) :
    report d (.interrupted text) m = .done () (recover (.interrupted text) m) := by
  rw [report, show reply (.interrupted text) = interruptReply from rfl,
    say_of_plain d (by decide +kernel)]
  rfl

end Console
end ThreadedForth
