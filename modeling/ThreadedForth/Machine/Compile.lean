import ThreadedForth.Machine.Basic

/-!
# Compiling

While the machine compiles, literals and words become cells at the end of the code.
Literals that follow each other share a cell, but no literal joins a cell that lies
before the *barrier*: the start of the open definition, or of the behavior in it.
What lies before the barrier belongs to a finished body, or to one that was given
up, and never changes.

The directives work on the open definition, in place.  Each checks first that the machine is
compiling.
-/

namespace ThreadedForth
namespace Machine

/-- Appends a cell to the code. -/
def append (cell : Cell) (m : Machine) : Machine := { m with code := m.code.push cell }

/-- The values of the literal cell at the end of the code together with further ones,
if the cell may be joined. -/
def joinedLiterals (values : List Value) (m : Machine) : Except Fault (Option (List Value)) :=
  match m.code.back? with
  | some cell => if m.barrier ≤ m.code.size - 1 then cell.openValues values else .ok none
  | none => .ok none

/-- Writes the cell of literals: in place of the last one if they were joined to its
values, and else behind it. -/
def writeLiterals (values : List Value) (joined : Option (List Value)) (m : Machine) : Machine :=
  match joined with
  | some all => { m with code := m.code.pop.push (.literal all) }
  | none => m.append (.literal values)

/-- The cell that invokes an entry. -/
def cellOf (entry : Nat) (w : Word) : Cell :=
  match w.body with
  | .native _ => .native entry
  | .colon address => .call address w.name
  | .created _ _ => .created entry

/-- Checks that the machine is compiling, on behalf of the word `word`. -/
def requireCompiling (word : String) (m : Machine) : Except Fault Unit :=
  if m.compiling then .ok () else .error (.outsideDefinition word)

/-- Takes down where the code of a finished definition lies. -/
def noteDefined (draft : Draft) (m : Machine) : Machine :=
  m.note .debug .compiler s!"defined '{draft.name}' at {draft.address}..{m.code.size - 1}"

/-- Takes down that a word got a behavior.  The note is worded only if it is taken.  It
tells the address as an integer, so none is taken of a behavior that has no integer; the
word has got it all the same. -/
def noteBehavior (name : String) (behavior : Value) (m : Machine) : Machine :=
  if Level.debug.isTaken m.verbose then
    match Value.Template.wholeText behavior with
    | .ok address => m.note .debug .defining ("'" ++ name ++ "' does @" ++ address)
    | .error _ => m
  else m

/-- A note is taken of a behavior, or nothing happens. -/
theorem noteBehavior_cases (name : String) (behavior : Value) (m : Machine) :
    (∃ text, m.noteBehavior name behavior = m.note .debug .defining text) ∨
      m.noteBehavior name behavior = m := by
  unfold noteBehavior
  split
  · split
    · exact .inl ⟨_, rfl⟩
    · exact .inr rfl
  · exact .inr rfl

/-- Gives the word created last a behavior. -/
def bindBehavior (behavior : Value) (m : Machine) : Outcome Unit :=
  match m.lastCreated with
  | none => .failed .nothingCreated m
  | some entry =>
    let name := (m.dictionary.get? entry).elim "" Word.name
    let bound := { m with dictionary := m.dictionary.setBehavior entry behavior }
    .done () (bound.noteBehavior name behavior)

end Machine

namespace Routine

/-- Does work on the store of the machine. -/
def onStore {α : Type} (r : Routine Store α) : Routine Machine α :=
  r.focus (·.toStore) fun s m => { m with toStore := s }

/-- Ends the open definition. -/
def finish : Routine Machine Unit := do
  check (Machine.requireCompiling "return")
  let word := (← get).draft
  modify (Machine.append .exit)
  modify fun m => { m with compiling := false }
  modify fun m => { m with draft := none }
  match word with
  | some draft =>
    let entry ← onStore (install ⟨draft.name, draft.immediate, .colon draft.address⟩)
    modify fun m => { m with lastDefined := some entry }
    modify (Machine.noteDefined draft)
  | none => return

/-- Marks the open definition as immediate, or else the entry defined last. -/
def markImmediate : Routine Machine Unit := do
  let m ← get
  match m.compiling, m.draft, m.lastDefined with
  | true, some draft, _ => set { m with draft := some { draft with immediate := true } }
  | _, _, some entry => set { m with dictionary := m.dictionary.markImmediate entry }
  | _, _, none => throw .nothingToMark

/-- Compiles an exit into the open definition. -/
def compileExit : Routine Machine Unit := do
  check (Machine.requireCompiling "exit")
  modify (Machine.append .exit)

/-- Compiles a value into the open definition. -/
def compileValue (v : Value) : Routine Machine Unit := do
  check (Machine.requireCompiling "literal")
  let joined ← check (Machine.joinedLiterals [v])
  modify (Machine.writeLiterals [v] joined)

/-- Ends the making of a word and begins its behavior. -/
def compileDoes : Routine Machine Unit := do
  check (Machine.requireCompiling "does")
  let behavior := (← get).here + 2
  modify (Machine.append (.does behavior))
  modify (Machine.append .exit)
  modify fun m => { m with barrier := m.here }

end Routine

namespace Directive

/-- Runs a directive on its arguments. -/
def run (d : Directive) (arguments : List Value) : Routine Machine Unit :=
  match d, arguments with
  | finish, [] => .finish
  | immediate, [] => .markImmediate
  | exit, [] => .compileExit
  | literal, [v] => .compileValue v
  | does, [] => .compileDoes
  | _, _ => throw .argumentExcess

/-- Performs a directive on the machine. -/
def perform (d : Directive) (arguments : List Value) (m : Machine) : Outcome Value :=
  match d.run arguments m with
  | .ok () after => .done .none after
  | .error f after => .failed f after

end Directive
end ThreadedForth
