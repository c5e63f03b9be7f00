import ThreadedForth.Dictionary.Basic
import ThreadedForth.Machine.Record
import ThreadedForth.Stack
import ThreadedForth.Value.Arithmetic

/-!
# The store

The store is the part of the machine that primitives work on: the data stack, the
slots of the created words, the dictionary, the state of compilation, and the two
records.  The code, the return stack and the place of execution are not in it, so
that a primitive cannot touch them: that is what its type says.

Marks are handed out in order, and the store remembers the next one.
-/

namespace ThreadedForth

/-- A colon definition that is not finished.  Its name is fit to be a name. -/
structure Draft where
  name : String
  address : Nat
  immediate : Bool
  valid : Text.allBlank name.toList = false
  deriving DecidableEq, Repr

/-- The draft of a definition whose code begins at `here`. -/
def Draft.opened (name : Word.Name) (here : Nat) : Draft := ⟨name.1, here, false, name.2⟩

/-- What primitives work on. -/
structure Store where
  /-- The data stack. -/
  stack : Stack Value
  /-- What the slots of the created words hold, in the order of creation. -/
  slots : Array Value
  dictionary : Dictionary
  /-- Whether words are compiled instead of run. -/
  compiling : Bool
  /-- The definition that is open. -/
  draft : Option Draft
  /-- The entry that was defined or created last. -/
  lastDefined : Option Nat
  /-- The entry that was created last. -/
  lastCreated : Option Nat
  /-- The first address at which a literal cell may be joined. -/
  barrier : Nat
  /-- The next mark that no value has. -/
  nextMark : Nat
  transcript : List Utterance
  journal : List Note
  /-- Whether minor notes are taken. -/
  verbose : Bool
  deriving DecidableEq

namespace Store

/-- Puts a value on top of the data stack. -/
def push (v : Value) (s : Store) : Store := { s with stack := s.stack.push v }

/-- Puts values on the data stack, the last one on top. -/
def pushAll (values : List Value) (s : Store) : Store :=
  { s with stack := s.stack.pushAll values }

@[simp] theorem stack_pushAll (values : List Value) (s : Store) :
    (s.pushAll values).stack = s.stack.pushAll values := rfl

/-- Counts a mark as taken. -/
def advance (s : Store) : Store := { s with nextMark := s.nextMark + 1 }

/-- Makes a value that may need a mark. -/
def make (value : Nat → Value) (s : Store) : Value × Store := (value s.nextMark, s.advance)

/-- Does work that takes marks. -/
def marking {α : Type} (work : Value.Marking α) (s : Store) : Except Fault (α × Store) := do
  let (result, next) ← work.run s.nextMark
  return (result, { s with nextMark := next })

/-- Shows something to the user. -/
def tell (u : Utterance) (s : Store) : Store := { s with transcript := u :: s.transcript }

/-- Makes a note, unless it is a minor one and none such are taken. -/
def note (level : Level) (channel : Channel) (text : String) (s : Store) : Store :=
  if level.isTaken s.verbose then { s with journal := ⟨level, channel, text⟩ :: s.journal }
  else s

/-- Registers an entry, which shadows an older one of the same name. -/
def install (w : Word) (s : Store) : Store :=
  let noted := if (s.dictionary.find? w.name).isSome then
      s.note .debug .dictionary ("'" ++ w.name ++ "' redefined")
    else s
  { noted with dictionary := noted.dictionary.push w }

/-- The entry that a name means. -/
def lookup (name : String) (s : Store) : Except Fault Nat :=
  match s.dictionary.find? name with
  | some entry => .ok entry
  | none => .error (.undefinedWord name)

theorem lookup_of_find {s : Store} {name : String} {entry : Nat}
    (found : s.dictionary.find? name = some entry) : s.lookup name = .ok entry := by
  rw [lookup, found]

/-- Reads a value as the name of a word. -/
def readName (v : Value) (s : Store) : Except Fault Word.Name := Word.readName s.slots v

/-- Checks that a value can name a word. -/
def checkName (v : Value) (s : Store) : Except Fault String := Word.checkName s.slots v

/-- Drops the open definition.  Its code stays, and nothing refers to it. -/
def abandon (s : Store) : Store :=
  let noted := match s.draft with
    | some draft =>
      s.note .warning .compiler ("abandoning definition of '" ++ draft.name ++ "'")
    | none => s
  { noted with compiling := false, draft := none }

end Store
end ThreadedForth
