import ThreadedForth.Session.Builtin

/-!
# Extending the dictionary from outside

The host registers callables as native words, and values as words that push them.
A callable is registered with the number of arguments it is called with.  When that
number is given it must be one that the callable's signature accepts; when it is
not, it is derived from the signature.

A whole library of callables and values is imported at once.  All names are checked
before anything is registered.  A callable whose number of arguments cannot be
derived is skipped with a warning, and the rest is registered all the same.  The
warning needs the text of the callable; where the host fails to make that text, or
fails when it is asked for the parameters, the import fails in the middle, and what
was registered before stays.  The attributes of an object are read beforehand, and
if one cannot be read nothing is registered.
-/

namespace ThreadedForth

namespace Host

/-- What the host brings along under a name. -/
inductive Item where
  | callable (f : Callable)
  | value (v : Value)
  deriving DecidableEq

/-- A copy of an item.  A callable has no values until it is called. -/
def Item.copy (slots : Nat) : Item → Value.Marking Item
  | callable f => pure (callable f)
  | value v => do return value (← v.copy slots)

/-- An attribute of an object. -/
inductive Attribute where
  | item (item : Item)
  /-- To read the attribute fails. -/
  | failing (reason : String)

/-- A copy of an attribute. -/
def Attribute.copy (slots : Nat) : Attribute → Value.Marking Attribute
  | item own => do return item (← own.copy slots)
  | failing reason => pure (failing reason)

/-- Reads an attribute. -/
def Attribute.read : Attribute → Except Fault Item
  | item own => .ok own
  | failing reason => .error (.foreign reason)

/-- How a native word is to be registered. -/
structure Options where
  immediate : Bool
  /-- The number of arguments, if it is not to be derived. -/
  arity : Option Value
  pushesNone : Bool

/-- A copy of options. -/
def Options.copy (slots : Nat) (options : Options) : Value.Marking Options := do
  match options.arity with
  | none => return options
  | some v => return { options with arity := some (← v.copy slots) }

end Host

namespace Machine

/-- Whether a number of arguments is taken, as far as that can be told beforehand.
Parameters that are told are tried with a row of that many arguments, and no row is longer
than the greatest index. -/
def takes (count : Nat) (signature : Host.Signature) : Except Fault Bool :=
  match signature with
  | .known _ =>
    if Value.maxIndex < count then .error .countTooLarge else .ok (signature.accepts count)
  | .hidden => .ok true
  | .failing reason => .error (.foreign reason)

/-- The number of arguments a callable is called with. -/
def callableArity (name : String) (f : Host.Callable) (arity : Option Value) (m : Machine) :
    Except Fault Nat :=
  match arity with
  | none => f.signature.derivedArity f.label
  | some v =>
    let impossible := v.quoting m.slots (.arityImpossible name)
    match v with
    | .int n =>
      if n < 0 then .error impossible
      else
        match takes n.toNat f.signature with
        | .error fault => .error fault
        | .ok true => .ok n.toNat
        | .ok false => .error (f.label.quoting fun shown => .arityRefused name shown n.toNat)
    | _ => .error impossible

/-- Registers an entry, and returns its number. -/
def register (w : Word) (m : Machine) : Nat × Machine :=
  (m.dictionary.size, { m with toStore := m.toStore.install w })

/-- Registers a callable as a native word, and returns the number of its entry. -/
def registerCallable (name : String) (f : Host.Callable) (options : Host.Options)
    (m : Machine) : Except Fault (Nat × Machine) := do
  let arity ← m.callableArity name f options.arity
  return m.register ⟨name, options.immediate, .native ⟨.host f, arity, options.pushesNone⟩⟩

/-- Registers a word that pushes a fixed value, and returns the number of its entry. -/
def registerConstant (name : String) (v : Value) (m : Machine) : Nat × Machine :=
  m.register ⟨name, false, .native ⟨.primitive (.constant v), 0, true⟩⟩

/-- Registers a native word. -/
def defineNative (name : Value) (item : Host.Item) (options : Host.Options) (m : Machine) :
    Outcome Nat :=
  match m.checkName name with
  | .error f => .failed f m
  | .ok valid =>
    match item with
    | .value v => .failed (v.quoting m.slots (.notCallable valid)) m
    | .callable f =>
      match m.registerCallable valid f options with
      | .ok (entry, after) => .done entry after
      | .error fault => .failed fault m

/-- Registers a word that pushes a fixed value. -/
def defineConstant (name v : Value) (m : Machine) : Outcome Nat :=
  match m.checkName name with
  | .error f => .failed f m
  | .ok valid =>
    let (entry, after) := m.registerConstant valid v
    .done entry after

/-! ## Importing -/

/-- Checks the names of items. -/
def checkNames (items : List (Value × Host.Item)) (m : Machine) :
    Except Fault (List (String × Host.Item)) :=
  items.mapM fun (name, item) => do return (← m.checkName name, item)

/-- Registers one imported item.  A callable without an arity is skipped; any other failure
is one of the import. -/
def importItem (name : String) (item : Host.Item) (m : Machine) : Outcome (Option Nat) :=
  match item with
  | .value v =>
    let (entry, after) := m.registerConstant name v
    .done (some entry) after
  | .callable f =>
    match m.registerCallable name f ⟨false, none, false⟩ with
    | .ok (entry, after) => .done (some entry) after
    | .error fault =>
      if fault.kind = .arityMismatch then
        let warning := "skipping '" ++ name ++ "': " ++ fault.message
        .done none (m.note .warning .dictionary warning)
      else .failed fault m

/-- Registers imported items in order, and returns the numbers of their entries. -/
def importItems : List (String × Host.Item) → Machine → Outcome (List Nat)
  | [], m => .done [] m
  | (name, item) :: rest, m =>
    (m.importItem name item).bind fun entry after =>
      (importItems rest after).map fun entries => entry.toList ++ entries

/-- Imports items in the given order. -/
def importWords (items : List (Value × Host.Item)) (m : Machine) : Outcome (List Nat) :=
  match m.checkNames items with
  | .error f => .failed f m
  | .ok named => importItems named m

end Machine

namespace Host

mutual

/-- Whether a value can be a name in a mapping: no list is in it. -/
def isKey : Value → Bool
  | .list .. => false
  | .tuple _ items => areKeys items
  | _ => true

/-- Whether all of the values can be names in a mapping. -/
def areKeys : List Value → Bool
  | [] => true
  | v :: rest => isKey v && areKeys rest

end

/-- A copy of a name and an item on their way into a mapping, which takes no name with a
list in it. -/
def copyPair (slots : Nat) (name : Value) (item : Item) : Value.Marking (Value × Item) := do
  let ownName ← name.copy slots
  let ownItem ← item.copy slots
  if isKey ownName then return (ownName, ownItem) else throw (.notAKey "list")

variable {α : Type}

/-- Adds an item to a mapping.  A name that is already there keeps its place and takes
the new item. -/
def putItem (name : Value) (item : α) : List (Value × α) → List (Value × α)
  | [] => [(name, item)]
  | (other, old) :: rest =>
    if other.same name then (other, item) :: rest else (other, old) :: putItem name item rest

/-- The items of a mapping into which pairs are put one after another, in the order in
which their names first appear. -/
def collect (pairs : List (Value × α)) : List (Value × α) :=
  pairs.foldl (fun items pair => putItem pair.1 pair.2 items) []

/-- Whether an attribute is private, which its first character tells. -/
def isPrivate (name : String) : Bool := name.toList.head? == some '_'

/-- The public attributes of an object, sorted by name.  The last one given under a name
counts. -/
def publicAttributes (attributes : List (String × α)) : List (String × α) :=
  let items := collect (attributes.map fun (name, item) => (.text name, item))
  let visible := items.filterMap fun (name, item) =>
    match name with
    | .text s => if isPrivate s then none else some (s, item)
    | _ => none
  visible.mergeSort fun a b => a.1 ≤ b.1

/-- The items of an object: its public attributes, read one after another. -/
def objectItems (attributes : List (String × Attribute)) : Except Fault (List (Value × Item)) :=
  (publicAttributes attributes).mapM fun (name, own) => do return (.text name, ← own.read)

end Host

namespace Machine

/-- Imports the pairs of a mapping. -/
def importMapping (pairs : List (Value × Host.Item)) (m : Machine) : Outcome (List Nat) :=
  m.importWords (Host.collect pairs)

/-- Imports the public attributes of an object. -/
def importObject (attributes : List (String × Host.Attribute)) (m : Machine) :
    Outcome (List Nat) :=
  match Host.objectItems attributes with
  | .error f => .failed f m
  | .ok items => m.importWords items

end Machine
end ThreadedForth
