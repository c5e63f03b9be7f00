import ThreadedForth.Machine.Compile

/-!
# One turn of the execution loop

Code runs cell by cell.  A turn fetches the cell at the place of execution, moves
the place on by one, and does what the cell says.  A call notes the place on the
return stack and goes on at another address; an exit goes back to the place noted
last.  A run has a *base*: the number of return addresses that were there before it
started.  The exit that finds no more than these ends the run.

Addresses below zero count from the end of the code.  An address is a value, and
compiled code holds only integers; what becomes of any other value is decided when
code is told to go there (`Machine.locate`), before it is used to fetch a cell.

A turn has four ways to end.  The two that end a run are `halt` and `fault`.  After
`next` the run goes on by itself.  `enter` hands over to a native action that is no
primitive; such an action may do anything to the machine, and is not part of the
turn.
-/

namespace ThreadedForth

/-- How a turn ends. -/
inductive Turn where
  /-- The run goes on. -/
  | next (machine : Machine)
  /-- The run is over. -/
  | halt (machine : Machine)
  /-- A native action that is no primitive is to be called. -/
  | enter (name : String) (native : Native) (machine : Machine)
  /-- The run has failed. -/
  | fault (fault : Fault) (machine : Machine)
  deriving DecidableEq

namespace Turn

/-- The turn that ends as an outcome does. -/
def ofOutcome : Outcome Unit → Turn
  | .done () m => next m
  | .failed f m => fault f m

end Turn

namespace Machine

/-- The fault of an address past the last cell, which is named by its text. -/
def ranOff (address : Value) (m : Machine) : Fault := address.quoting m.slots .ranOff

/-- The place that an address stands for.  The absent value stands for the end of the
run.  A truth value stands for the integer it counts as; a fault still names it as
the truth value it is. -/
def locate (address : Value) (m : Machine) : Except Fault (Option Int) :=
  match address with
  | .none => .ok none
  | .int n => .ok (some n)
  | .bool b =>
    let n : Nat := if b then 1 else 0
    if m.code.size ≤ n then .error (m.ranOff address) else .ok (some n)
  | .float x =>
    match Number.Binary64.compareInt m.code.size x with
    | some .lt | some .eq => .error (m.ranOff address)
    | _ => .error (.notAnAddress "float")
  | .nan _ => .error (.notAnAddress "float")
  | _ => .error (.notOrdered ">=" address.kindName "int")

@[simp] theorem locate_int (n : Int) (m : Machine) : m.locate (.int n) = .ok (some n) := rfl

/-- The cell at an address. -/
def fetch (address : Int) (m : Machine) : Except Fault Cell :=
  if (m.code.size : Int) ≤ address then .error (m.ranOff (.int address))
  else if address < -(Value.maxIndex : Int) - 1 then .error .addressTooLarge
  else if address < -(m.code.size : Int) then .error .addressOutOfRange
  else
    let index := if address < 0 then address + m.code.size else address
    match m.code[index.toNat]? with
    | some cell => .ok cell
    | none => .error .addressOutOfRange

/-- Begins a call of an address, to come back to `resume`. -/
def nest (address : Value) (resume : Int) (m : Machine) : Turn :=
  if m.capacity ≤ m.returns.depth then .fault (.full m.capacity) m
  else
    let called := { m with returns := m.returns.push resume }
    match m.locate address with
    | .ok place => .next { called with ip := place }
    | .error f => .fault f called

/-- Calls the native word with the given number. -/
def stepNative (entry : Nat) (m : Machine) : Turn :=
  match m.dictionary.get? entry with
  | some ⟨name, _, .native n⟩ =>
    match n.action with
    | .primitive p => .ofOutcome (m.callWith name n p.perform)
    | _ => .enter name n m
  | _ => .fault .cellTooShort m

/-- Pushes the slot of the created word with the given number, and begins its
behavior. -/
def stepCreated (entry : Nat) (resume : Int) (m : Machine) : Turn :=
  match m.dictionary.get? entry with
  | some ⟨_, _, .created slot behavior⟩ =>
    let pushed := m.pushAll [.cell slot]
    match behavior with
    | .none => .next pushed
    | address => pushed.nest address resume
  | _ => .fault .cellTooShort m

/-- Goes back to where the innermost call came from, or ends the run. -/
def stepExit (base : Nat) (m : Machine) : Turn :=
  match m.returns.pop? with
  | some (r, rest) =>
    if base ≤ rest.depth then .next { m with returns := rest, ip := some r }
    else if base = rest.depth + 1 then .halt { m with ip := none }
    else .fault (.returnUnderflow (rest.depth + 1) base) m
  | none => if base = 0 then .halt { m with ip := none } else .fault (.returnUnderflow 0 base) m

/-- Does what a cell says that was handed in as a row of values and spells no
instruction.  `resume` is the address after the cell. -/
def stepForeign (base : Nat) (resume : Int) (items : List Value) (m : Machine) : Turn :=
  match items with
  | [] | [.text "native"] | [.text "created"] | [.text "literal"] | [.text "call"]
  | [.text "does"] => .fault .cellTooShort m
  | .text "exit" :: _ => m.stepExit base
  | .text "native" :: v :: _ => .fault (.notAWord v.kindName "arity") m
  | .text "created" :: v :: _ => .fault (.notAWord v.kindName "data") m
  | .text "literal" :: v :: _ =>
    match v.items? with
    | some values => .next (m.pushAll values)
    | none => .fault (.notIterable v.kindName) m
  | .text "call" :: address :: _ => m.nest address resume
  | .text "does" :: behavior :: _ => .ofOutcome (m.bindBehavior behavior)
  | _ =>
    match Value.literalRow m.slots items with
    | .ok shown => .fault (.corruptCell (resume - 1) shown) m
    | .error f => .fault f m

/-- Does what a cell says.  The place of execution is already `resume`, the address
after the cell. -/
def step (base : Nat) (resume : Int) (m : Machine) : Cell → Turn
  | .native entry => m.stepNative entry
  | .literal values => .next (m.pushAll values)
  | .call address _ => m.nest (.int address) resume
  | .created entry => m.stepCreated entry resume
  | .does address => .ofOutcome (m.bindBehavior (.int address))
  | .exit => m.stepExit base
  | .foreign items => m.stepForeign base resume items

/-- One turn of a run with the given base. -/
def turn (base : Nat) (m : Machine) : Turn :=
  match m.ip with
  | none => .halt m
  | some address =>
    match m.fetch address with
    | .ok cell => step base (address + 1) { m with ip := some (address + 1) } cell
    | .error f => .fault f m

end Machine
end ThreadedForth
