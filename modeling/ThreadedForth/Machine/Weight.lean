import ThreadedForth.Machine.Turn

/-!
# Why a run ends

Nothing in the code jumps: within a body the place of execution only moves forward,
and a call can nest only as deep as the return stack allows.  So a run ends, and
this module says how soon.  The *weight* of a machine is a number that every turn
which goes on makes smaller (`weight_lt_of_turn_next`).

A body that starts at some address has at most twice as many cells left as the code
has, because an address below zero may pass the code twice.  Call that bound `B`,
and let `callCost B k` be the weight of one cell when `k` more calls may nest:
`callCost B 0 = 1`, and with one more level a cell may stand for a call, which adds
`B` cells of the level below: `callCost B (k + 1) = 1 + B * callCost B k`.  The
weight of a machine is what is left of the running body and of every body that is
waiting for it, each cell counted at the cost of its own level.

A call takes one cell of its level, which pays for at most `B` cells of the level
below.  An exit gives up what is left of the running body.  Every other cell takes
one cell of its own level.

For this to hold a primitive must not touch the code, the return stack, the place
of execution or the capacity, and it does not: these four make up the `frame`.
-/

namespace ThreadedForth

/-! ## The frame -/

/-- The part of the machine that primitives do not touch. -/
structure Frame where
  code : Array Cell
  /-- The return addresses of the open calls, the innermost first. -/
  returns : List Int
  ip : Option Int
  capacity : Int

namespace Machine

/-- The part of the machine that primitives do not touch. -/
def frame (m : Machine) : Frame := ⟨m.code, m.returns.items, m.ip, m.capacity⟩

@[simp] theorem frame_withStore (m : Machine) (s : Store) :
    frame { m with toStore := s } = m.frame := rfl

@[simp] theorem frame_pushAll (values : List Value) (m : Machine) :
    (m.pushAll values).frame = m.frame := rfl

@[simp] theorem frame_note (level : Level) (channel : Channel) (text : String) (m : Machine) :
    (m.note level channel text).frame = m.frame := rfl

@[simp] theorem frame_pushResult (n : Native) (v : Value) (m : Machine) :
    (m.pushResult n v).frame = m.frame := by
  unfold pushResult
  split <;> rfl

theorem frame_perform (p : Primitive) (arguments : List Value) (m : Machine) :
    (p.perform arguments m).machine.frame = m.frame := by
  unfold Primitive.perform Outcome.ofRoutine
  split <;> rfl

theorem frame_callWith (name : String) (n : Native) (p : Primitive) (m : Machine) :
    (m.callWith name n p.perform).machine.frame = m.frame := by
  unfold callWith
  split
  · rfl
  · have kept := frame_perform p (m.toStore.take n.arity).1
      { m with toStore := (m.toStore.take n.arity).2 }
    simp only
    cases ends : p.perform (m.toStore.take n.arity).1
      { m with toStore := (m.toStore.take n.arity).2 } with
    | done result after =>
      rw [ends] at kept
      simpa [Outcome.onFault] using kept
    | failed f after =>
      rw [ends] at kept
      simp only [Outcome.onFault, Outcome.bind_failed, Outcome.machine_failed]
      split
      · simpa using kept
      · simpa using kept

@[simp] theorem frame_noteBehavior (name : String) (behavior : Value) (m : Machine) :
    (m.noteBehavior name behavior).frame = m.frame := by
  rcases noteBehavior_cases name behavior m with ⟨text, noted⟩ | noted
  · rw [noted, frame_note]
  · rw [noted]

theorem frame_bindBehavior (behavior : Value) (m : Machine) :
    (m.bindBehavior behavior).machine.frame = m.frame := by
  unfold bindBehavior
  split
  · rfl
  · exact frame_noteBehavior _ behavior _

end Machine

/-! ## The weight -/

namespace Frame

/-- The number of cells from an address to the end of a code of the given size. -/
def remaining (size : Nat) (address : Int) : Nat :=
  min ((size : Int) - address).toNat (2 * size)

/-- The weight of one cell when `k` more calls may nest and a body has at most `bound`
cells. -/
def callCost (bound : Nat) : (k : Nat) → Nat
  | 0 => 1
  | k + 1 => 1 + bound * callCost bound k

/-- The weight of a body that is run or resumed at an address below `depth` open
calls. -/
def bodyWeight (f : Frame) (depth : Nat) (address : Int) : Nat :=
  remaining f.code.size address * callCost (2 * f.code.size) (f.capacity.toNat - depth)

/-- The weight of the bodies that wait at the given return addresses. -/
def waitingWeight (f : Frame) : List Int → Nat
  | [] => 0
  | r :: rest => f.bodyWeight rest.length r + f.waitingWeight rest

/-- The weight of a run. -/
def weight (f : Frame) : Nat :=
  match f.ip with
  | none => 0
  | some address => f.bodyWeight f.returns.length address + f.waitingWeight f.returns

theorem callCost_pos (bound k : Nat) : 0 < callCost bound k := by
  cases k with
  | zero => exact Nat.one_pos
  | succ k => exact Nat.lt_of_lt_of_le Nat.one_pos (Nat.le_add_right 1 _)

theorem remaining_le (size : Nat) (address : Int) : remaining size address ≤ 2 * size :=
  Nat.min_le_right _ _

/-- An address that can be fetched has one cell more left than the next one. -/
theorem remaining_succ {size : Nat} {address : Int} (low : -(size : Int) ≤ address)
    (high : address < size) :
    remaining size address = remaining size (address + 1) + 1 := by
  unfold remaining
  omega

/-- The weight of what waits does not depend on the place of execution or on the
return stack of the frame. -/
theorem waitingWeight_congr {f g : Frame} (code : f.code = g.code)
    (capacity : f.capacity = g.capacity) (returns : List Int) :
    f.waitingWeight returns = g.waitingWeight returns := by
  induction returns with
  | nil => rfl
  | cons r rest ih => simp [waitingWeight, bodyWeight, code, capacity, ih]

/-- Moving on by one cell makes a run lighter. -/
theorem weight_advance (f : Frame) {address : Int} (at_ : f.ip = some address)
    (low : -(f.code.size : Int) ≤ address) (high : address < f.code.size) :
    weight { f with ip := some (address + 1) } < f.weight := by
  have cost := callCost_pos (2 * f.code.size) (f.capacity.toNat - f.returns.length)
  have waiting := waitingWeight_congr (f := { f with ip := some (address + 1) }) (g := f)
    rfl rfl f.returns
  simp only [weight, at_, bodyWeight, waiting, remaining_succ low high, Nat.add_mul,
    Nat.one_mul]
  omega

/-- A run that goes nowhere has no weight, and any other one has some before a cell is
fetched. -/
theorem weight_pos (f : Frame) {address : Int} (at_ : f.ip = some address)
    (low : -(f.code.size : Int) ≤ address) (high : address < f.code.size) : 0 < f.weight :=
  Nat.lt_of_le_of_lt (Nat.zero_le _) (f.weight_advance at_ low high)

/-- A call makes a run lighter. -/
theorem weight_call (f : Frame) {address target : Int} (at_ : f.ip = some address)
    (low : -(f.code.size : Int) ≤ address) (high : address < f.code.size)
    (room : (f.returns.length : Int) < f.capacity) :
    weight { f with ip := some target, returns := (address + 1) :: f.returns } < f.weight := by
  have waiting := waitingWeight_congr
    (f := { f with ip := some target, returns := (address + 1) :: f.returns }) (g := f)
    rfl rfl f.returns
  obtain ⟨k, level⟩ : ∃ k, f.capacity.toNat - f.returns.length = k + 1 :=
    ⟨f.capacity.toNat - f.returns.length - 1, by omega⟩
  have below : f.capacity.toNat - (f.returns.length + 1) = k := by omega
  have body := Nat.mul_le_mul_right (callCost (2 * f.code.size) k)
    (remaining_le f.code.size target)
  simp only [weight, at_, waitingWeight, bodyWeight, waiting, remaining_succ low high,
    List.length_cons, level, below, Nat.add_mul, Nat.one_mul, callCost]
  omega

/-- An exit into a body that waits makes a run lighter. -/
theorem weight_exit (f : Frame) {address r : Int} {rest : List Int}
    (at_ : f.ip = some address) (low : -(f.code.size : Int) ≤ address)
    (high : address < f.code.size) (open_ : f.returns = r :: rest) :
    weight { f with ip := some r, returns := rest } < f.weight := by
  have cost := callCost_pos (2 * f.code.size) (f.capacity.toNat - f.returns.length)
  have waiting := waitingWeight_congr
    (f := { f with ip := some r, returns := rest }) (g := f) rfl rfl rest
  have left : 0 < remaining f.code.size address *
      callCost (2 * f.code.size) (f.capacity.toNat - f.returns.length) := by
    rw [remaining_succ low high]
    exact Nat.mul_pos (Nat.succ_pos _) cost
  rw [open_] at left
  simp only [weight, at_, open_, waitingWeight, bodyWeight, waiting]
  omega

/-- What a turn that goes on does to the frame: it leaves it as it was, begins a call,
or exits into a body that waits. -/
inductive Advance (resume : Int) (f : Frame) : Frame → Prop where
  | stay : Advance resume f f
  | call (place : Option Int) (room : (f.returns.length : Int) < f.capacity) :
    Advance resume f { f with ip := place, returns := resume :: f.returns }
  | exit (r : Int) (rest : List Int) (waits : f.returns = r :: rest) :
    Advance resume f { f with ip := some r, returns := rest }

/-- An advance from a cell that can be fetched makes a run lighter. -/
theorem weight_lt_of_advance {f g : Frame} {address : Int}
    (moved : Advance (address + 1) { f with ip := some (address + 1) } g)
    (at_ : f.ip = some address) (low : -(f.code.size : Int) ≤ address)
    (high : address < f.code.size) : g.weight < f.weight := by
  cases moved with
  | stay => exact f.weight_advance at_ low high
  | call place room =>
    cases place with
    | none => exact f.weight_pos at_ low high
    | some target => exact f.weight_call at_ low high room
  | exit r rest waits => exact f.weight_exit at_ low high waits

end Frame

/-! ## Every turn that goes on makes the machine lighter -/

namespace Machine

/-- The weight of a machine. -/
def weight (m : Machine) : Nat := m.frame.weight

theorem bounds_of_fetch {address : Int} {m : Machine} {cell : Cell}
    (h : m.fetch address = .ok cell) :
    -(m.code.size : Int) ≤ address ∧ address < m.code.size := by
  unfold fetch at h
  split at h
  · cases h
  · split at h
    · cases h
    · split at h
      · cases h
      · omega

theorem advance_of_nest {address : Value} {resume : Int} {m after : Machine}
    (h : m.nest address resume = .next after) : Frame.Advance resume m.frame after.frame := by
  unfold nest at h
  split at h
  · cases h
  · next room =>
    simp only at h
    split at h
    · next place _ =>
      cases h
      exact .call place (by simp only [frame, ← m.returns.depth_eq]; omega)
    · cases h

theorem advance_of_exit {base : Nat} {resume : Int} {m after : Machine}
    (h : m.stepExit base = .next after) : Frame.Advance resume m.frame after.frame := by
  unfold stepExit at h
  split at h
  · next r rest waits =>
    split at h
    · cases h
      exact .exit r rest.items (Stack.pop?_eq_some_iff.mp waits)
    · split at h <;> cases h
  · split at h <;> cases h

/-- An outcome that keeps the frame gives a turn that does. -/
theorem advance_of_outcome {resume : Int} {o : Outcome Unit} {m after : Machine}
    (kept : o.machine.frame = m.frame) (h : Turn.ofOutcome o = .next after) :
    Frame.Advance resume m.frame after.frame := by
  cases o with
  | done result ended =>
    cases h
    rw [Outcome.machine_done] at kept
    rw [kept]
    exact .stay
  | failed f ended => cases h

theorem advance_of_foreign {base : Nat} {resume : Int} {items : List Value}
    {m after : Machine} (h : m.stepForeign base resume items = .next after) :
    Frame.Advance resume m.frame after.frame := by
  unfold stepForeign at h
  split at h
  case h_7 => exact advance_of_exit h
  case h_10 =>
    split at h
    · cases h
      exact .stay
    · cases h
  case h_11 => exact advance_of_nest h
  case h_12 => exact advance_of_outcome (frame_bindBehavior _ m) h
  case h_13 => split at h <;> cases h
  all_goals cases h

theorem advance_of_step {base : Nat} {resume : Int} {m after : Machine} {cell : Cell}
    (h : m.step base resume cell = .next after) : Frame.Advance resume m.frame after.frame := by
  cases cell with
  | native entry =>
    simp only [step, stepNative] at h
    split at h
    · next name _ n _ =>
      split at h
      · next p _ => exact advance_of_outcome (frame_callWith name n p m) h
      · cases h
    · cases h
  | literal values =>
    cases h
    exact .stay
  | call target name =>
    rw [step] at h
    exact advance_of_nest h
  | created entry =>
    simp only [step, stepCreated] at h
    split at h
    · next slot _ _ =>
      split at h
      · cases h
        exact .stay
      · have := advance_of_nest h
        rwa [frame_pushAll] at this
    · cases h
  | does address =>
    rw [step] at h
    exact advance_of_outcome (frame_bindBehavior _ m) h
  | exit =>
    rw [step] at h
    exact advance_of_exit h
  | foreign items =>
    rw [step] at h
    exact advance_of_foreign h

/-- A turn after which the run goes on makes the machine lighter. -/
theorem weight_lt_of_turn_next {base : Nat} {m after : Machine}
    (h : m.turn base = .next after) : after.weight < m.weight := by
  unfold turn at h
  split at h
  · cases h
  · next address at_ =>
    split at h
    · next cell fetched =>
      obtain ⟨low, high⟩ := bounds_of_fetch fetched
      exact Frame.weight_lt_of_advance (advance_of_step h) at_ low high
    · cases h

end Machine
end ThreadedForth
