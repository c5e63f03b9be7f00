import ThreadedForth.Proofs.Plain

/-!
# What a turn leaves behind

In plain code a turn has fifteen ways to end, and which one it is matters to what the run
does next.  Here the code may hold anything: cells that were handed in and spell no
instruction, numbers that no word has, behaviors that are no addresses.  Then less can be
said, but it is still little that a turn can do.  It moves the place of execution and the
return stack, and besides at most one of three things happens to the store:

* values are pushed that the cell itself holds, or the slot that it names;
* a primitive is called;
* the word that was created last gets a behavior.

`Machine.Leaves` is that list, and `Machine.leaves_turn` says that it is complete.  The one
way in which a run is not its own master is `Turn.enter`: it takes a native cell whose word
is no primitive (`Machine.native_of_enter`).
-/

namespace ThreadedForth

/-- The machine that a turn leaves. -/
def Turn.machine : Turn → Machine
  | next m | halt m | enter _ _ m | fault _ m => m

/-- Whether a turn ends the run. -/
def Turn.halts : Turn → Bool
  | halt _ => true
  | _ => false

theorem Turn.eq_halt_of_halts {t : Turn} (h : t.halts) : t = .halt t.machine := by
  cases t with
  | halt m => rfl
  | _ => cases h

theorem Turn.machine_ofOutcome (o : Outcome Unit) : (Turn.ofOutcome o).machine = o.machine := by
  cases o with
  | done a m => rfl
  | failed f m => rfl

namespace Cell

/-- The values that a cell pushes by itself. -/
inductive Pushes (d : Dictionary) : Cell → List Value → Prop where
  | literal (values : List Value) : Pushes d (.literal values) values
  | row {v : Value} {values rest : List Value} (items : v.items? = some values) :
      Pushes d (.foreign (.text "literal" :: v :: rest)) values
  | slot {entry slot : Nat} {name : String} {immediate : Bool} {behavior : Value}
      (known : d.get? entry = some ⟨name, immediate, .created slot behavior⟩) :
      Pushes d (.created entry) [.cell slot]

/-- The behavior that a cell gives. -/
inductive Gives : Cell → Value → Prop where
  | does (target : Int) : Gives (.does target) (.int target)
  | row (behavior : Value) (rest : List Value) :
      Gives (.foreign (.text "does" :: behavior :: rest)) behavior

end Cell

namespace Machine

variable {m after : Machine} {base : Nat}

/-- The cell at the place of execution. -/
def current? (m : Machine) : Option Cell := m.ip.bind fun address => (m.fetch address).toOption

theorem current?_of_fetch {address : Int} {cell : Cell} (at_ : m.ip = some address)
    (fetched : m.fetch address = .ok cell) : m.current? = some cell := by
  simp [current?, at_, fetched, Except.toOption]

theorem mem_of_current? {cell : Cell} (h : m.current? = some cell) : cell ∈ m.code := by
  obtain ⟨address, -, found⟩ := Option.bind_eq_some_iff.mp h
  cases fetched : m.fetch address with
  | error f =>
    rw [fetched] at found
    cases found
  | ok other =>
    rw [fetched] at found
    cases found
    exact mem_of_fetch fetched

/-- What a turn can leave of a machine. -/
inductive Leaves (m : Machine) : Machine → Prop where
  | place (returns : Stack Int) (ip : Option Int) :
      Leaves m { m with returns := returns, ip := ip }
  | pushed {cell : Cell} {values : List Value} (at_ : m.current? = some cell)
      (pushes : cell.Pushes m.dictionary values) (returns : Stack Int) (ip : Option Int) :
      Leaves m { m.pushAll values with returns := returns, ip := ip }
  | primitive {entry : Nat} {name : String} {immediate : Bool} {n : Native} {p : Primitive}
      (at_ : m.current? = some (.native entry))
      (known : m.dictionary.get? entry = some ⟨name, immediate, .native n⟩)
      (kind : n.action = .primitive p) (resume : Int) :
      Leaves m ((m.moved resume).callWith name n p.perform).machine
  | behavior {cell : Cell} {v : Value} (at_ : m.current? = some cell) (gives : cell.Gives v)
      (resume : Int) : Leaves m ((m.moved resume).bindBehavior v).machine

/-- A call leaves the store alone, whether there is room for it or not. -/
theorem machine_nest (address : Value) (resume : Int) (m : Machine) :
    ∃ returns ip, (m.nest address resume).machine = { m with returns := returns, ip := ip } := by
  unfold nest
  split
  · exact ⟨m.returns, m.ip, rfl⟩
  · simp only
    split
    · next place _ => exact ⟨m.returns.push resume, place, rfl⟩
    · exact ⟨m.returns.push resume, m.ip, rfl⟩

/-- So does an exit. -/
theorem machine_stepExit (base : Nat) (m : Machine) :
    ∃ returns ip, (m.stepExit base).machine = { m with returns := returns, ip := ip } := by
  unfold stepExit
  split
  · next r rest _ =>
    split
    · exact ⟨rest, some r, rfl⟩
    · split
      · exact ⟨m.returns, none, rfl⟩
      · exact ⟨m.returns, m.ip, rfl⟩
  · split
    · exact ⟨m.returns, none, rfl⟩
    · exact ⟨m.returns, m.ip, rfl⟩

theorem leaves_stepNative {entry : Nat} (at_ : m.current? = some (.native entry))
    (resume : Int) : m.Leaves ((m.moved resume).stepNative entry).machine := by
  unfold stepNative
  split
  · next name immediate n known =>
    split
    · next p kind =>
      rw [Turn.machine_ofOutcome]
      exact .primitive at_ known kind resume
    · exact .place m.returns (some resume)
  · exact .place m.returns (some resume)

theorem leaves_stepCreated {entry : Nat} (at_ : m.current? = some (.created entry))
    (resume : Int) : m.Leaves ((m.moved resume).stepCreated entry resume).machine := by
  unfold stepCreated
  split
  · next name immediate slot behavior known =>
    have pushes : (Cell.created entry).Pushes m.dictionary [.cell slot] := .slot known
    simp only
    split
    · exact .pushed at_ pushes m.returns (some resume)
    · next address =>
      obtain ⟨returns, ip, left⟩ :=
        machine_nest behavior resume ((m.moved resume).pushAll [.cell slot])
      rw [left]
      exact .pushed at_ pushes returns ip
  · exact .place m.returns (some resume)

theorem leaves_stepForeign {items : List Value} (at_ : m.current? = some (.foreign items))
    (resume : Int) : m.Leaves ((m.moved resume).stepForeign base resume items).machine := by
  unfold stepForeign
  split
  case h_7 =>
    obtain ⟨returns, ip, left⟩ := machine_stepExit base (m.moved resume)
    rw [left]
    exact .place returns ip
  case h_10 v rest =>
    split
    · next values spelled => exact .pushed at_ (.row spelled) m.returns (some resume)
    · exact .place m.returns (some resume)
  case h_11 address rest =>
    obtain ⟨returns, ip, left⟩ := machine_nest address resume (m.moved resume)
    rw [left]
    exact .place returns ip
  case h_12 behavior rest =>
    rw [Turn.machine_ofOutcome]
    exact .behavior at_ (.row behavior rest) resume
  case h_13 =>
    split
    · exact .place m.returns (some resume)
    · exact .place m.returns (some resume)
  all_goals exact .place m.returns (some resume)

/-- Whatever the code holds, a turn leaves the machine in one of the listed ways. -/
theorem leaves_turn (base : Nat) (m : Machine) : m.Leaves (m.turn base).machine := by
  unfold turn
  split
  · exact .place m.returns m.ip
  · next address at_ =>
    split
    · next cell fetched =>
      have current := current?_of_fetch at_ fetched
      cases cell with
      | native entry => exact leaves_stepNative current (address + 1)
      | literal values => exact .pushed current (.literal values) m.returns (some (address + 1))
      | call target name =>
        obtain ⟨returns, ip, left⟩ :=
          machine_nest (.int target) (address + 1) (m.moved (address + 1))
        have step_call : (step base (address + 1) (m.moved (address + 1))
            (.call target name)).machine = _ := left
        exact step_call ▸ .place returns ip
      | created entry => exact leaves_stepCreated current (address + 1)
      | does target =>
        have bound : m.Leaves ((m.moved (address + 1)).bindBehavior (.int target)).machine :=
          .behavior current (.does target) (address + 1)
        exact (Turn.machine_ofOutcome _).symm ▸ bound
      | exit =>
        obtain ⟨returns, ip, left⟩ := machine_stepExit base (m.moved (address + 1))
        have step_exit : (step base (address + 1) (m.moved (address + 1)) .exit).machine = _ :=
          left
        exact step_exit ▸ .place returns ip
      | foreign items => exact leaves_stepForeign current (address + 1)
    · exact .place m.returns m.ip

/-! ## Handing over -/

theorem nest_ne_enter {address : Value} {resume : Int} {name : String} {n : Native} :
    m.nest address resume ≠ .enter name n after := by
  unfold nest
  intro h
  split at h
  · cases h
  · simp only at h
    split at h <;> cases h

theorem stepExit_ne_enter {name : String} {n : Native} :
    m.stepExit base ≠ .enter name n after := by
  unfold stepExit
  intro h
  split at h
  · split at h
    · cases h
    · split at h <;> cases h
  · split at h <;> cases h

theorem stepForeign_ne_enter {resume : Int} {items : List Value} {name : String} {n : Native} :
    m.stepForeign base resume items ≠ .enter name n after := by
  unfold stepForeign
  intro h
  split at h
  case h_7 => exact stepExit_ne_enter h
  case h_10 => split at h <;> cases h
  case h_11 => exact nest_ne_enter h
  case h_12 => exact Turn.enter_ne_ofOutcome h.symm
  case h_13 => split at h <;> cases h
  all_goals cases h

/-- A run is handed over by a native cell alone, and only if its word is no primitive. -/
theorem native_of_enter {name : String} {n : Native} (h : m.turn base = .enter name n after) :
    ∃ entry immediate resume, m.current? = some (.native entry) ∧
      m.dictionary.get? entry = some ⟨name, immediate, .native n⟩ ∧
      (∀ p, n.action ≠ .primitive p) ∧ after = m.moved resume := by
  unfold turn at h
  split at h
  · cases h
  · next address at_ =>
    split at h
    · next cell fetched =>
      have current := current?_of_fetch at_ fetched
      cases cell with
      | native entry =>
        simp only [step, stepNative] at h
        split at h
        · next name' immediate n' known =>
          split at h
          · exact absurd h.symm Turn.enter_ne_ofOutcome
          · next other =>
            cases h
            exact ⟨entry, immediate, address + 1, current, known, other, rfl⟩
        · cases h
      | literal values => cases h
      | call target word =>
        rw [step] at h
        exact absurd h nest_ne_enter
      | created entry =>
        simp only [step, stepCreated] at h
        split at h
        · split at h
          · cases h
          · exact absurd h nest_ne_enter
        · cases h
      | does target =>
        rw [step] at h
        exact absurd h.symm Turn.enter_ne_ofOutcome
      | exit =>
        rw [step] at h
        exact absurd h stepExit_ne_enter
      | foreign items =>
        rw [step] at h
        exact absurd h stepForeign_ne_enter
    · cases h

end Machine
end ThreadedForth
