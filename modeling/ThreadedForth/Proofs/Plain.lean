import ThreadedForth.Proofs.Contract.Session

/-!
# Plain code

Cells refer to words by their numbers.  A machine is *plain* when every reference is
good: a native cell names a native word that is no directive, a created cell names a
created word, and no cell fails to spell an instruction.  Besides, directives are
immediate, behaviors are absent or integers, and the host callables have a property
that can be chosen.

Being plain does not depend on how far a definition has got, on what runs, or on where
it runs.  It survives everything except a cell that is handed in from outside
(`plain_spanning`), because words never change their kind (`Dictionary.Extends`).

In plain code a turn has fifteen ways to end, and `Machine.Turned` lists them.  Whatever
is said later about runs goes through this list.
-/

namespace ThreadedForth

/-! ## Words keep their kind -/

/-- What a word may become: it can be marked as immediate, and a created word can get
another behavior. -/
structure Word.Becomes (w v : Word) : Prop where
  name : v.name = w.name
  immediate : w.immediate = true → v.immediate = true
  body : v.body = w.body ∨
    ∃ slot old new, w.body = .created slot old ∧ v.body = .created slot new

namespace Word.Becomes

theorem refl (w : Word) : w.Becomes w := ⟨rfl, id, .inl rfl⟩

theorem trans {u v w : Word} (first : u.Becomes v) (second : v.Becomes w) : u.Becomes w where
  name := second.name.trans first.name
  immediate := second.immediate ∘ first.immediate
  body := by
    rcases second.body with same | ⟨slot, old, new, was, is⟩
    · rw [same]
      exact first.body
    · rcases first.body with same | ⟨slot', old', new', was', is'⟩
      · exact .inr ⟨slot, old, new, same ▸ was, is⟩
      · rw [is'] at was
        cases was
        exact .inr ⟨slot, old', new, was', is⟩

theorem native {w v : Word} {n : Native} (changed : w.Becomes v) (h : w.body = .native n) :
    v.body = .native n := by
  rcases changed.body with same | ⟨_, _, _, was, _⟩
  · rw [same, h]
  · rw [h] at was
    cases was

theorem colon {w v : Word} {address : Nat} (changed : w.Becomes v) (h : w.body = .colon address) :
    v.body = .colon address := by
  rcases changed.body with same | ⟨_, _, _, was, _⟩
  · rw [same, h]
  · rw [h] at was
    cases was

theorem created {w v : Word} {slot : Nat} {old : Value} (changed : w.Becomes v)
    (h : w.body = .created slot old) : ∃ new, v.body = .created slot new := by
  rcases changed.body with same | ⟨_, _, new, was, is⟩
  · exact ⟨old, by rw [same, h]⟩
  · rw [h] at was
    cases was
    exact ⟨new, is⟩

end Word.Becomes

namespace Dictionary

/-- The second dictionary has the entries of the first one, at the same numbers. -/
def Extends (d e : Dictionary) : Prop :=
  ∀ entry w, d.get? entry = some w → ∃ v, e.get? entry = some v ∧ w.Becomes v

variable {d : Dictionary}

theorem Extends.refl (d : Dictionary) : d.Extends d := fun _ w known => ⟨w, known, .refl w⟩

theorem Extends.trans {e f : Dictionary} (first : d.Extends e) (second : e.Extends f) :
    d.Extends f := by
  intro entry w known
  obtain ⟨v, known', changed⟩ := first entry w known
  obtain ⟨u, known'', changed'⟩ := second entry v known'
  exact ⟨u, known'', changed.trans changed'⟩

theorem get?_eq_some_iff_lt {entry : Nat} : (∃ w, d.get? entry = some w) ↔ entry < d.size := by
  unfold get? size
  constructor
  · rintro ⟨w, known⟩
    exact (Array.getElem?_eq_some_iff.mp known).1
  · intro low
    exact ⟨d.entries[entry], Array.getElem?_eq_getElem low⟩

theorem extends_push (w : Word) : d.Extends (d.push w) := by
  intro entry v known
  have low := get?_eq_some_iff_lt.mp ⟨v, known⟩
  exact ⟨v, by rw [get?_push_of_lt w low, known], .refl v⟩

/-- The entries after one more was added. -/
theorem get?_push {w v : Word} {entry : Nat} (known : (d.push w).get? entry = some v) :
    d.get? entry = some v ∨ entry = d.size ∧ v = w := by
  have low := get?_eq_some_iff_lt.mp ⟨v, known⟩
  rw [size_push] at low
  rcases Nat.lt_succ_iff_lt_or_eq.mp low with old | rfl
  · rw [get?_push_of_lt w old] at known
    exact .inl known
  · rw [get?_push_size] at known
    cases known
    exact .inr ⟨rfl, rfl⟩

/-- The entries after several were added. -/
theorem entries_foldl_push (d : Dictionary) (words : List Word) :
    (words.foldl push d).entries = d.entries ++ words.toArray := by
  induction words generalizing d with
  | nil => simp
  | cons w rest ih =>
    rw [List.foldl_cons, ih]
    simp [push]

theorem get?_markImmediate (target entry : Nat) :
    (d.markImmediate target).get? entry =
      if target = entry then (d.get? entry).map fun w => { w with immediate := true }
      else d.get? entry := by
  unfold get? markImmediate modify
  rw [Array.getElem?_modify]

theorem get?_setBehavior (target entry : Nat) (behavior : Value) :
    (d.setBehavior target behavior).get? entry =
      if target = entry then (d.get? entry).map (givenBehavior behavior) else d.get? entry := by
  unfold get? setBehavior modify
  rw [Array.getElem?_modify]

/-- The behavior that was given last counts. -/
theorem givenBehavior_givenBehavior (first second : Value) (w : Word) :
    givenBehavior second (givenBehavior first w) = givenBehavior second w := by
  obtain ⟨name, immediate, body⟩ := w
  cases body with
  | _ => rfl

theorem becomes_givenBehavior (behavior : Value) (w : Word) :
    w.Becomes (givenBehavior behavior w) := by
  obtain ⟨name, immediate, body⟩ := w
  cases body with
  | created slot old => exact ⟨rfl, id, .inr ⟨slot, old, behavior, rfl, rfl⟩⟩
  | _ => exact .refl _

theorem extends_markImmediate (target : Nat) : d.Extends (d.markImmediate target) := by
  intro entry w known
  rw [get?_markImmediate, known]
  split
  · exact ⟨_, rfl, rfl, fun _ => rfl, .inl rfl⟩
  · exact ⟨w, rfl, .refl w⟩

theorem extends_setBehavior (target : Nat) (behavior : Value) :
    d.Extends (d.setBehavior target behavior) := by
  intro entry w known
  rw [get?_setBehavior, known]
  split
  · exact ⟨_, rfl, becomes_givenBehavior behavior w⟩
  · exact ⟨w, rfl, .refl w⟩

end Dictionary

/-! ## Cells and entries that are in order -/

/-- The cell is an instruction, and the entry it names is of the kind it asks for. -/
def Cell.Fits (d : Dictionary) : Cell → Prop
  | .native entry => ∃ name immediate n, d.get? entry = some ⟨name, immediate, .native n⟩ ∧
      ∀ directive, n.action ≠ .directive directive
  | .created entry => ∃ name immediate slot behavior,
      d.get? entry = some ⟨name, immediate, .created slot behavior⟩
  | .foreign _ => False
  | _ => True

theorem Cell.Fits.mono {d e : Dictionary} {cell : Cell} (grown : d.Extends e)
    (fits : cell.Fits d) : cell.Fits e := by
  cases cell with
  | native entry =>
    obtain ⟨name, immediate, n, known, free⟩ := fits
    obtain ⟨⟨name', immediate', body⟩, known', changed⟩ := grown _ _ known
    obtain rfl : body = .native n := changed.native rfl
    exact ⟨name', immediate', n, known', free⟩
  | created entry =>
    obtain ⟨name, immediate, slot, behavior, known⟩ := fits
    obtain ⟨⟨name', immediate', body⟩, known', changed⟩ := grown _ _ known
    obtain ⟨new, same⟩ := changed.created rfl
    obtain rfl : body = .created slot new := same
    exact ⟨name', immediate', slot, new, known'⟩
  | foreign items => exact fits
  | _ => trivial

/-- The entry is in order: a directive is immediate, a host callable has the property `P`,
and a behavior is absent or an integer. -/
def Word.Fits (P : Host.Callable → Prop) (w : Word) : Prop :=
  match w.body with
  | .native n => (∀ directive, n.action = .directive directive → w.immediate = true) ∧
      ∀ f, n.action = .host f → P f
  | .colon _ => True
  | .created _ behavior => behavior = .none ∨ ∃ address, behavior = .int address

theorem Word.Fits.mono {P Q : Host.Callable → Prop} {w : Word} (weaker : ∀ f, P f → Q f)
    (fits : w.Fits P) : w.Fits Q := by
  obtain ⟨name, immediate, body⟩ := w
  cases body with
  | native n => exact ⟨fits.1, fun f host => weaker f (fits.2 f host)⟩
  | colon address => trivial
  | created slot behavior => exact fits

theorem Word.Fits.markImmediate {P : Host.Callable → Prop} {w : Word} (fits : w.Fits P) :
    Word.Fits P { w with immediate := true } := by
  obtain ⟨name, immediate, body⟩ := w
  cases body with
  | native n => exact ⟨fun _ _ => rfl, fits.2⟩
  | colon address => trivial
  | created slot behavior => exact fits

theorem Word.Fits.givenBehavior {P : Host.Callable → Prop} {w : Word} (address : Int)
    (fits : w.Fits P) : Word.Fits P (Dictionary.givenBehavior (.int address) w) := by
  obtain ⟨name, immediate, body⟩ := w
  cases body with
  | native n => exact fits
  | colon old => trivial
  | created slot behavior => exact .inr ⟨address, rfl⟩

/-- Every cell and every entry is in order. -/
structure Machine.Plain (P : Host.Callable → Prop) (m : Machine) : Prop where
  cells : ∀ cell ∈ m.code, cell.Fits m.dictionary
  entries : ∀ entry w, m.dictionary.get? entry = some w → w.Fits P

namespace Machine

variable {P : Host.Callable → Prop} {m after : Machine}

/-- The cell of a word that is not immediate is in order. -/
theorem Plain.fits_cellOf {entry : Nat} {w : Word} (plain : m.Plain P)
    (known : m.dictionary.get? entry = some w) (open_ : w.immediate = false) :
    (cellOf entry w).Fits m.dictionary := by
  have fits := plain.entries entry w known
  obtain ⟨name, immediate, body⟩ := w
  cases body with
  | native n =>
    refine ⟨name, immediate, n, known, fun directive kind => ?_⟩
    have marked := fits.1 directive kind
    rw [open_] at marked
    cases marked
  | colon address => trivial
  | created slot behavior => exact ⟨name, immediate, slot, behavior, known⟩

theorem Plain.fits_compiled {cell : Cell} (plain : m.Plain P) (made : Compiled m cell) :
    cell.Fits m.dictionary := by
  cases made with
  | exit => trivial
  | literal values => trivial
  | entry known open_ => exact plain.fits_cellOf known open_
  | own open_ => trivial

/-- Plainness depends on the code and the dictionary alone. -/
theorem Plain.congr (plain : m.Plain P) (code : after.code = m.code)
    (dictionary : after.dictionary = m.dictionary) : after.Plain P := by
  refine ⟨?_, ?_⟩
  · rw [code, dictionary]
    exact plain.cells
  · rw [dictionary]
    exact plain.entries

/-- Cells that are in order can be added. -/
theorem Plain.append {cell : Cell} (plain : m.Plain P) (fits : cell.Fits m.dictionary) :
    (m.append cell).Plain P := by
  refine ⟨fun c inside => ?_, plain.entries⟩
  rcases Array.mem_push.mp inside with old | rfl
  · exact plain.cells c old
  · exact fits

/-- Words that are in order can be added. -/
theorem Plain.push {w : Word} (plain : m.Plain P) (fits : w.Fits P)
    (dictionary : after.dictionary = m.dictionary.push w) (code : after.code = m.code) :
    after.Plain P := by
  refine ⟨fun cell inside => ?_, fun entry v known => ?_⟩
  · rw [code] at inside
    rw [dictionary]
    exact (plain.cells cell inside).mono (Dictionary.extends_push w)
  · rw [dictionary] at known
    rcases Dictionary.get?_push known with old | ⟨-, rfl⟩
    · exact plain.entries entry v old
    · exact fits

theorem Plain.markImmediate (target : Nat) (plain : m.Plain P) :
    Plain P { m with dictionary := m.dictionary.markImmediate target } := by
  refine ⟨fun cell inside => ?_, fun entry v known => ?_⟩
  · exact (plain.cells cell inside).mono (Dictionary.extends_markImmediate target)
  · rw [Dictionary.get?_markImmediate] at known
    split at known
    · obtain ⟨w, old, rfl⟩ := Option.map_eq_some_iff.mp known
      exact (plain.entries entry w old).markImmediate
    · exact plain.entries entry v known

theorem Plain.setBehavior (target : Nat) (address : Int) (plain : m.Plain P) :
    Plain P { m with dictionary := m.dictionary.setBehavior target (.int address) } := by
  refine ⟨fun cell inside => ?_, fun entry v known => ?_⟩
  · exact (plain.cells cell inside).mono (Dictionary.extends_setBehavior target _)
  · rw [Dictionary.get?_setBehavior] at known
    split at known
    · obtain ⟨w, old, rfl⟩ := Option.map_eq_some_iff.mp known
      exact (plain.entries entry w old).givenBehavior address
    · exact plain.entries entry v known

theorem Plain.edit (plain : m.Plain P) (changed : Edit m after) : after.Plain P := by
  cases changed with
  | data same => exact plain.congr rfl same.dictionary
  | openDraft idle => exact plain.congr rfl rfl
  | dropDraft => exact plain.congr rfl rfl
  | markDraft open_ => exact plain.congr rfl rfl
  | markEntry last => exact plain.markImmediate _
  | @create name valid =>
    have fits : Word.Fits P ⟨name, false, .created m.slots.size .none⟩ := .inl rfl
    exact plain.push fits rfl rfl
  | append compiling made => exact plain.append (plain.fits_compiled made)
  | join compiling last free joined =>
    refine ⟨fun cell inside => ?_, plain.entries⟩
    obtain ⟨earlier, same⟩ := Array.back?_eq_some_iff.mp last
    simp only [same, Array.pop_push] at inside
    rcases Array.mem_push.mp inside with old | rfl
    · refine plain.cells cell ?_
      rw [same]
      exact Array.mem_push_of_mem _ old
    · trivial
  | does compiling =>
    have begun : (m.append (.does (m.code.size + 2 : Nat))).Plain P := plain.append trivial
    have appended : ((m.append (.does (m.code.size + 2 : Nat))).append .exit).Plain P :=
      begun.append trivial
    exact appended.congr rfl rfl
  | @finish draft compiling open_ =>
    have appended : (m.append .exit).Plain P := plain.append trivial
    have fits : Word.Fits P ⟨draft.name, draft.immediate, .colon draft.address⟩ := trivial
    exact appended.push fits rfl rfl
  | close compiling none_ =>
    have appended : (m.append .exit).Plain P := plain.append trivial
    exact appended.congr rfl rfl

theorem Plain.edits (plain : m.Plain P) (changed : Edits m after) : after.Plain P := by
  induction changed with
  | refl => exact plain
  | tail _ last ih => exact ih.edit last

/-- What is fetched from an address that is not below zero is the cell that stands there,
whatever else the machine holds. -/
theorem fetch_eq_ok_iff {a : Nat} {cell : Cell} :
    m.fetch a = .ok cell ↔ m.code[a]? = some cell := by
  have index : (if (a : Int) < 0 then (a : Int) + m.code.size else a).toNat = a := by
    rw [if_neg (by omega)]
    exact Int.toNat_natCast a
  constructor
  · intro fetched
    have high := (bounds_of_fetch fetched).2
    unfold fetch at fetched
    rw [if_neg (by omega), if_neg (by omega), if_neg (by omega)] at fetched
    simp only [index] at fetched
    split at fetched
    · next found =>
      cases fetched
      exact found
    · cases fetched
  · intro known
    have high : a < m.code.size := (Array.getElem?_eq_some_iff.mp known).1
    unfold fetch
    rw [if_neg (by omega), if_neg (by omega), if_neg (by omega)]
    simp only [index, known]

/-- A cell that can be fetched stands in the code. -/
theorem mem_of_fetch {address : Int} {cell : Cell} (h : m.fetch address = .ok cell) :
    cell ∈ m.code := by
  unfold fetch at h
  split at h
  · cases h
  · split at h
    · cases h
    · split at h
      · cases h
      · simp only at h
        split at h
        · next found =>
          cases h
          exact Array.mem_of_getElem? found
        · cases h

/-- Cells that can be fetched are in order. -/
theorem Plain.fits_of_fetch {address : Int} {cell : Cell} (plain : m.Plain P)
    (h : m.fetch address = .ok cell) : cell.Fits m.dictionary :=
  plain.cells cell (mem_of_fetch h)

/-! ## The turns of plain code -/

/-- The machine with its place of execution at an address. -/
def moved (address : Int) (m : Machine) : Machine := { m with ip := some address }

/-- The machine in a call of `target` that comes back to `resume`. -/
def called (target resume : Int) (m : Machine) : Machine :=
  { m with returns := m.returns.push resume, ip := some target }

/-- How a turn of plain code ends. -/
inductive Turned (base : Nat) (m : Machine) : Turn → Prop where
  /-- Nothing is running. -/
  | rest (idle : m.ip = none) : Turned base m (.halt m)
  /-- There is no cell at the address. -/
  | lost {address : Int} {f : Fault} (at_ : m.ip = some address)
      (missing : m.fetch address = .error f) : Turned base m (.fault f m)
  | literal {address : Int} {values : List Value} (at_ : m.ip = some address)
      (fetched : m.fetch address = .ok (.literal values)) :
      Turned base m (.next ((m.moved (address + 1)).pushAll values))
  | primitive {address : Int} {entry : Nat} {name : String} {immediate : Bool} {n : Native}
      {p : Primitive} (at_ : m.ip = some address)
      (fetched : m.fetch address = .ok (.native entry))
      (known : m.dictionary.get? entry = some ⟨name, immediate, .native n⟩)
      (kind : n.action = .primitive p) :
      Turned base m (.ofOutcome ((m.moved (address + 1)).callWith name n p.perform))
  | host {address : Int} {entry : Nat} {name : String} {immediate : Bool} {n : Native}
      {f : Host.Callable} (at_ : m.ip = some address)
      (fetched : m.fetch address = .ok (.native entry))
      (known : m.dictionary.get? entry = some ⟨name, immediate, .native n⟩)
      (kind : n.action = .host f) : Turned base m (.enter name n (m.moved (address + 1)))
  | call {address target : Int} {name : String} (at_ : m.ip = some address)
      (fetched : m.fetch address = .ok (.call target name))
      (room : (m.returns.depth : Int) < m.capacity) :
      Turned base m (.next ((m.moved (address + 1)).called target (address + 1)))
  | callFull {address target : Int} {name : String} (at_ : m.ip = some address)
      (fetched : m.fetch address = .ok (.call target name))
      (full : m.capacity ≤ m.returns.depth) :
      Turned base m (.fault (.full m.capacity) (m.moved (address + 1)))
  | created {address : Int} {entry slot : Nat} {name : String} {immediate : Bool}
      (at_ : m.ip = some address) (fetched : m.fetch address = .ok (.created entry))
      (known : m.dictionary.get? entry = some ⟨name, immediate, .created slot .none⟩) :
      Turned base m (.next ((m.moved (address + 1)).pushAll [.cell slot]))
  | behavior {address target : Int} {entry slot : Nat} {name : String} {immediate : Bool}
      (at_ : m.ip = some address) (fetched : m.fetch address = .ok (.created entry))
      (known : m.dictionary.get? entry = some ⟨name, immediate, .created slot (.int target)⟩)
      (room : (m.returns.depth : Int) < m.capacity) :
      Turned base m
        (.next (((m.moved (address + 1)).pushAll [.cell slot]).called target (address + 1)))
  | behaviorFull {address target : Int} {entry slot : Nat} {name : String} {immediate : Bool}
      (at_ : m.ip = some address) (fetched : m.fetch address = .ok (.created entry))
      (known : m.dictionary.get? entry = some ⟨name, immediate, .created slot (.int target)⟩)
      (full : m.capacity ≤ m.returns.depth) :
      Turned base m (.fault (.full m.capacity)
        ((m.moved (address + 1)).pushAll [.cell slot]))
  | does {address target : Int} (at_ : m.ip = some address)
      (fetched : m.fetch address = .ok (.does target)) :
      Turned base m (.ofOutcome ((m.moved (address + 1)).bindBehavior (.int target)))
  | leave {address r : Int} {rest : Stack Int} (at_ : m.ip = some address)
      (fetched : m.fetch address = .ok .exit) (waits : m.returns.items = r :: rest.items)
      (above : base ≤ rest.depth) :
      Turned base m (.next { m with returns := rest, ip := some r })
  | finish {address : Int} (at_ : m.ip = some address)
      (fetched : m.fetch address = .ok .exit) (level : m.returns.depth = base) :
      Turned base m (.halt { m with ip := none })
  | under {address : Int} (at_ : m.ip = some address)
      (fetched : m.fetch address = .ok .exit) (below : m.returns.depth < base) :
      Turned base m (.fault (.returnUnderflow m.returns.depth base) (m.moved (address + 1)))

theorem nest_int (target resume : Int) (m : Machine) :
    m.nest (.int target) resume =
      if m.capacity ≤ m.returns.depth then .fault (.full m.capacity) m
      else .next (m.called target resume) := by
  unfold nest
  split <;> rfl

/-- How the turn of an exit ends. -/
theorem turned_exit {base : Nat} {address : Int} (at_ : m.ip = some address)
    (fetched : m.fetch address = .ok .exit) :
    Turned base m ((m.moved (address + 1)).stepExit base) := by
  unfold stepExit
  have depth := m.returns.depth_eq
  split
  · next r rest popped =>
    have waits : m.returns.items = r :: rest.items := Stack.pop?_eq_some_iff.mp popped
    rw [waits, List.length_cons, ← rest.depth_eq] at depth
    split
    · next above => exact .leave at_ fetched waits above
    · split
      · next level => exact .finish at_ fetched (by omega)
      · rw [← depth]
        exact .under at_ fetched (by omega)
  · next popped =>
    have empty : m.returns.items = [] := Stack.pop?_eq_none_iff.mp popped
    rw [empty, List.length_nil] at depth
    split
    · exact .finish at_ fetched (by omega)
    · rw [← depth]
      exact .under at_ fetched (by omega)

/-- A turn of plain code ends in one of the listed ways. -/
theorem Plain.turned (plain : m.Plain P) (base : Nat) : Turned base m (m.turn base) := by
  unfold turn
  split
  · next idle => exact .rest idle
  · next address at_ =>
    split
    · next cell fetched =>
      have fits := plain.fits_of_fetch fetched
      cases cell with
      | literal values => exact .literal at_ fetched
      | native entry =>
        obtain ⟨name, immediate, n, known, free⟩ := fits
        simp only [step, stepNative, known]
        cases kind : n.action with
        | primitive p => exact .primitive at_ fetched known kind
        | directive d => exact absurd kind (free d)
        | host f => exact .host at_ fetched known kind
      | call target name =>
        simp only [step, nest_int]
        split
        · next full => exact .callFull at_ fetched full
        · next room => exact .call at_ fetched (Int.not_le.mp room)
      | created entry =>
        obtain ⟨name, immediate, slot, behavior, known⟩ := fits
        simp only [step, stepCreated, known]
        have integer : behavior = .none ∨ ∃ target, behavior = .int target :=
          plain.entries entry _ known
        rcases integer with rfl | ⟨target, rfl⟩
        · exact .created at_ fetched known
        · simp only [nest_int]
          split
          · next full => exact .behaviorFull at_ fetched known full
          · next room => exact .behavior at_ fetched known (Int.not_le.mp room)
      | does target => exact .does at_ fetched
      | exit => exact turned_exit at_ fetched
      | foreign items => exact fits.elim
    · next f missing => exact .lost at_ missing

/-- A primitive that is called never derails a run. -/
theorem calm_of_callPrimitive {name : String} {n : Native} {p : Primitive} {f : Fault}
    (h : m.callWith name n p.perform = .failed f after) : f.derails = false := by
  unfold callWith at h
  split at h
  · cases h
    exact Fault.derails_short _ _ _
  · simp only [Primitive.perform_eq] at h
    generalize ends : p.apply _ _ _ = result at h
    cases result with
    | ok made => cases h
    | error g =>
      cases h
      exact Primitive.steady_apply _ p _ _ f ends

/-- What giving a behavior does: there is no word to take it, or the word created last
takes it, and a note is made of that if it can be written. -/
theorem bindBehavior_cases (behavior : Value) (m : Machine) :
    m.lastCreated = none ∧ m.bindBehavior behavior = .failed .nothingCreated m ∨
      ∃ entry s, m.lastCreated = some entry ∧
        Store.SameBooks
          { m.toStore with dictionary := m.dictionary.setBehavior entry behavior } s ∧
        m.bindBehavior behavior = .done () { m with toStore := s } := by
  unfold bindBehavior
  split
  · next none_ => exact .inl ⟨none_, rfl⟩
  · next entry last =>
    right
    refine ⟨entry, ?_⟩
    simp only
    rcases noteBehavior_cases ((m.dictionary.get? entry).elim "" Word.name) behavior
      { m with dictionary := m.dictionary.setBehavior entry behavior } with ⟨text, noted⟩ | noted
    · rw [noted]
      exact ⟨_, last, Store.sameBooks_note .., rfl⟩
    · rw [noted]
      exact ⟨_, last, .refl _, rfl⟩

theorem calm_of_bindBehavior {target : Int} {f : Fault}
    (h : m.bindBehavior (.int target) = .failed f after) : f.derails = false := by
  rcases bindBehavior_cases (.int target) m with ⟨-, ends⟩ | ⟨entry, s, -, -, ends⟩
  · rw [h] at ends
    cases ends
    rfl
  · rw [h] at ends
    cases ends

/-! ## Runs -/

end Machine

namespace Turn

/-- Where a turn leads: the run goes on in a state with the property `J`, or it ends in a
way that has the property `Q`. -/
def Leads (call : Caller) (J : Machine → Prop) (Q : Outcome Unit → Prop) : Turn → Prop
  | next after => J after
  | halt after => Q (.done () after)
  | fault f after => Q (.failed f after)
  | enter name n after => Q (.failed .exhausted after) ∧
    (∀ ended, after.callNative call name n = .done () ended → J ended) ∧
    ∀ f ended, after.callNative call name n = .failed f ended → Q (.failed f ended)

/-- An operation that keeps the property leads on, if its failures end the run well. -/
theorem leads_ofOutcome {call : Caller} {J : Machine → Prop} {Q : Outcome Unit → Prop}
    {o : Outcome Unit} (kept : J o.machine)
    (failed : ∀ f after, o = .failed f after → J after → Q (.failed f after)) :
    (ofOutcome o).Leads call J Q := by
  cases o with
  | done a after => exact kept
  | failed f after => exact failed f after rfl kept

theorem failed_of_ofOutcome {f : Fault} {m : Machine} {o : Outcome Unit}
    (h : fault f m = ofOutcome o) : o = .failed f m := by
  cases o with
  | done a after => cases h
  | failed g after =>
    cases h
    rfl

theorem enter_ne_ofOutcome {name : String} {n : Native} {m : Machine} {o : Outcome Unit} :
    enter name n m ≠ ofOutcome o := by
  cases o with
  | done a after => exact nofun
  | failed f after => exact nofun

end Turn

namespace Machine

/-- A turn of plain code hands over to host callables only. -/
theorem Plain.host_of_enter {P : Host.Callable → Prop} {m after : Machine} {base : Nat}
    {name : String} {n : Native} (plain : m.Plain P) (h : m.turn base = .enter name n after) :
    ∃ address entry immediate, after = m.moved address ∧
      m.dictionary.get? entry = some ⟨name, immediate, .native n⟩ := by
  have turned := plain.turned base
  rw [h] at turned
  generalize ends : Turn.enter name n after = t at turned
  cases turned with
  | @host address entry name' immediate n' f at_ fetched known kind =>
    cases ends
    exact ⟨address + 1, entry, immediate, rfl, known⟩
  | primitive => exact absurd ends Turn.enter_ne_ofOutcome
  | does => exact absurd ends Turn.enter_ne_ofOutcome
  | _ => cases ends

/-- Where every turn leads, the run leads. -/
theorem loop_of_turns {call : Caller} {base : Nat} {J : Machine → Prop}
    {Q : Outcome Unit → Prop} (step : ∀ m : Machine, J m → (m.turn base).Leads call J Q) :
    ∀ (credit : Nat) (m : Machine), J m → Q (m.loop call base credit) := by
  intro credit m
  -- the induction is that of the loop itself, on its credit and the weight of the machine
  fun_induction loop call base credit m with
  | case1 credit m after turned ih =>
    intro begun
    have leads := step m begun
    rw [turned] at leads
    exact ih leads
  | case2 credit m after turned =>
    intro begun
    have leads := step m begun
    rw [turned] at leads
    exact leads
  | case3 credit m f after turned =>
    intro begun
    have leads := step m begun
    rw [turned] at leads
    exact leads
  | case4 m name n after turned =>
    intro begun
    have leads := step m begun
    rw [turned] at leads
    exact leads.1
  | case5 m name n after turned credit ended called ih =>
    intro begun
    have leads := step m begun
    rw [turned] at leads
    exact ih (leads.2.1 ended called)
  | case6 m name n after turned credit f ended called =>
    intro begun
    have leads := step m begun
    rw [turned] at leads
    exact leads.2.2 f ended called

/-- The turn that comes after a number of turns, or the one that ends the run before. -/
def turns (base : Nat) : (count : Nat) → Machine → Turn
  | 0, m => m.turn base
  | count + 1, m =>
    match m.turn base with
    | .next after => turns base count after
    | ended => ended

/-- A run ends as its turns do. -/
theorem loop_of_last_turn (call : Caller) {base credit : Nat} {after : Machine} :
    ∀ (count : Nat) {m : Machine},
      (turns base count m = .halt after → m.loop call base credit = .done () after) ∧
        ∀ f, turns base count m = .fault f after → m.loop call base credit = .failed f after
  | 0, _ => ⟨loop_of_halt call, fun _ => loop_of_fault call⟩
  | count + 1, m => by
    unfold turns
    cases turned : m.turn base with
    | next middle =>
      rw [loop_of_next call turned]
      exact loop_of_last_turn call count
    | halt ended =>
      rw [loop_of_halt call turned]
      refine ⟨?_, fun f => nofun⟩
      rintro ⟨⟩
      rfl
    | fault g ended =>
      rw [loop_of_fault call turned]
      refine ⟨nofun, ?_⟩
      rintro f ⟨⟩
      rfl
    | enter name n middle => exact ⟨nofun, fun f => nofun⟩

/-- A run begins with the return addresses that are of use: all of them while something is
running, and none otherwise.  Nothing else changes but the journal. -/
theorem discardStale_eq (m : Machine) :
    ∃ notes, m.discardStale =
      { m with journal := notes, returns := if m.ip = none then .empty else m.returns } := by
  unfold discardStale
  split
  · next idle _ =>
    rw [if_pos idle]
    unfold note Store.note
    split
    · exact ⟨_, rfl⟩
    · exact ⟨m.journal, rfl⟩
  · next other =>
    refine ⟨m.journal, ?_⟩
    split
    · next idle =>
      have empty : m.returns = .empty := by
        cases depth : m.returns.depth with
        | zero =>
          have := m.returns.depth_eq
          rw [depth] at this
          exact Stack.ext (List.eq_nil_of_length_eq_zero this.symm)
        | succ count => exact absurd depth (other count idle)
      rw [← empty]
    · rfl

theorem discardStale_of_running {m : Machine} {address : Int} (at_ : m.ip = some address) :
    m.discardStale = m := by
  unfold discardStale
  rw [at_]

theorem discardStale_cases (m : Machine) :
    ∃ s, m.toStore.SameBooks s ∧ m.discardStale =
      { m with toStore := s, returns := if m.ip = none then .empty else m.returns } := by
  obtain ⟨notes, stale⟩ := m.discardStale_eq
  exact ⟨{ m.toStore with journal := notes }, ⟨rfl, rfl, rfl, rfl, rfl, rfl, rfl, rfl⟩, stale⟩

/-- The code at an address cannot be found, or it is run. -/
theorem executeAddress_cases (call : Caller) (address : Value) (m : Machine) :
    (∃ f, m.discardStale.locate address = .error f ∧
      m.executeAddress call address = .failed f m.discardStale) ∨
      ∃ place, m.discardStale.locate address = .ok place ∧
        m.executeAddress call address =
          (loop call m.discardStale.returns.depth maxEntries
            { m.discardStale with ip := place }).adjust fun ended => { ended with ip := m.ip } := by
  unfold executeAddress
  cases located : m.discardStale.locate address with
  | error f => exact .inl ⟨f, rfl, by simp only [located]⟩
  | ok place => exact .inr ⟨place, rfl, by simp only [located]⟩

/-- Code that ends after a number of turns has been run. -/
theorem executeAddress_of_halt (call : Caller) (count : Nat) (target : Int) (m after : Machine)
    (h : turns m.discardStale.returns.depth count { m.discardStale with ip := some target } =
      .halt after) : m.executeAddress call (.int target) = .done () { after with ip := m.ip } := by
  show Outcome.adjust _ (loop call _ maxEntries { m.discardStale with ip := some target }) = _
  rw [(loop_of_last_turn call count).1 h]
  rfl

/-- Code that fails after a number of turns has failed. -/
theorem executeAddress_of_fault (call : Caller) (count : Nat) (target : Int) (m : Machine)
    (f : Fault) (after : Machine)
    (h : turns m.discardStale.returns.depth count { m.discardStale with ip := some target } =
      .fault f after) :
    m.executeAddress call (.int target) = .failed f { after with ip := m.ip } := by
  show Outcome.adjust _ (loop call _ maxEntries { m.discardStale with ip := some target }) = _
  rw [(loop_of_last_turn call count).2 f h]
  rfl

end Machine

/-! ## The contract -/

namespace Contract

variable {P : Host.Callable → Prop}

/-- Code stays plain. -/
def plain (P : Host.Callable → Prop) : Contract where
  inv := Machine.Plain P
  done _ _ := True
  failed _ _ := True
  admits _ := True

theorem holds_plain {α : Type} {m : Machine} {o : Outcome α} :
    (plain P).Holds m o ↔ o.machine.Plain P := by
  cases o with
  | done a after => exact ⟨And.left, fun kept => ⟨kept, trivial⟩⟩
  | failed f after => exact ⟨And.left, fun kept => ⟨kept, trivial, trivial⟩⟩

theorem plain_kept (P : Host.Callable → Prop) : (plain P).Kept P where
  refl _ := trivial
  trans _ _ := trivial
  weaken _ := trivial
  before _ _ := trivial
  after _ _ := trivial
  edit inv changed := ⟨Machine.Plain.edit inv changed, trivial⟩
  calm _ := trivial
  hosts {m entry w n f} inv known native host := by
    have fits := inv.entries entry w known
    unfold Word.Fits at fits
    rw [native] at fits
    exact fits.2 f host
  spelled {m items} inv last := by
    obtain ⟨earlier, same⟩ := Array.back?_eq_some_iff.mp last
    exact inv.cells (.foreign items) (same ▸ Array.mem_push_self)

end Contract

namespace Machine

variable {P : Host.Callable → Prop} {m : Machine}

/-- Giving a behavior leaves plain code. -/
theorem Plain.bindBehavior (target : Int) (plain : m.Plain P) :
    (m.bindBehavior (.int target)).machine.Plain P := by
  rcases bindBehavior_cases (.int target) m with ⟨-, ends⟩ | ⟨entry, s, -, books, ends⟩
  · rw [ends]
    exact plain
  · rw [ends]
    exact (plain.setBehavior entry target).congr rfl books.dictionary

theorem Plain.leads {call : Caller} (obeys : (Contract.plain P).Obeys P call) (base : Nat)
    (plain : m.Plain P) :
    (m.turn base).Leads call (Plain P) fun o => o.machine.Plain P := by
  have turned := plain.turned base
  generalize m.turn base = t at turned
  have moved : ∀ place, (m.moved place).Plain P := fun place => plain.congr rfl rfl
  cases turned with
  | @primitive address entry name immediate n p at_ fetched known kind =>
    have called := (moved (address + 1)).edits (edits_callPrimitive name n p _)
    exact Turn.leads_ofOutcome called fun f after _ kept => kept
  | @does address target at_ fetched =>
    have bound := (moved (address + 1)).bindBehavior target
    exact Turn.leads_ofOutcome bound fun f after _ kept => kept
  | @host address entry name immediate n f at_ fetched known kind =>
    have allowed : ∀ g, n.action = .host g → P g := (plain.entries entry _ known).2
    have held := Contract.holds_plain.mp
      ((Contract.plain_kept P).holds_callNative obeys name (moved (address + 1)) allowed)
    refine ⟨moved (address + 1), fun ended ends => ?_, fun g ended ends => ?_⟩
    · rw [ends] at held
      exact held
    · rw [ends] at held
      exact held
  | _ => exact plain.congr rfl rfl

theorem Plain.executeAddress {call : Caller} (obeys : (Contract.plain P).Obeys P call)
    (address : Value) (plain : m.Plain P) : (m.executeAddress call address).machine.Plain P := by
  obtain ⟨s, books, stale⟩ := discardStale_cases m
  have start : m.discardStale.Plain P := by
    rw [stale]
    exact plain.congr rfl books.dictionary
  rcases executeAddress_cases call address m with ⟨f, -, ends⟩ | ⟨place, -, ends⟩
  · rw [ends]
    exact start
  · have begun : ({ m.discardStale with ip := place } : Machine).Plain P := start.congr rfl rfl
    have ran := loop_of_turns (fun _ kept => kept.leads obeys m.discardStale.returns.depth)
      maxEntries _ begun
    rw [ends]
    generalize loop call m.discardStale.returns.depth maxEntries
      { m.discardStale with ip := place } = o at ran
    cases o with
    | done _ after => exact ran.congr rfl rfl
    | failed f after => exact ran.congr rfl rfl

theorem Plain.abort (plain : m.Plain P) : m.abort.Plain P := by
  have stopped : ({ m with returns := .empty, ip := none } : Machine).Plain P :=
    plain.congr rfl rfl
  exact stopped.edits m.edits_abort

theorem Plain.register {name : String} {immediate : Bool} {n : Native} (plain : m.Plain P)
    (free : ∀ d, n.action ≠ .directive d) (host : ∀ f, n.action = .host f → P f) :
    Plain P { m with dictionary := m.dictionary.push ⟨name, immediate, .native n⟩ } := by
  have fits : Word.Fits P ⟨name, immediate, .native n⟩ :=
    ⟨fun d kind => absurd kind (free d), host⟩
  exact plain.push fits rfl rfl

end Machine

/-! ## The built-in words -/

namespace Word

variable {P : Host.Callable → Prop}

@[simp] theorem fits_ofPrimitive (name : String) (p : Primitive) (pushesNone : Bool) :
    (Builtin.ofPrimitive name p pushesNone).Fits P := by
  refine ⟨fun directive kind => ?_, fun f host => ?_⟩
  · cases kind
  · cases host

@[simp] theorem fits_ofDirective (name : String) (d : Directive) :
    (Builtin.ofDirective name d).Fits P := by
  refine ⟨fun directive kind => rfl, fun f host => ?_⟩
  cases host

theorem fits_builtin : ∀ w ∈ Builtin.words, w.Fits P := by
  simp [Builtin.words, Builtin.stackWords, Builtin.compilingWords, Builtin.memoryWords,
    Builtin.definingWords, Builtin.valueWords, Builtin.outputWords, Builtin.plain,
    Builtin.passing]

end Word

theorem Machine.plain_bare {P : Host.Callable → Prop} (capacity : Int) (verbose : Bool) :
    (bare capacity verbose).Plain P := by
  refine ⟨fun cell inside => absurd inside (Array.not_mem_empty cell), fun entry w known => ?_⟩
  exact Word.fits_builtin w (List.mem_toArray.mp (Array.mem_of_getElem? known))

/-! ## Sessions -/

namespace Contract

theorem plain_sustained (P : Host.Callable → Prop) : (plain P).Sustained P where
  toKept := plain_kept P
  enter obeys inv _ := holds_plain.mpr (Machine.Plain.executeAddress obeys _ inv)
  raises _ _ := trivial
  invade {call f action m} obeys _ _ invasive inv := by
    refine holds_plain.mpr ?_
    cases action with
    | executeAddress address => exact Machine.Plain.executeAddress obeys address inv
    | dropReturn =>
      simp only [Host.Action.perform]
      split
      · exact Machine.Plain.congr inv rfl rfl
      · exact inv
    | abort => exact Machine.Plain.abort inv
    | handle => exact inv
    | _ => cases invasive
  handle _ _ _ _ := trivial

/-- Code stays plain, unless cells are handed in. -/
theorem plain_spanning (scope : Session.Scope) (no_cells : ¬ scope.cells) :
    (plain scope.callables).Spanning scope where
  toSustained := plain_sustained scope.callables
  register inv _ free host := Machine.Plain.register inv free host
  stop inv := Machine.Plain.abort inv
  jump _ inv := by
    have obeys := (plain_sustained scope.callables).obeys_caller
    exact ⟨Machine.Plain.executeAddress obeys _ inv, fun _ _ _ => trivial⟩
  switch _ inv := Machine.Plain.congr inv rfl rfl
  insert allowed := absurd allowed no_cells

end Contract
end ThreadedForth
