import ThreadedForth.Proofs.Evaluation

/-!
# Stores that differ in their books

The words that compute look at the data of a store and at nothing else: the data stack,
the slots, the next mark and the transcript.  Two stores with the same data and different
books are therefore as good as each other for them.  `Store.rebooked` puts the data of one
store together with the books of another one, and `Primitive.IsCalculation.apply_rebooked`
says that a primitive commutes with it, unless it is one of the two that begin definitions.

So a primitive that is called on two machines with the same data ends in the same way on
both, and leaves the same data (`Machine.callPrimitive_rebooked`); `Outcome.Alongside` says
what it is for two operations to end in the same way.

A *twin* of a store (`Store.Twin`) has the same data, the same last created word and one
more word in its dictionary, the last one.  Calling a primitive and giving a behavior do
the same to twins, and leave twins behind (`Machine.callPrimitive_twin`,
`Machine.bindBehavior_twin`).  That is what stands between code that is run before a
definition and the same code run after it.
-/

namespace ThreadedForth

/-- A primitive that begins no definition. -/
def Primitive.IsCalculation (p : Primitive) : Prop := p ≠ .define ∧ p ≠ .create

namespace Store

/-- The data of a store with the books of another one. -/
def rebooked (b s : Store) : Store :=
  { b with stack := s.stack, slots := s.slots, nextMark := s.nextMark, transcript := s.transcript }

section Rebooked

variable (b s : Store)

@[simp] theorem stack_rebooked : (rebooked b s).stack = s.stack := rfl

@[simp] theorem nextMark_rebooked : (rebooked b s).nextMark = s.nextMark := rfl

/-- How the outcome of work on a store looks with other books. -/
def rebookedResult {α : Type} : Except Fault (α × Store) → Except Fault (α × Store) :=
  Except.map fun result => (result.1, rebooked b result.2)

theorem readCount_rebooked (word : String) (v : Value) :
    (rebooked b s).readCount word v = s.readCount word v := rfl

theorem require_rebooked (needed : Nat) (word : Option String) :
    (rebooked b s).require needed word = s.require needed word := rfl

theorem swap_rebooked : (rebooked b s).swap = s.swap.map (rebooked b) := by
  unfold swap
  rw [stack_rebooked]
  split <;> rfl

theorem drop_rebooked : (rebooked b s).drop = s.drop.map (rebooked b) := by
  unfold drop
  rw [stack_rebooked]
  split <;> rfl

theorem spread_rebooked : (rebooked b s).spread = s.spread.map (rebooked b) := by
  unfold spread
  rw [stack_rebooked]
  split <;> rfl

theorem gather_rebooked (count : Value) :
    (rebooked b s).gather count = (s.gather count).map (rebooked b) := by
  unfold gather
  rw [readCount_rebooked]
  cases s.readCount "gather" count with
  | error f => rfl
  | ok n =>
    show (rebooked b s).require n _ >>= _ = Except.map _ (s.require n _ >>= _)
    rw [require_rebooked]
    cases s.require n (some "gather") with
    | error f => rfl
    | ok _ => rfl

theorem pluck_rebooked (index : Value) :
    (rebooked b s).pluck index = rebookedResult b (s.pluck index) := by
  unfold pluck
  rw [readCount_rebooked]
  cases s.readCount "pluck" index with
  | error f => rfl
  | ok i =>
    show (rebooked b s).require (i + 1) _ >>= _ = rebookedResult b (s.require (i + 1) _ >>= _)
    rw [require_rebooked]
    cases s.require (i + 1) (some "pluck") with
    | error f => rfl
    | ok _ => rfl

theorem store_rebooked (v target : Value) :
    (rebooked b s).store v target = (s.store v target).map (rebooked b) := by
  unfold store
  split <;> rfl

theorem emit_rebooked (v : Value) :
    (rebooked b s).emit v = (s.emit v).map (rebooked b) := by
  unfold emit
  cases v.characterCode <;> rfl

theorem compute_rebooked (value : Nat → Except Fault Value) :
    (rebooked b s).compute value = rebookedResult b (s.compute value) := by
  unfold compute
  rw [nextMark_rebooked]
  cases value s.nextMark with
  | error f => rfl
  | ok v => rfl

end Rebooked
end Store

/-- A primitive that begins no definition does the same whatever the books and the code
are. -/
theorem Primitive.IsCalculation.apply_rebooked {p : Primitive} (calculation : p.IsCalculation)
    (here here' : Nat) (arguments : List Value) (b s : Store) :
    p.apply here' arguments (Store.rebooked b s) =
      Store.rebookedResult b (p.apply here arguments s) := by
  have silent : ∀ work : Except Fault Store,
      (do return Primitive.silent (← work.map (Store.rebooked b))) =
        Store.rebookedResult b (do return Primitive.silent (← work)) := by
    intro work
    cases work <;> rfl
  have told : ∀ (work : Except Fault String) (text : String → String),
      (do return Primitive.silent ((Store.rebooked b s).write (text (← work)))) =
        Store.rebookedResult b (do return Primitive.silent (s.write (text (← work)))) := by
    intro work text
    cases work <;> rfl
  have answered : ∀ {α : Type} (work : Except Fault α) (value : α → Value),
      (do return (value (← work), Store.rebooked b s)) =
        Store.rebookedResult b (do return (value (← work), s)) := by
    intro α work value
    cases work <;> rfl
  unfold Primitive.apply
  split
  case h_9 => exact absurd rfl calculation.1
  case h_12 => exact absurd rfl calculation.2
  case h_1 => rw [Store.swap_rebooked, silent]
  case h_2 => rw [Store.drop_rebooked, silent]
  case h_3 => rw [Store.gather_rebooked, silent]
  case h_4 => rw [Store.spread_rebooked, silent]
  case h_5 => exact Store.pluck_rebooked b s _
  case h_6 => exact answered _ id
  case h_10 => exact answered _ id
  case h_11 => rw [Store.store_rebooked, silent]
  case h_13 | h_14 | h_15 | h_16 | h_17 | h_18 => exact Store.compute_rebooked b s _
  case h_20 => exact answered _ Value.bool
  case h_22 => exact told _ _
  case h_23 => exact told _ _
  case h_25 => rw [Store.emit_rebooked, silent]
  case h_26 => exact told _ _
  case h_7 | h_8 | h_19 | h_21 | h_24 | h_27 | h_28 => rfl

/-! ## Twins -/

/-- A new word that takes no behavior does not stand in the way of giving one. -/
theorem Dictionary.setBehavior_push {d : Dictionary} {w : Word} (entry : Nat) {behavior : Value}
    (fixed : givenBehavior behavior w = w) :
    (d.push w).setBehavior entry behavior = (d.setBehavior entry behavior).push w := by
  have size : (d.setBehavior entry behavior).entries.size = d.entries.size :=
    d.size_setBehavior entry behavior
  have each : ∀ other, ((d.push w).setBehavior entry behavior).get? other =
      ((d.setBehavior entry behavior).push w).get? other := by
    intro other
    rw [get?_setBehavior]
    show _ = ((d.setBehavior entry behavior).entries.push w)[other]?
    rw [Array.getElem?_push, size]
    show (if entry = other then ((d.entries.push w)[other]?).map _ else (d.entries.push w)[other]?)
      = if other = d.entries.size then some w else (d.setBehavior entry behavior).get? other
    rw [Array.getElem?_push, get?_setBehavior]
    by_cases last : other = d.entries.size
    · rw [if_pos last, if_pos last, Option.map_some, fixed, ite_self]
    · rw [if_neg last, if_neg last]
      rfl
  have entries : ((d.push w).setBehavior entry behavior).entries =
      ((d.setBehavior entry behavior).push w).entries := Array.ext_getElem? each
  refine Dictionary.ext entries ?_
  show rebind w.name d.entries.size d.names =
    rebind w.name (d.setBehavior entry behavior).size d.names
  rw [size_setBehavior]
  rfl

namespace Store

/-- The second store has the same data as the first one, and the word `w` in its dictionary
besides. -/
structure Twin (w : Word) (s t : Store) : Prop where
  stack : t.stack = s.stack
  slots : t.slots = s.slots
  nextMark : t.nextMark = s.nextMark
  transcript : t.transcript = s.transcript
  compiling : t.compiling = s.compiling
  lastCreated : t.lastCreated = s.lastCreated
  verbose : t.verbose = s.verbose
  dictionary : t.dictionary = s.dictionary.push w

variable {w : Word} {s t : Store}

/-- A twin has its own books and the data of the store. -/
theorem Twin.eq_rebooked (twin : s.Twin w t) : t = rebooked t s := by
  unfold rebooked
  rw [← twin.stack, ← twin.slots, ← twin.nextMark, ← twin.transcript]

/-- The data change alike. -/
theorem Twin.rebooked {u : Store} (twin : s.Twin w t) (books : s.SameBooks u) :
    u.Twin w (rebooked t u) where
  stack := rfl
  slots := rfl
  nextMark := rfl
  transcript := rfl
  compiling := twin.compiling.trans books.compiling.symm
  lastCreated := twin.lastCreated.trans books.lastCreated.symm
  verbose := twin.verbose.trans books.verbose.symm
  dictionary := by
    rw [books.dictionary]
    exact twin.dictionary

theorem Twin.pushAll (values : List Value) (twin : s.Twin w t) :
    (s.pushAll values).Twin w (t.pushAll values) := by
  have same : t.pushAll values = Store.rebooked t (s.pushAll values) :=
    congrArg (Store.pushAll values) twin.eq_rebooked
  rw [same]
  exact twin.rebooked (s.sameBooks_pushAll values)

/-- The journals do not tell twins apart, whatever they say. -/
theorem Twin.journal (notes notes' : List Note) (twin : s.Twin w t) :
    Twin w { s with journal := notes } { t with journal := notes' } :=
  ⟨twin.stack, twin.slots, twin.nextMark, twin.transcript, twin.compiling, twin.lastCreated,
    twin.verbose, twin.dictionary⟩

/-- The store with another journal. -/
def renoted (notes : List Note) (s : Store) : Store := { s with journal := notes }

/-- Registering a word changes nothing besides but the journal. -/
theorem install_eq (w : Word) (s : Store) :
    ∃ notes, s.install w = renoted notes { s with dictionary := s.dictionary.push w } := by
  unfold install
  simp only
  split
  · obtain ⟨notes, noted⟩ := s.note_eq .debug .dictionary ("'" ++ w.name ++ "' redefined")
    exact ⟨notes, by rw [noted, renoted]⟩
  · exact ⟨s.journal, rfl⟩

/-- A word with a valid name can be created. -/
theorem create_eq {name : String} (valid : Text.allBlank name.toList = false) (s : Store) :
    ∃ notes, s.create (.text name) =
      .ok (.cell s.slots.size, (s.addCreated name).renoted notes) := by
  obtain ⟨notes, installed⟩ := s.install_eq ⟨name, false, .created s.slots.size .none⟩
  obtain ⟨notes', noted⟩ := note_eq .debug .defining ("created '" ++ name ++ "'")
    ((s.addCreated name).renoted notes)
  refine ⟨notes', ?_⟩
  have checked : s.checkName (.text name) = .ok name := Word.checkName_text valid
  unfold create
  rw [checked]
  let made : Store := s.install ⟨name, false, .created s.slots.size .none⟩
  show Except.ok (Value.cell s.slots.size, note .debug .defining ("created '" ++ name ++ "'")
    { made with
      slots := made.slots.push .none
      lastCreated := some s.dictionary.size
      lastDefined := some s.dictionary.size }) = _
  simp only [made, installed]
  exact congrArg (fun t => Except.ok (Value.cell s.slots.size, t)) noted

theorem Twin.note_right (level : Level) (channel : Channel) (text : String) (twin : s.Twin w t) :
    s.Twin w (t.note level channel text) := by
  obtain ⟨notes, noted⟩ := t.note_eq level channel text
  rw [noted]
  exact twin.journal s.journal notes

theorem Twin.note (level : Level) (channel : Channel) (text text' : String)
    (twin : s.Twin w t) : (s.note level channel text).Twin w (t.note level channel text') := by
  obtain ⟨notes, noted⟩ := s.note_eq level channel text
  rw [noted]
  exact (twin.journal notes t.journal).note_right level channel text'

/-- Registering a word makes a twin. -/
theorem twin_install (w : Word) (s : Store) : s.Twin w (s.install w) := by
  obtain ⟨notes, noted⟩ := s.note_eq .debug .dictionary ("'" ++ w.name ++ "' redefined")
  unfold install
  simp only
  split
  · rw [noted]
    exact ⟨rfl, rfl, rfl, rfl, rfl, rfl, rfl, rfl⟩
  · exact ⟨rfl, rfl, rfl, rfl, rfl, rfl, rfl, rfl⟩

/-- Older entries are the same in a twin. -/
theorem Twin.get? {entry : Nat} {v : Word} (twin : s.Twin w t)
    (known : s.dictionary.get? entry = some v) : t.dictionary.get? entry = some v := by
  have low := Dictionary.get?_eq_some_iff_lt.mp ⟨v, known⟩
  rw [twin.dictionary, Dictionary.get?_push_of_lt w low]
  exact known

end Store

/-- Two operations, begun in `m` and in `m'`, end in the same way: both succeed, or both fail
with the same fault.  They have changed nothing but the stores, and the stores they leave
are related. -/
inductive Outcome.Alongside (m m' : Machine) (R : Store → Store → Prop) :
    Outcome Unit → Outcome Unit → Prop where
  | done {s t : Store} (related : R s t) :
      Alongside m m' R (.done () { m with toStore := s }) (.done () { m' with toStore := t })
  | failed {f : Fault} {s t : Store} (related : R s t) :
      Alongside m m' R (.failed f { m with toStore := s }) (.failed f { m' with toStore := t })

theorem Outcome.Alongside.mono {m m' : Machine} {R Q : Store → Store → Prop}
    {o o' : Outcome Unit} (ends : Alongside m m' R o o') (weaker : ∀ s t, R s t → Q s t) :
    Alongside m m' Q o o' := by
  cases ends with
  | done related => exact .done (weaker _ _ related)
  | failed related => exact .failed (weaker _ _ related)

/-- The stores with which the operations began do not matter. -/
theorem Outcome.Alongside.begun {m m' : Machine} {R : Store → Store → Prop} {s t : Store}
    {o o' : Outcome Unit}
    (ends : Alongside { m with toStore := s } { m' with toStore := t } R o o') :
    Alongside m m' R o o' := by
  cases ends with
  | done related => exact .done related
  | failed related => exact .failed related

namespace Machine

variable {w : Word}

/-- A calculation does the same to machines with the same data, and leaves the books alone. -/
theorem callPrimitive_rebooked (name : String) (n : Native) {p : Primitive}
    (calculation : p.IsCalculation) (m m' : Machine)
    (data : m'.toStore = Store.rebooked m'.toStore m.toStore) :
    Outcome.Alongside m m'
      (fun s t => m.toStore.SameBooks s ∧ t = Store.rebooked m'.toStore s)
      (m.callWith name n p.perform) (m'.callWith name n p.perform) := by
  have same : m'.stack.depth = m.stack.depth := by
    rw [data]
    rfl
  have split_ : m'.toStore.take n.arity =
      ((m.toStore.take n.arity).1, Store.rebooked m'.toStore (m.toStore.take n.arity).2) :=
    congrArg (Store.take n.arity) data
  have taken := m.toStore.sameBooks_take n.arity
  unfold callWith
  simp only [Primitive.perform_eq, here]
  rw [same]
  by_cases short : m.stack.depth < n.arity
  · rw [if_pos short, if_pos short]
    exact .failed ⟨.refl _, data⟩
  · rw [if_neg short, if_neg short, split_]
    simp only [calculation.apply_rebooked m.code.size]
    cases ends : p.apply m.code.size (m.toStore.take n.arity).1 (m.toStore.take n.arity).2 with
    | ok made =>
      obtain ⟨v, u⟩ := made
      have books : m.toStore.SameBooks u := by
        rcases Store.apply_cases ends with kept | ⟨define, -⟩ | ⟨create, -⟩
        · exact taken.trans kept
        · exact absurd define calculation.1
        · exact absurd create calculation.2
      simp only [Outcome.ofStore, Store.rebookedResult, Except.map, Outcome.onFault,
        Outcome.bind_done, pushResult]
      by_cases pushed : v ≠ .none ∨ n.pushesNone
      · rw [if_pos pushed, if_pos pushed]
        exact .done ⟨books.trans (u.sameBooks_pushAll [v]), rfl⟩
      · rw [if_neg pushed, if_neg pushed]
        exact .done ⟨books, rfl⟩
    | error f =>
      simp only [Outcome.ofStore, Store.rebookedResult, Except.map, Outcome.onFault,
        Outcome.bind_failed]
      by_cases interrupt : f.isInterrupt
      · rw [if_pos interrupt, if_pos interrupt]
        exact .failed ⟨taken, rfl⟩
      · rw [if_neg interrupt, if_neg interrupt]
        exact .failed ⟨taken.trans (Store.sameBooks_pushAll _ _), rfl⟩

/-- A calculation does the same to twins. -/
theorem callPrimitive_twin (name : String) (n : Native) {p : Primitive}
    (calculation : p.IsCalculation) (m m' : Machine) (twin : m.toStore.Twin w m'.toStore) :
    Outcome.Alongside m m' (fun s t => m.toStore.SameBooks s ∧ s.Twin w t)
      (m.callWith name n p.perform) (m'.callWith name n p.perform) := by
  refine (callPrimitive_rebooked name n calculation m m' twin.eq_rebooked).mono ?_
  rintro s t ⟨books, rfl⟩
  exact ⟨books, twin.rebooked books⟩

/-- The word that was created last takes a behavior, and that is noted. -/
theorem bindBehavior_of_created {m : Machine} {entry : Nat} {behavior : Value}
    (created : m.lastCreated = some entry) :
    m.bindBehavior behavior =
      .done () (noteBehavior ((m.dictionary.get? entry).elim "" Word.name) behavior
        { m with dictionary := m.dictionary.setBehavior entry behavior }) := by
  unfold bindBehavior
  split
  · next none_ =>
    rw [created] at none_
    cases none_
  · next other last =>
    rw [created] at last
    cases last
    rfl

/-- What a note says does not tell twins apart. -/
theorem noteBehavior_twin (name name' : String) (target : Int) (m m' : Machine)
    (twin : m.toStore.Twin w m'.toStore) :
    Outcome.Alongside m m' (fun s t => m.toStore.SameBooks s ∧ s.Twin w t)
      (.done () (m.noteBehavior name (.int target)))
      (.done () (m'.noteBehavior name' (.int target))) := by
  unfold noteBehavior
  by_cases verbose : Level.debug.isTaken m.verbose = true
  · rw [if_pos verbose, if_pos (twin.verbose ▸ verbose)]
    cases Value.Template.wholeText (.int target) with
    | ok text => exact .done ⟨Store.sameBooks_note .., twin.note ..⟩
    | error f => exact .done ⟨.refl _, twin⟩
  · rw [if_neg verbose, if_neg (twin.verbose ▸ verbose)]
    exact .done ⟨.refl _, twin⟩

/-- What is left of a store by giving a behavior: there was no word to take it, or the word
that was created last has taken it. -/
def Given (target : Int) (s u : Store) : Prop :=
  u = s ∨ ∃ entry, s.lastCreated = some entry ∧
    Store.SameBooks { s with dictionary := s.dictionary.setBehavior entry (.int target) } u

/-- A behavior is given alike in twins, if the word between them takes none. -/
theorem bindBehavior_twin {target : Int} (m m' : Machine) (twin : m.toStore.Twin w m'.toStore)
    (fixed : Dictionary.givenBehavior (.int target) w = w) :
    Outcome.Alongside m m' (fun s t => Given target m.toStore s ∧ s.Twin w t)
      (m.bindBehavior (.int target)) (m'.bindBehavior (.int target)) := by
  cases created : m.lastCreated with
  | none =>
    have created' : m'.lastCreated = none := twin.lastCreated.trans created
    simp only [bindBehavior, created, created']
    exact .failed ⟨.inl rfl, twin⟩
  | some entry =>
    have created' : m'.lastCreated = some entry := twin.lastCreated.trans created
    have bound : Store.Twin w
        { m.toStore with dictionary := m.dictionary.setBehavior entry (.int target) }
        { m'.toStore with dictionary := m'.dictionary.setBehavior entry (.int target) } := by
      refine ⟨twin.stack, twin.slots, twin.nextMark, twin.transcript, twin.compiling,
        twin.lastCreated, twin.verbose, ?_⟩
      show m'.dictionary.setBehavior entry _ = _
      rw [twin.dictionary]
      exact Dictionary.setBehavior_push entry fixed
    rw [bindBehavior_of_created created, bindBehavior_of_created created']
    have noted := noteBehavior_twin ((m.dictionary.get? entry).elim "" Word.name)
      ((m'.dictionary.get? entry).elim "" Word.name) target
      { m with dictionary := m.dictionary.setBehavior entry (.int target) }
      { m' with dictionary := m'.dictionary.setBehavior entry (.int target) } bound
    exact (noted.mono fun s t both => ⟨.inr ⟨entry, created, both.1⟩, both.2⟩).begun

end Machine
end ThreadedForth
