import ThreadedForth.Proofs.Alike
import ThreadedForth.Proofs.Turn

/-!
# Machines that do the same

Two machines are given the same to do.  They differ in things that should make no difference:
one has return addresses left over from a run that failed, or room for more calls, or another
journal.  Then what they do should not differ either, and they should still differ in nothing
else when it is done.

What they may differ in is a `Kinship`, and two machines that differ in nothing else are
companions (`Machine.Companion`).  Some differences are harmless only for a time.  Return
addresses that are left over do no harm while nothing is running, since the next run discards
them before it starts.  An open definition that one machine has and the other has not does no
harm while nothing is being compiled.  Room for more calls is harmless as long as there is
enough of it: if the first machine runs out of room, nothing more is said about the second one.

This module goes as far as one turn.

* `Outcome.Together`, `Turn.Together`: what ends in the same way on both machines;
* `Companion.performPrimitive`, `Companion.performDirective`: native actions that are no host
  callables do the same on companions;
* `Companion.turn`: companions take the same turn.
-/

namespace ThreadedForth

/-- What two machines may differ in. -/
structure Kinship where
  /-- How the journals are related. -/
  notes : List Note → List Note → Prop
  /-- The open definitions may differ while nothing is being compiled. -/
  loose : Prop
  /-- The return stacks may differ while nothing is running. -/
  apart : Prop
  /-- How the capacities are related. -/
  room : Int → Int → Prop
  noted {note : Note} {old old' : List Note} : notes old old' → notes (note :: old) (note :: old')
  /-- If the return stacks may differ, what is noted when they are discarded does not matter. -/
  stale {note : Note} {old old' : List Note} : apart → note.channel = .interpreter →
    notes old old' → notes (note :: old) old' ∧ notes old (note :: old')
  room_le {capacity capacity' : Int} : room capacity capacity' → capacity ≤ capacity'

/-- The fault is excused if there would have been room on the second machine. -/
def Kinship.Excuses (K : Kinship) (f : Fault) : Prop :=
  ∃ capacity capacity', f = .full capacity ∧ K.room capacity capacity' ∧
    capacity < capacity'

/-! ## Companions -/

/-- The two stores differ at most in their journals and in the open definition. -/
inductive Store.Companion (K : Kinship) (s : Store) : Store → Prop where
  | beside {journal : List Note} {draft : Option Draft} (notes : K.notes s.journal journal)
      (drafts : draft = s.draft ∨ K.loose ∧ s.compiling = false) :
      Companion K s { s with journal := journal, draft := draft }

/-- The two machines differ at most in what the kinship allows. -/
structure Machine.Companion (K : Kinship) (m m' : Machine) : Prop where
  store : m.toStore.Companion K m'.toStore
  code : m'.code = m.code
  ip : m'.ip = m.ip
  returns : m'.returns = m.returns ∨ K.apart ∧ m.ip = none
  room : K.room m.capacity m'.capacity

/-- Two operations end in the same way, in related states, unless the first one fails with a
fault that is excused. -/
inductive Outcome.Together {α : Type} (excuse : Fault → Prop) (R : Machine → Machine → Prop) :
    Outcome α → Outcome α → Prop where
  | done {a : α} {m m' : Machine} (related : R m m') : Together excuse R (.done a m) (.done a m')
  | failed {f : Fault} {m m' : Machine} (related : R m m') :
      Together excuse R (.failed f m) (.failed f m')
  | excused {f : Fault} {m : Machine} {o' : Outcome α} (excused : excuse f) :
      Together excuse R (.failed f m) o'

/-- Two turns end in the same way, in related states, unless the first one fails with a fault
that is excused. -/
inductive Turn.Together (excuse : Fault → Prop) (R : Machine → Machine → Prop) :
    Turn → Turn → Prop where
  | next {m m' : Machine} (related : R m m') : Together excuse R (.next m) (.next m')
  | halt {m m' : Machine} (related : R m m') : Together excuse R (.halt m) (.halt m')
  | enter {name : String} {n : Native} {m m' : Machine} (related : R m m') :
      Together excuse R (.enter name n m) (.enter name n m')
  | fault {f : Fault} {m m' : Machine} (related : R m m') :
      Together excuse R (.fault f m) (.fault f m')
  | excused {f : Fault} {m : Machine} {t' : Turn} (excused : excuse f) :
      Together excuse R (.fault f m) t'

namespace Outcome.Together

variable {α β : Type} {excuse : Fault → Prop} {R S : Machine → Machine → Prop} {o o' : Outcome α}

theorem mono (ends : Together excuse R o o') (weaker : ∀ m m', R m m' → S m m') :
    Together excuse S o o' := by
  cases ends with
  | done related => exact .done (weaker _ _ related)
  | failed related => exact .failed (weaker _ _ related)
  | excused excused => exact .excused excused

theorem map (g : α → β) (ends : Together excuse R o o') :
    Together excuse R (o.map g) (o'.map g) := by
  cases ends with
  | done related => exact .done related
  | failed related => exact .failed related
  | excused excused => exact .excused excused

theorem adjust {g g' : Machine → Machine} (ends : Together excuse R o o')
    (adjusts : ∀ m m', R m m' → S (g m) (g' m')) :
    Together excuse S (o.adjust g) (o'.adjust g') := by
  cases ends with
  | done related => exact .done (adjusts _ _ related)
  | failed related => exact .failed (adjusts _ _ related)
  | excused excused => exact .excused excused

theorem bind {next : α → Machine → Outcome β} {next' : α → Machine → Outcome β}
    (first : Together excuse R o o') (fails : ∀ f m m', o = .failed f m → R m m' → S m m')
    (second : ∀ a m m', o = .done a m → R m m' → Together excuse S (next a m) (next' a m')) :
    Together excuse S (o.bind next) (o'.bind next') := by
  cases first with
  | done related => exact second _ _ _ rfl related
  | failed related => exact .failed (fails _ _ _ rfl related)
  | excused excused => exact .excused excused

/-- What is known of the first state besides. -/
theorem and_left {P : Machine → Prop} (ends : Together excuse R o o') (holds : P o.machine) :
    Together excuse (fun m m' => R m m' ∧ P m) o o' := by
  cases ends with
  | done related => exact .done ⟨related, holds⟩
  | failed related => exact .failed ⟨related, holds⟩
  | excused excused => exact .excused excused

theorem turn {o o' : Outcome Unit} (ends : Together excuse R o o') :
    Turn.Together excuse R (.ofOutcome o) (.ofOutcome o') := by
  cases ends with
  | done related => exact .next related
  | failed related => exact .fault related
  | excused excused => exact .excused excused

theorem machine (ends : Together excuse R o o') (sound : ∀ f, ¬ excuse f) :
    R o.machine o'.machine := by
  cases ends with
  | done related => exact related
  | failed related => exact related
  | excused excused => exact absurd excused (sound _)

/-- Operations that end together end in the same way, if they are looked at in a way that
brings their states together. -/
theorem adjust_eq {view view' : Machine → Machine} (ends : Together excuse R o o')
    (sound : ∀ f, ¬ excuse f) (same : ∀ m m', R m m' → view' m' = view m) :
    o'.adjust view' = o.adjust view := by
  cases ends with
  | @done a m m' related => exact congrArg (Outcome.done a) (same m m' related)
  | @failed f m m' related => exact congrArg (Outcome.failed f) (same m m' related)
  | excused excused => exact absurd excused (sound _)

theorem map_adjust_eq {view view' : Machine → Machine} {os os' : List (Outcome α)}
    (ends : List.Forall₂ (Together (fun _ => False) R) os os')
    (same : ∀ m m', R m m' → view' m' = view m) :
    os'.map (·.adjust view') = os.map (·.adjust view) := by
  induction ends with
  | nil => rfl
  | cons first _ ih => rw [List.map_cons, List.map_cons, ih, first.adjust_eq (fun _ => id) same]

end Outcome.Together

namespace Turn.Together

variable {excuse : Fault → Prop} {R : Machine → Machine → Prop} {t t' : Turn}
  {after : Machine}

theorem exists_next (taken : Together excuse R t t') (turned : t = .next after) :
    ∃ after', t' = .next after' ∧ R after after' := by
  cases taken with
  | next related =>
    cases turned
    exact ⟨_, rfl, related⟩
  | _ => cases turned

theorem exists_halt (taken : Together excuse R t t') (turned : t = .halt after) :
    ∃ after', t' = .halt after' ∧ R after after' := by
  cases taken with
  | halt related =>
    cases turned
    exact ⟨_, rfl, related⟩
  | _ => cases turned

theorem exists_enter {name : String} {n : Native} (taken : Together excuse R t t')
    (turned : t = .enter name n after) :
    ∃ after', t' = .enter name n after' ∧ R after after' := by
  cases taken with
  | enter related =>
    cases turned
    exact ⟨_, rfl, related⟩
  | _ => cases turned

theorem exists_fault {f : Fault} (taken : Together excuse R t t') (turned : t = .fault f after) :
    (∃ after', t' = .fault f after' ∧ R after after') ∨ excuse f := by
  cases taken with
  | fault related =>
    cases turned
    exact .inl ⟨_, rfl, related⟩
  | excused excused =>
    cases turned
    exact .inr excused
  | _ => cases turned

end Turn.Together

namespace Store.Companion

variable {K : Kinship} {s t : Store} (companion : s.Companion K t)

include companion

/-- What can be read without looking at the journal and the open definition is the same. -/
theorem reads {α : Type} (read : Store → α)
    (blind : ∀ journal draft, read { s with journal := journal, draft := draft } = read s) :
    read t = read s := by
  cases companion with
  | beside notes drafts => exact blind _ _

/-- A change that has nothing to do with the journal and the open definition. -/
theorem update {g : Store → Store}
    (commutes : ∀ journal draft, g { s with journal := journal, draft := draft } =
      { g s with journal := journal, draft := draft })
    (journal : (g s).journal = s.journal) (draft : (g s).draft = s.draft)
    (mode : (g s).compiling = s.compiling) : (g s).Companion K (g t) := by
  cases companion with
  | @beside others other notes drafts =>
    rw [commutes others other]
    exact .beside (by rw [journal]; exact notes) (by rw [draft, mode]; exact drafts)

/-- A change that leaves the same open definition, or none. -/
theorem settle {g : Store → Store}
    (commutes : ∀ journal draft, g { s with journal := journal, draft := draft } =
      { g s with journal := journal })
    (journal : (g s).journal = s.journal) : (g s).Companion K (g t) := by
  cases companion with
  | @beside others other notes drafts =>
    rw [commutes others other]
    exact .beside (by rw [journal]; exact notes) (.inl rfl)

theorem journal : K.notes s.journal t.journal := by
  cases companion with
  | beside notes drafts => exact notes

theorem renote {journal journal' : List Note} (notes : K.notes journal journal') :
    Companion K { s with journal := journal } { t with journal := journal' } := by
  cases companion with
  | beside _ drafts => exact .beside notes drafts

theorem note (level : Level) (channel : Channel) (text : String) :
    (s.note level channel text).Companion K (t.note level channel text) := by
  cases companion with
  | beside notes drafts =>
    unfold Store.note
    by_cases taken : level.isTaken s.verbose = true
    · rw [if_pos taken, if_pos taken]
      exact .beside (K.noted notes) drafts
    · rw [if_neg taken, if_neg taken]
      exact .beside notes drafts

theorem pushAll (values : List Value) : (s.pushAll values).Companion K (t.pushAll values) :=
  companion.update (fun _ _ => rfl) rfl rfl rfl

theorem install (w : Word) : (s.install w).Companion K (t.install w) := by
  have same : t.dictionary = s.dictionary := companion.reads Store.dictionary fun _ _ => rfl
  unfold Store.install
  simp only
  rw [same]
  by_cases known : (s.dictionary.find? w.name).isSome = true
  · rw [if_pos known, if_pos known]
    exact (companion.note ..).update (g := fun s => { s with dictionary := s.dictionary.push w })
      (fun _ _ => rfl) rfl rfl rfl
  · rw [if_neg known, if_neg known]
    exact companion.update (g := fun s => { s with dictionary := s.dictionary.push w })
      (fun _ _ => rfl) rfl rfl rfl

/-- While something is being compiled the open definitions are the same. -/
theorem draft_eq (compiling : s.compiling = true) : t.draft = s.draft := by
  cases companion with
  | beside notes drafts =>
    rcases drafts with same | ⟨-, idle⟩
    · exact same
    · rw [compiling] at idle
      cases idle

theorem abandon (compiling : s.compiling = true) : s.abandon.Companion K t.abandon := by
  unfold Store.abandon
  rw [companion.draft_eq compiling]
  cases s.draft with
  | some draft =>
    exact (companion.note ..).settle (g := fun s => { s with compiling := false, draft := none })
      (fun _ _ => rfl) rfl
  | none =>
    exact companion.settle (g := fun s => { s with compiling := false, draft := none })
      (fun _ _ => rfl) rfl

/-! ## Primitives -/

/-- A primitive that begins no definition looks neither at the journal nor at the open
definition. -/
theorem apply_calculation {p : Primitive} (calculation : p.IsCalculation) (here : Nat)
    (arguments : List Value) :
    Agree (fun a b => b.1 = a.1 ∧ a.2.Companion K b.2) (p.apply here arguments s)
      (p.apply here arguments t) := by
  cases companion with
  | @beside journal draft notes drafts =>
    have own : p.apply here arguments s = rebookedResult s (p.apply here arguments s) :=
      calculation.apply_rebooked here here arguments s s
    have other : p.apply here arguments { s with journal := journal, draft := draft } =
        rebookedResult { s with journal := journal, draft := draft } (p.apply here arguments s) :=
      calculation.apply_rebooked here here arguments { s with journal := journal, draft := draft } s
    rw [other]
    cases ends : p.apply here arguments s with
    | error f => exact .error f
    | ok result =>
      rw [ends] at own
      -- the books of what is left are those from before
      have kept : result.2 = rebooked s result.2 := congrArg Prod.snd (Except.ok.inj own)
      refine .ok ⟨rfl, ?_⟩
      rw [kept]
      exact .beside notes drafts

theorem define (here : Nat) (name : Value) :
    Agree (Store.Companion K) (s.define here name) (t.define here name) := by
  have read : t.readName name = s.readName name :=
    companion.reads (Store.readName name) fun _ _ => rfl
  have mode : t.compiling = s.compiling := companion.reads Store.compiling fun _ _ => rfl
  have idle : ∀ own, t.checkIdle own = s.checkIdle own := by
    intro own
    unfold Store.checkIdle
    rw [mode]
    by_cases compiling : s.compiling = true
    · rw [companion.draft_eq compiling]
    · rw [if_neg compiling, if_neg compiling]
  unfold Store.define
  rw [read]
  refine (Agree.of_eq rfl).bind fun valid _ same => ?_
  cases same
  rw [idle]
  refine (Agree.of_eq rfl).bind fun _ _ _ => ?_
  exact .ok (companion.settle (g := fun s => s.openDraft valid here) (fun _ _ => rfl) rfl)

theorem create (name : Value) :
    Agree (fun a b => b.1 = a.1 ∧ a.2.Companion K b.2) (s.create name) (t.create name) := by
  have checked : t.checkName name = s.checkName name :=
    companion.reads (Store.checkName name) fun _ _ => rfl
  have slots : t.slots = s.slots := companion.reads Store.slots fun _ _ => rfl
  have dictionary : t.dictionary = s.dictionary := companion.reads Store.dictionary fun _ _ => rfl
  unfold Store.create
  rw [checked, slots, dictionary]
  cases s.checkName name with
  | error f => exact .error f
  | ok valid =>
    refine .ok ⟨rfl, Companion.note ?_ _ _ _⟩
    exact (companion.install _).update (g := fun u => { u with
      slots := u.slots.push .none
      lastCreated := some s.dictionary.size
      lastDefined := some s.dictionary.size }) (fun _ _ => rfl) rfl rfl rfl

/-- A primitive does the same to companions. -/
theorem apply (p : Primitive) (here : Nat) (arguments : List Value) :
    Agree (fun a b => b.1 = a.1 ∧ a.2.Companion K b.2) (p.apply here arguments s)
      (p.apply here arguments t) := by
  by_cases calculation : p.IsCalculation
  · exact companion.apply_calculation calculation here arguments
  · unfold Primitive.apply
    split
    case h_9 name =>
      refine (companion.define here name).bind fun a b related => ?_
      exact .ok ⟨rfl, related⟩
    case h_12 name => exact companion.create name
    case h_28 => exact .error _
    all_goals exact absurd ⟨nofun, nofun⟩ calculation

end Store.Companion

namespace Machine

variable {m : Machine}

theorem markImmediate_of_draft {draft : Draft} (compiling : m.compiling = true)
    (open_ : m.draft = some draft) :
    m.markImmediate = .ok { m with draft := some { draft with immediate := true } } := by
  unfold markImmediate
  split <;> simp_all

theorem markImmediate_of_entry {entry : Nat} (closed : m.compiling = true → m.draft = none)
    (last : m.lastDefined = some entry) :
    m.markImmediate = .ok { m with dictionary := m.dictionary.markImmediate entry } := by
  unfold markImmediate
  split <;> simp_all

theorem markImmediate_of_none (closed : m.compiling = true → m.draft = none)
    (last : m.lastDefined = none) : m.markImmediate = .error .nothingToMark := by
  unfold markImmediate
  split <;> simp_all

end Machine

namespace Machine.Companion

variable {K : Kinship} {m m' : Machine} (companion : m.Companion K m')

include companion

/-- What can be read without looking at what may differ is the same. -/
theorem reads {α : Type} (read : Machine → α)
    (blind : ∀ journal draft returns capacity, read { m with
      journal := journal, draft := draft, returns := returns, capacity := capacity } = read m) :
    read m' = read m := by
  obtain ⟨t, code, returns, ip, capacity⟩ := m'
  obtain ⟨store, rfl, rfl, -, -⟩ := companion
  cases store with
  | beside notes drafts => exact blind _ _ _ _

/-- Work on the stores leaves companions if it leaves stores that are. -/
theorem withStore {s t : Store} (store : s.Companion K t) :
    Companion K { m with toStore := s } { m' with toStore := t } :=
  ⟨store, companion.code, companion.ip, companion.returns, companion.room⟩

theorem pushAll (values : List Value) : (m.pushAll values).Companion K (m'.pushAll values) :=
  companion.withStore (companion.store.pushAll values)

theorem note (level : Level) (channel : Channel) (text : String) :
    (m.note level channel text).Companion K (m'.note level channel text) :=
  companion.withStore (companion.store.note level channel text)

theorem pushResult (n : Native) (v : Value) :
    (m.pushResult n v).Companion K (m'.pushResult n v) := by
  unfold Machine.pushResult
  split
  · exact companion.pushAll [v]
  · exact companion

theorem performPrimitive (p : Primitive) (arguments : List Value) :
    Outcome.Together K.Excuses (Companion K) (p.perform arguments m) (p.perform arguments m') := by
  have here : m'.here = m.here := congrArg Array.size companion.code
  have applied := companion.store.apply p m.here arguments
  rw [Primitive.perform_eq, Primitive.perform_eq, here]
  generalize p.apply m.here arguments m.toStore = work at applied
  generalize p.apply m.here arguments m'.toStore = work' at applied
  cases applied with
  | error f => exact .failed companion
  | @ok a b related =>
    obtain ⟨v, s⟩ := a
    obtain ⟨v', s'⟩ := b
    obtain ⟨rfl, related⟩ := related
    exact .done (companion.withStore related)

/-- The calling convention of native words. -/
theorem callWith {name : String} {n : Native} {perform : List Value → Machine → Outcome Value}
    (performs : ∀ arguments {m m' : Machine}, m.Companion K m' →
      Outcome.Together K.Excuses (Companion K) (perform arguments m) (perform arguments m')) :
    Outcome.Together K.Excuses (Companion K) (m.callWith name n perform)
      (m'.callWith name n perform) := by
  have stack : m'.stack = m.stack := companion.store.reads Store.stack fun _ _ => rfl
  have taken : (m'.toStore.take n.arity).1 = (m.toStore.take n.arity).1 := by
    rw [Store.take, Store.take, stack]
  have rest : Companion K { m with toStore := (m.toStore.take n.arity).2 }
      { m' with toStore := (m'.toStore.take n.arity).2 } :=
    companion.withStore (companion.store.update (g := fun s => (s.take n.arity).2)
      (fun _ _ => rfl) rfl rfl rfl)
  unfold Machine.callWith
  simp only
  rw [stack, taken]
  split
  · exact .failed companion
  · have performed := performs (m.toStore.take n.arity).1 rest
    generalize perform _ { m with toStore := (m.toStore.take n.arity).2 } = o at performed
    generalize perform _ { m' with toStore := (m'.toStore.take n.arity).2 } = o' at performed
    cases performed with
    | done related => exact .done (related.pushResult n _)
    | excused excused => exact .excused excused
    | @failed f a a' related =>
      simp only [Outcome.onFault, Outcome.bind_failed]
      by_cases interrupt : f.isInterrupt = true
      · rw [if_pos interrupt, if_pos interrupt]
        exact .failed related
      · rw [if_neg interrupt, if_neg interrupt]
        exact .failed (related.pushAll _)

/-! ## Directives -/

theorem append (cell : Cell) : (m.append cell).Companion K (m'.append cell) :=
  ⟨companion.store, congrArg (Array.push · cell) companion.code, companion.ip, companion.returns,
    companion.room⟩

theorem writeLiterals (values : List Value) (joined : Option (List Value)) :
    (m.writeLiterals values joined).Companion K (m'.writeLiterals values joined) := by
  cases joined with
  | none => exact companion.append _
  | some all =>
    exact ⟨companion.store, congrArg (fun code => code.pop.push (.literal all)) companion.code,
      companion.ip, companion.returns, companion.room⟩

theorem requireCompiling (word : String) :
    m'.requireCompiling word = m.requireCompiling word :=
  companion.reads (Machine.requireCompiling word) fun _ _ _ _ => rfl

theorem installDraft (draft : Draft) :
    (m.installDraft draft).Companion K (m'.installDraft draft) := by
  have dictionary : m'.dictionary = m.dictionary :=
    companion.reads (fun m => m.dictionary) fun _ _ _ _ => rfl
  have size : m'.code.size = m.code.size := congrArg Array.size companion.code
  have installed := (companion.store.install ⟨draft.name, draft.immediate, .colon draft.address⟩)
  unfold Machine.installDraft Machine.noteDefined
  simp only
  rw [dictionary, size]
  exact (companion.withStore (installed.update (g := fun s => { s with
    lastDefined := some m.dictionary.size }) (fun _ _ => rfl) rfl rfl rfl)).note ..

theorem finish : Agree (Companion K) m.finish m'.finish := by
  unfold Machine.finish
  rw [companion.requireCompiling]
  cases required : m.requireCompiling "return" with
  | error f => exact .error f
  | ok _ =>
    have closed : Companion K { m.append .exit with compiling := false, draft := none }
        { m'.append .exit with compiling := false, draft := none } := by
      exact (companion.append .exit).withStore (companion.store.settle
        (g := fun s => { s with compiling := false, draft := none }) (fun _ _ => rfl) rfl)
    rw [companion.store.draft_eq (compiling_of_require required)]
    cases m.draft with
    | some draft => exact .ok (closed.installDraft draft)
    | none => exact .ok closed

theorem markImmediate : Agree (Companion K) m.markImmediate m'.markImmediate := by
  have mode : m'.compiling = m.compiling :=
    companion.reads (fun m => m.compiling) fun _ _ _ _ => rfl
  have last : m'.lastDefined = m.lastDefined :=
    companion.reads (fun m => m.lastDefined) fun _ _ _ _ => rfl
  have marked : ∀ entry, Companion K { m with dictionary := m.dictionary.markImmediate entry }
      { m' with dictionary := m'.dictionary.markImmediate entry } := by
    intro entry
    exact companion.withStore (companion.store.update (g := fun s => { s with
      dictionary := s.dictionary.markImmediate entry }) (fun _ _ => rfl) rfl rfl rfl)
  by_cases open_ : m.compiling = true ∧ m.draft ≠ none
  · obtain ⟨compiling, some_⟩ := open_
    obtain ⟨draft, open_⟩ := Option.ne_none_iff_exists'.mp some_
    have open' : m'.draft = some draft := (companion.store.draft_eq compiling).trans open_
    rw [markImmediate_of_draft compiling open_, markImmediate_of_draft (mode.trans compiling) open']
    exact .ok (companion.withStore (companion.store.settle (g := fun s => { s with
      draft := some { draft with immediate := true } }) (fun _ _ => rfl) rfl))
  · have closed : m.compiling = true → m.draft = none := fun compiling =>
      not_not.mp fun some_ => open_ ⟨compiling, some_⟩
    have closed' : m'.compiling = true → m'.draft = none := by
      intro compiling
      rw [mode] at compiling
      exact (companion.store.draft_eq compiling).trans (closed compiling)
    cases before : m.lastDefined with
    | some entry =>
      rw [markImmediate_of_entry closed before, markImmediate_of_entry closed' (last.trans before)]
      exact .ok (marked entry)
    | none =>
      rw [markImmediate_of_none closed before, markImmediate_of_none closed' (last.trans before)]
      exact .error _

theorem performDirective (d : Directive) (arguments : List Value) :
    Outcome.Together K.Excuses (Companion K) (d.perform arguments m) (d.perform arguments m') := by
  have applied : Agree (Companion K) (d.apply arguments m) (d.apply arguments m') := by
    unfold Directive.apply
    split
    · exact companion.finish
    · exact companion.markImmediate
    · unfold Machine.compileExit
      rw [companion.requireCompiling]
      exact (Agree.of_eq rfl).bind fun _ _ _ => .ok (companion.append .exit)
    · unfold Machine.compileValue Machine.compileLiterals
      rw [companion.requireCompiling, companion.reads (Machine.joinedLiterals _) fun _ _ _ _ => rfl]
      refine (Agree.of_eq rfl).bind fun _ _ _ => (Agree.of_eq rfl).bind ?_
      rintro joined _ rfl
      exact .ok (companion.writeLiterals _ joined)
    · unfold Machine.compileDoes Machine.here
      rw [companion.requireCompiling, companion.code]
      refine (Agree.of_eq rfl).bind fun _ _ _ => .ok ?_
      have extended := (companion.append (.does (m.code.size + 2 : Nat))).append .exit
      exact extended.withStore (companion.store.update (g := fun s => { s with
        barrier := m.code.size + 2 }) (fun _ _ => rfl) rfl rfl rfl)
    · exact .error _
  rw [Directive.perform_eq, Directive.perform_eq]
  generalize d.apply arguments m = work at applied
  generalize d.apply arguments m' = work' at applied
  cases applied with
  | ok related => exact .done related
  | error f => exact .failed companion

/-! ## Turns -/

/-- While code is running the return stacks are the same. -/
theorem returns_eq {address : Int} (at_ : m.ip = some address) : m'.returns = m.returns := by
  rcases companion.returns with same | ⟨-, idle⟩
  · exact same
  · rw [at_] at idle
    cases idle

theorem withReturns (returns : Stack Int) :
    Companion K { m with returns := returns } { m' with returns := returns } :=
  ⟨companion.store, companion.code, companion.ip, .inl rfl, companion.room⟩

/-- Wherever execution goes, the machines stay companions if their return stacks are the
same. -/
theorem place {returns : Stack Int} (ip : Option Int) :
    Companion K { m with returns := returns, ip := ip } { m' with returns := returns, ip := ip } :=
  ⟨companion.store, companion.code, rfl, .inl rfl, companion.room⟩

theorem locate (address : Value) : m'.locate address = m.locate address :=
  companion.reads (Machine.locate address) fun _ _ _ _ => rfl

theorem nest (address : Value) (resume : Int) (same : m'.returns = m.returns) :
    Turn.Together K.Excuses (Companion K) (m.nest address resume) (m'.nest address resume) := by
  have wide := K.room_le companion.room
  unfold Machine.nest
  rw [same, companion.locate]
  by_cases full : m.capacity ≤ m.returns.depth
  · rw [if_pos full]
    by_cases equal : m'.capacity = m.capacity
    · rw [equal, if_pos full]
      exact .fault companion
    · refine .excused ⟨m.capacity, m'.capacity, rfl, companion.room, ?_⟩
      omega
  · have free : ¬ m'.capacity ≤ m.returns.depth := by omega
    rw [if_neg full, if_neg free]
    simp only
    cases m.locate address with
    | ok place => exact .next (companion.place place)
    | error f => exact .fault (companion.withReturns _)

theorem noteBehavior (name : String) (behavior : Value) :
    Companion K (m.noteBehavior name behavior) (m'.noteBehavior name behavior) := by
  have verbose : m'.verbose = m.verbose :=
    companion.reads (fun m => m.verbose) fun _ _ _ _ => rfl
  unfold Machine.noteBehavior
  rw [verbose]
  split
  · cases Value.Template.wholeText behavior with
    | ok address => exact companion.note ..
    | error f => exact companion
  · exact companion

theorem bindBehavior (behavior : Value) :
    Outcome.Together K.Excuses (Companion K) (m.bindBehavior behavior)
      (m'.bindBehavior behavior) := by
  have last : m'.lastCreated = m.lastCreated :=
    companion.reads (fun m => m.lastCreated) fun _ _ _ _ => rfl
  have dictionary : m'.dictionary = m.dictionary :=
    companion.reads (fun m => m.dictionary) fun _ _ _ _ => rfl
  cases created : m.lastCreated with
  | none =>
    have created' : m'.lastCreated = none := last.trans created
    simp only [Machine.bindBehavior, created, created']
    exact .failed companion
  | some entry =>
    have given : Companion K { m with dictionary := m.dictionary.setBehavior entry behavior }
        { m' with dictionary := m'.dictionary.setBehavior entry behavior } :=
      companion.withStore (companion.store.update (g := fun s => { s with
        dictionary := s.dictionary.setBehavior entry behavior }) (fun _ _ => rfl) rfl rfl rfl)
    rw [bindBehavior_of_created created, bindBehavior_of_created (last.trans created)]
    have known : m'.dictionary.get? entry = m.dictionary.get? entry := by rw [dictionary]
    rw [known]
    exact .done (given.noteBehavior _ behavior)

theorem stepExit (base : Nat) (same : m'.returns = m.returns) :
    Turn.Together K.Excuses (Companion K) (m.stepExit base) (m'.stepExit base) := by
  have halted : Companion K { m with ip := none } { m' with ip := none } :=
    ⟨companion.store, companion.code, rfl, .inl same, companion.room⟩
  cases popped : m.returns.pop? with
  | none =>
    have popped' : m'.returns.pop? = none := by rw [same, popped]
    simp only [Machine.stepExit, popped, popped']
    split
    · exact .halt halted
    · exact .fault companion
  | some top =>
    obtain ⟨r, rest⟩ := top
    have popped' : m'.returns.pop? = some (r, rest) := by rw [same, popped]
    simp only [Machine.stepExit, popped, popped']
    split
    · exact .next (companion.place (some r))
    · split
      · exact .halt halted
      · exact .fault companion

theorem stepNative (entry : Nat) :
    Turn.Together K.Excuses (Companion K) (m.stepNative entry) (m'.stepNative entry) := by
  have dictionary : m'.dictionary = m.dictionary :=
    companion.reads (fun m => m.dictionary) fun _ _ _ _ => rfl
  unfold Machine.stepNative
  rw [dictionary]
  split
  · next name immediate n known =>
    cases n.action with
    | primitive p =>
      refine Outcome.Together.turn (companion.callWith fun arguments _ _ companion => ?_)
      exact companion.performPrimitive p arguments
    | directive d => exact .enter companion
    | host f => exact .enter companion
  · exact .fault companion

theorem stepCreated (entry : Nat) (resume : Int) (same : m'.returns = m.returns) :
    Turn.Together K.Excuses (Companion K) (m.stepCreated entry resume)
      (m'.stepCreated entry resume) := by
  have dictionary : m'.dictionary = m.dictionary :=
    companion.reads (fun m => m.dictionary) fun _ _ _ _ => rfl
  unfold Machine.stepCreated
  rw [dictionary]
  split
  · next name immediate slot behavior known =>
    have pushed := companion.pushAll [.cell slot]
    cases behavior with
    | none => exact .next pushed
    | _ => exact pushed.nest _ resume same
  · exact .fault companion

theorem stepForeign (base : Nat) (resume : Int) (items : List Value)
    (same : m'.returns = m.returns) :
    Turn.Together K.Excuses (Companion K) (m.stepForeign base resume items)
      (m'.stepForeign base resume items) := by
  have slots : m'.slots = m.slots := companion.reads (fun m => m.slots) fun _ _ _ _ => rfl
  unfold Machine.stepForeign
  rw [slots]
  split
  case h_7 => exact companion.stepExit base same
  case h_10 v rest =>
    cases v.items? with
    | some values => exact .next (companion.pushAll values)
    | none => exact .fault companion
  case h_11 address rest => exact companion.nest address resume same
  case h_12 behavior rest => exact (companion.bindBehavior behavior).turn
  case h_13 =>
    cases Value.literalRow m.slots items with
    | ok shown => exact .fault companion
    | error f => exact .fault companion
  all_goals exact .fault companion

/-- Companions take the same turn. -/
theorem turn (base : Nat) :
    Turn.Together K.Excuses (Companion K) (m.turn base) (m'.turn base) := by
  cases at_ : m.ip with
  | none =>
    have at' : m'.ip = none := companion.ip.trans at_
    simp only [Machine.turn, at_, at']
    exact .halt companion
  | some address =>
    have at' : m'.ip = some address := companion.ip.trans at_
    have same := companion.returns_eq at_
    have fetched : m'.fetch address = m.fetch address :=
      companion.reads (Machine.fetch address) fun _ _ _ _ => rfl
    have moved : Companion K (m.moved (address + 1)) (m'.moved (address + 1)) :=
      ⟨companion.store, companion.code, rfl, .inl same, companion.room⟩
    cases ends : m.fetch address with
    | error f =>
      rw [turn_of_missing at_ ends, turn_of_missing at' (fetched.trans ends)]
      exact .fault companion
    | ok cell =>
      rw [turn_of_fetched at_ ends, turn_of_fetched at' (fetched.trans ends)]
      cases cell with
      | native entry => exact moved.stepNative entry
      | literal values => exact .next (moved.pushAll values)
      | call target name => exact moved.nest (.int target) (address + 1) same
      | created entry => exact moved.stepCreated entry (address + 1) same
      | does target => exact (moved.bindBehavior (.int target)).turn
      | exit => exact moved.stepExit base same
      | foreign items => exact moved.stepForeign base (address + 1) items same

end Machine.Companion

end ThreadedForth
