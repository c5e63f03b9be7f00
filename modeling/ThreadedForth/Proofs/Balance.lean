import ThreadedForth.Proofs.Activity
import ThreadedForth.Proofs.Plain

/-!
# The return stack in balance

Every run of code works on the one return stack of the machine.  It finds return
addresses there that belong to the runs around it, notes its own above them, and is
expected to leave what it found.  A run knows the others by a number only, its base; and
in the middle of it a host callable may start further runs, which may fail.

The balance rests on one invariant of a run (`Machine.Balanced`): what was there at the
start is still there, at the bottom.  A call adds on top of it.  An exit takes the top
off only if more than the base remains, and ends the run exactly when the base is what
remains.  So a run never comes to an exit with less than its base, and a run that ends
well has put back everything (`Contract.balanced`).

A callable that only pushes values, runs words and fails cannot break this.  One that
drops return addresses by itself, or stops everything, can.
-/

namespace ThreadedForth

/-! ## The fault of an exit without a call -/

/-- The fault of an exit that finds fewer return addresses than its run has begun with. -/
def Fault.IsUnderflow (f : Fault) : Prop := ∃ depth base, f = .returnUnderflow depth base

theorem Fault.not_isUnderflow_of_calm {f : Fault} (calm : f.derails = false) :
    ¬ f.IsUnderflow := by
  rintro ⟨depth, base, rfl⟩
  cases calm

namespace Machine

theorem not_isUnderflow_ranOff (address : Value) (m : Machine) :
    ¬ (m.ranOff address).IsUnderflow := by
  unfold ranOff Value.quoting
  split
  · rintro ⟨depth, base, same⟩
    cases same
  · next missing lacks =>
    exact Fault.not_isUnderflow_of_calm (Value.steady_literal m.slots address missing lacks)

theorem not_isUnderflow_of_fetch {m : Machine} {address : Int} {f : Fault}
    (h : m.fetch address = .error f) : ¬ f.IsUnderflow := by
  unfold fetch at h
  have lost : ∀ {g : Fault}, g = .addressTooLarge ∨ g = .addressOutOfRange →
      ¬ g.IsUnderflow := by
    rintro g (rfl | rfl) ⟨depth, base, same⟩
    · cases same
    · cases same
  split at h
  · rw [← Except.error.inj h]
    exact m.not_isUnderflow_ranOff _
  · split at h
    · cases h
      exact lost (.inl rfl)
    · split at h
      · cases h
        exact lost (.inr rfl)
      · simp only at h
        split at h
        · cases h
        · cases h
          exact lost (.inr rfl)

theorem not_isUnderflow_of_locate {m : Machine} {address : Value} {f : Fault}
    (h : m.locate address = .error f) : ¬ f.IsUnderflow := by
  unfold locate at h
  split at h
  · cases h
  · cases h
  · next b =>
    generalize (if b then 1 else 0 : Nat) = n at h
    simp only at h
    split at h
    · rw [← Except.error.inj h]
      exact m.not_isUnderflow_ranOff _
    · cases h
  · split at h
    · rw [← Except.error.inj h]
      exact m.not_isUnderflow_ranOff _
    · rw [← Except.error.inj h]
      exact m.not_isUnderflow_ranOff _
    · cases h
      exact Fault.not_isUnderflow_of_calm rfl
  · cases h
    exact Fault.not_isUnderflow_of_calm rfl
  · cases h
    exact Fault.not_isUnderflow_of_calm rfl

end Machine

/-! ## The contract -/

namespace Contract

/-- The return stack stays within the capacity, and what is running finds it as it left
it.  After a failure it may find others above its own return addresses.  An underflow can
only be raised on purpose. -/
def balanced (capacity : Int) (P : Host.Callable → Prop) : Contract where
  inv m := m.Plain P ∧ m.capacity = capacity ∧ (m.returns.depth : Int) ≤ max capacity 0
  done m after := after.ip = m.ip ∧ (m.ip ≠ none → after.returns = m.returns)
  failed m after := after.ip = m.ip ∧ (m.ip ≠ none → m.returns.items <:+ after.returns.items)
  admits f := f.IsUnderflow → ∃ g, P g ∧ .fail f ∈ g.script

variable {capacity : Int} {P : Host.Callable → Prop}

theorem admits_balanced_of_not {f : Fault} (other : ¬ f.IsUnderflow) :
    (balanced capacity P).admits f :=
  fun under => absurd under other

/-- The invariant depends on code, dictionary, return stack and capacity alone. -/
theorem inv_balanced_of_samePoint {m after : Machine} (inv : (balanced capacity P).inv m)
    (plain : after.Plain P) (point : m.SamePoint after) : (balanced capacity P).inv after := by
  obtain ⟨-, same, bounded⟩ := inv
  refine ⟨plain, point.capacity.trans same, ?_⟩
  rw [point.returns]
  exact bounded

theorem balanced_kept (capacity : Int) (P : Host.Callable → Prop) :
    (balanced capacity P).Kept P where
  refl m := ⟨rfl, fun _ => rfl⟩
  trans {a b c} first second := by
    refine ⟨second.1.trans first.1, fun running => ?_⟩
    have still : b.ip ≠ none := by
      rw [first.1]
      exact running
    exact (second.2 still).trans (first.2 running)
  weaken done := ⟨done.1, fun running => (congrArg Stack.items (done.2 running)).symm ▸
    List.suffix_refl _⟩
  before {a b c} done failed := by
    refine ⟨failed.1.trans done.1, fun running => ?_⟩
    have still : b.ip ≠ none := by
      rw [done.1]
      exact running
    rw [← done.2 running]
    exact failed.2 still
  after {a b c} failed done := by
    refine ⟨done.1.trans failed.1, fun running => ?_⟩
    have still : b.ip ≠ none := by
      rw [failed.1]
      exact running
    rw [done.2 still]
    exact failed.2 running
  edit {a b} inv changed := by
    have point := changed.samePoint
    exact ⟨inv_balanced_of_samePoint inv (inv.1.edit changed) point, point.ip,
      fun _ => point.returns⟩
  calm calm := admits_balanced_of_not (Fault.not_isUnderflow_of_calm calm)
  hosts inv := (plain_kept P).hosts inv.1
  spelled inv := (plain_kept P).spelled inv.1

end Contract

/-! ## Runs -/

namespace Machine

variable {capacity : Int} {P : Host.Callable → Prop}

/-- What holds at every turn of a run that has begun with the return addresses `low`: they
are still there, below those of the run itself. -/
structure Balanced (capacity : Int) (P : Host.Callable → Prop) (low : Stack Int)
    (m : Machine) : Prop where
  inv : (Contract.balanced capacity P).inv m
  below : low.items <:+ m.returns.items
  /-- A run that has nowhere to go on has nothing left of its own. -/
  idle : m.ip = none → m.returns = low

/-- How a run ends that has begun with the return addresses `low`. -/
def Settled (capacity : Int) (P : Host.Callable → Prop) (low : Stack Int) : Outcome Unit → Prop
  | .done () after => (Contract.balanced capacity P).inv after ∧ after.ip = none ∧
      after.returns = low
  | .failed f after => (Contract.balanced capacity P).inv after ∧
      low.items <:+ after.returns.items ∧ (Contract.balanced capacity P).admits f

theorem Balanced.depth_le {low : Stack Int} {m : Machine} (held : Balanced capacity P low m) :
    low.depth ≤ m.returns.depth := by
  rw [low.depth_eq, m.returns.depth_eq]
  exact held.below.length_le

/-- A run goes on balanced where the execution stands at the same point as before, or has
moved on to another cell. -/
theorem Balanced.moved {low : Stack Int} {m after : Machine} {place : Int}
    (held : Balanced capacity P low m) (plain : after.Plain P)
    (point : (m.moved place).SamePoint after) : Balanced capacity P low after where
  inv := Contract.inv_balanced_of_samePoint (m := m.moved place)
    ⟨held.inv.1.congr rfl rfl, held.inv.2⟩ plain point
  below := by
    rw [point.returns]
    exact held.below
  idle none_ := by
    rw [point.ip] at none_
    cases none_

/-- A turn that fails leaves a settled run if it leaves the execution where it was. -/
theorem Balanced.settled_failed {low : Stack Int} {m after : Machine} {place : Int} {f : Fault}
    (held : Balanced capacity P low m) (plain : after.Plain P)
    (point : (m.moved place).SamePoint after)
    (admitted : (Contract.balanced capacity P).admits f) :
    Settled capacity P low (.failed f after) :=
  ⟨(held.moved plain point).inv, (held.moved plain point).below, admitted⟩

/-- No turn of a balanced run comes to an exit without a call. -/
theorem Balanced.not_isUnderflow_of_fault {low : Stack Int} {m after : Machine} {f : Fault}
    (held : Balanced capacity P low m) (h : m.turn low.depth = .fault f after) :
    ¬ f.IsUnderflow := by
  have turned := held.inv.1.turned low.depth
  rw [h] at turned
  generalize ends : Turn.fault f after = t at turned
  cases turned with
  | lost at_ missing =>
    cases ends
    exact not_isUnderflow_of_fetch missing
  | primitive at_ fetched known kind =>
    exact Fault.not_isUnderflow_of_calm (calm_of_callPrimitive (Turn.failed_of_ofOutcome ends))
  | does at_ fetched =>
    exact Fault.not_isUnderflow_of_calm (calm_of_bindBehavior (Turn.failed_of_ofOutcome ends))
  | callFull at_ fetched full =>
    cases ends
    exact Fault.not_isUnderflow_of_calm (Fault.derails_full _)
  | behaviorFull at_ fetched known full =>
    cases ends
    exact Fault.not_isUnderflow_of_calm (Fault.derails_full _)
  | under at_ fetched below => exact absurd held.depth_le (Nat.not_le.mpr below)
  | _ => cases ends

theorem Balanced.leads_callPrimitive {call : Caller} {low : Stack Int} {m : Machine}
    (held : Balanced capacity P low m) (place : Int) (name : String) (n : Native)
    (p : Primitive) :
    (Turn.ofOutcome ((m.moved place).callWith name n p.perform)).Leads call
      (Balanced capacity P low) (Settled capacity P low) := by
  have changed := edits_callPrimitive name n p (m.moved place)
  have moved : (m.moved place).Plain P := held.inv.1.congr rfl rfl
  have called := held.moved (moved.edits changed) changed.samePoint
  refine Turn.leads_ofOutcome called fun f after ends kept => ?_
  exact ⟨kept.inv, kept.below,
    (Contract.balanced_kept capacity P).calm (calm_of_callPrimitive ends)⟩

theorem Balanced.leads_bindBehavior {call : Caller} {low : Stack Int} {m : Machine}
    (held : Balanced capacity P low m) (place target : Int) :
    (Turn.ofOutcome ((m.moved place).bindBehavior (.int target))).Leads call
      (Balanced capacity P low) (Settled capacity P low) := by
  have admits := fun {f : Fault} (calm : f.derails = false) =>
    (Contract.balanced_kept capacity P).calm calm
  have moved : (m.moved place).Plain P := held.inv.1.congr rfl rfl
  have plain := moved.bindBehavior target
  rcases bindBehavior_cases (.int target) (m.moved place) with
    ⟨-, ends⟩ | ⟨entry, s, -, books, ends⟩
  · rw [ends]
    exact held.settled_failed moved (.refl _) (admits rfl)
  · rw [ends] at plain ⊢
    exact held.moved plain ⟨rfl, rfl, rfl⟩

/-- A call that fits into the return stack goes on balanced. -/
theorem Balanced.called {low : Stack Int} {m : Machine} (held : Balanced capacity P low m)
    (target resume : Int) (room : (m.returns.depth : Int) < m.capacity) :
    Balanced capacity P low (m.called target resume) where
  inv := by
    obtain ⟨plain, same, -⟩ := held.inv
    refine ⟨plain.congr rfl rfl, same, ?_⟩
    rw [same] at room
    have grown : (m.called target resume).returns.depth = m.returns.depth + 1 := rfl
    omega
  below := held.below.trans (List.suffix_cons resume m.returns.items)
  idle none_ := by cases none_

/-- An exit that goes back goes on balanced. -/
theorem Balanced.left {low rest : Stack Int} {m : Machine} {r : Int}
    (held : Balanced capacity P low m) (waits : m.returns.items = r :: rest.items)
    (above : low.depth ≤ rest.depth) :
    Balanced capacity P low { m with returns := rest, ip := some r } where
  inv := by
    obtain ⟨plain, same, bounded⟩ := held.inv
    refine ⟨plain.congr rfl rfl, same, ?_⟩
    have shrunk : m.returns.depth = rest.depth + 1 := by
      rw [m.returns.depth_eq, waits, List.length_cons, rest.depth_eq]
    show (rest.depth : Int) ≤ max capacity 0
    omega
  below := by
    have below := held.below
    rw [waits] at below
    rcases List.suffix_cons_iff.mp below with same | inside
    · have deep : low.depth = rest.depth + 1 := by
        rw [low.depth_eq, same, List.length_cons, rest.depth_eq]
      omega
    · exact inside
  idle none_ := by cases none_

/-- An exit at the base finds what the run has begun with. -/
theorem Balanced.returns_eq {low : Stack Int} {m : Machine} (held : Balanced capacity P low m)
    (level : m.returns.depth = low.depth) : m.returns = low := by
  rw [m.returns.depth_eq, low.depth_eq] at level
  exact Stack.ext (held.below.eq_of_length level.symm).symm

/-- A balanced run stays balanced, and settles when it ends. -/
theorem Balanced.leads {call : Caller} {low : Stack Int} {m : Machine}
    (obeys : (Contract.balanced capacity P).Obeys P call) (held : Balanced capacity P low m) :
    (m.turn low.depth).Leads call (Balanced capacity P low) (Settled capacity P low) := by
  have rules := Contract.balanced_kept capacity P
  have moved : ∀ place, (m.moved place).Plain P := fun place => held.inv.1.congr rfl rfl
  have turned := held.inv.1.turned low.depth
  generalize m.turn low.depth = t at turned
  cases turned with
  | rest idle => exact ⟨held.inv, idle, held.idle idle⟩
  | lost at_ missing =>
    exact ⟨held.inv, held.below,
      Contract.admits_balanced_of_not (not_isUnderflow_of_fetch missing)⟩
  | @literal address values at_ fetched =>
    exact held.moved ((moved (address + 1)).congr rfl rfl) ⟨rfl, rfl, rfl⟩
  | primitive at_ fetched known kind => exact held.leads_callPrimitive _ _ _ _
  | @host address entry name immediate n f at_ fetched known kind =>
    have begun : Balanced capacity P low (m.moved (address + 1)) :=
      held.moved (moved (address + 1)) (.refl _)
    have allowed : ∀ g, n.action = .host g → P g := (held.inv.1.entries entry _ known).2
    have kept := rules.holds_callNative obeys name begun.inv allowed
    refine ⟨⟨begun.inv, begun.below, rules.calm rfl⟩, fun ended ends => ?_, fun g ended ends => ?_⟩
    · rw [ends] at kept
      obtain ⟨inv, ip, returns⟩ := kept
      refine ⟨inv, ?_, fun none_ => ?_⟩
      · rw [returns (Option.some_ne_none _)]
        exact begun.below
      · rw [ip] at none_
        cases none_
    · rw [ends] at kept
      obtain ⟨inv, ⟨-, left⟩, admitted⟩ := kept
      exact ⟨inv, begun.below.trans (left (Option.some_ne_none _)), admitted⟩
  | @call address target name at_ fetched room =>
    have begun : Balanced capacity P low (m.moved (address + 1)) :=
      held.moved (moved (address + 1)) (.refl _)
    exact begun.called target (address + 1) room
  | @callFull address target name at_ fetched full =>
    exact held.settled_failed (moved (address + 1)) (.refl _)
      (rules.calm (Fault.derails_full _))
  | @created address entry slot name immediate at_ fetched known =>
    exact held.moved ((moved (address + 1)).congr rfl rfl) ⟨rfl, rfl, rfl⟩
  | @behavior address target entry slot name immediate at_ fetched known room =>
    have begun : Balanced capacity P low ((m.moved (address + 1)).pushAll [.cell slot]) :=
      held.moved ((moved (address + 1)).congr rfl rfl) ⟨rfl, rfl, rfl⟩
    exact begun.called target (address + 1) room
  | @behaviorFull address target entry slot name immediate at_ fetched known full =>
    exact held.settled_failed ((moved (address + 1)).congr rfl rfl) ⟨rfl, rfl, rfl⟩
      (rules.calm (Fault.derails_full _))
  | does at_ fetched => exact held.leads_bindBehavior _ _
  | leave at_ fetched waits above => exact held.left waits above
  | finish at_ fetched level =>
    exact ⟨⟨held.inv.1.congr rfl rfl, held.inv.2⟩, rfl, held.returns_eq level⟩
  | under at_ fetched below => exact absurd held.depth_le (Nat.not_le.mpr below)

/-- A run begins balanced, with the return addresses of what is running around it, and with
none if nothing is. -/
theorem balanced_discardStale {m : Machine} (inv : (Contract.balanced capacity P).inv m)
    (place : Option Int) :
    Balanced capacity P m.discardStale.returns { m.discardStale with ip := place } := by
  obtain ⟨s, books, stale⟩ := discardStale_cases m
  obtain ⟨plain, same, bounded⟩ := inv
  rw [stale]
  refine ⟨⟨plain.congr rfl books.dictionary, same, ?_⟩, List.suffix_refl _, fun _ => rfl⟩
  by_cases idle : m.ip = none
  · rw [if_pos idle]
    exact Int.le_max_right capacity 0
  · rw [if_neg idle]
    exact bounded

/-- Running the code at any address keeps the balance.  What a success leaves on the return
stack is known even when nothing else is running. -/
theorem executeAddress_balanced {call : Caller} {m : Machine}
    (obeys : (Contract.balanced capacity P).Obeys P call) (address : Value)
    (inv : (Contract.balanced capacity P).inv m) :
    (Contract.balanced capacity P).Holds m (m.executeAddress call address) ∧
      ∀ after, m.executeAddress call address = .done () after →
        after.returns = if m.ip = none then .empty else m.returns := by
  have begun := balanced_discardStale inv
  obtain ⟨s, books, stale⟩ := discardStale_cases m
  have left : m.discardStale.returns = if m.ip = none then .empty else m.returns := by
    rw [stale]
  rcases executeAddress_cases call address m with ⟨f, missing, ends⟩ | ⟨place, -, ends⟩
  · rw [ends]
    have other := not_isUnderflow_of_locate missing
    refine ⟨⟨(begun m.discardStale.ip).inv, ⟨?_, fun running => ?_⟩,
      Contract.admits_balanced_of_not other⟩, fun after same => ?_⟩
    · rw [stale]
    · exact (left.trans (if_neg running)).symm ▸ List.suffix_refl _
    · cases same
  · rw [ends]
    have settled := loop_of_turns (fun _ held => Balanced.leads obeys held) maxEntries _
      (begun place)
    generalize loop call m.discardStale.returns.depth maxEntries
      { m.discardStale with ip := place } = o at settled ⊢
    rw [left] at settled
    cases o with
    | failed f after =>
      obtain ⟨⟨plain, rest⟩, below, admitted⟩ := settled
      refine ⟨⟨⟨plain.congr rfl rfl, rest⟩, ⟨rfl, fun running => ?_⟩, admitted⟩,
        fun ended same => ?_⟩
      · rw [if_neg running] at below
        exact below
      · cases same
    | done _ after =>
      obtain ⟨⟨plain, rest⟩, -, returns⟩ := settled
      refine ⟨⟨⟨plain.congr rfl rfl, rest⟩, rfl, fun running => ?_⟩, fun ended same => ?_⟩
      · rw [if_neg running] at returns
        exact returns
      · cases same
        exact returns

end Machine

/-! ## Sessions -/

/-- The callable pushes values, looks at them, runs words and fails, and does nothing else
to the machine.  It handles no failure. -/
def Host.Callable.IsTame (f : Host.Callable) : Prop :=
  ∀ action ∈ f.script, action.isInvasive = false

namespace Contract

variable {P : Host.Callable → Prop} (capacity : Int) (tame : ∀ f, P f → f.IsTame)

include tame

theorem balanced_sustained : (balanced capacity P).Sustained P where
  toKept := balanced_kept capacity P
  enter obeys inv _ := (Machine.executeAddress_balanced obeys _ inv).1
  raises {f fault} allowed inside _ := ⟨f, allowed, inside⟩
  invade {call f action m} _ allowed inside invasive _ := by
    rw [tame f allowed action inside] at invasive
    cases invasive
  handle {f m after} allowed inside := by
    have invasive := tame f allowed .handle inside
    cases invasive

theorem balanced_spanning : (balanced capacity P).Spanning (Session.registering P) where
  toSustained := balanced_sustained capacity tame
  register inv _ free host := ⟨inv.1.register free host, inv.2⟩
  stop {m} inv := by
    have point := m.edits_abort.samePoint
    refine ⟨inv.1.abort, point.capacity.trans inv.2.1, ?_⟩
    rw [point.returns]
    exact Int.le_max_right capacity 0
  jump _ inv := (Machine.executeAddress_balanced (balanced_sustained capacity tame).obeys_caller
    _ inv).1.survives
  switch _ inv := ⟨inv.1.congr rfl rfl, inv.2⟩
  insert allowed := allowed.elim

omit tame in
theorem inv_balanced_bare (verbose : Bool) :
    (balanced capacity P).inv (Machine.bare capacity verbose) :=
  ⟨Machine.plain_bare capacity verbose, rfl, Int.le_max_right capacity 0⟩

end Contract

/-! ## Inside a session -/

namespace Activity

/-- What an activity needs beyond the invariant: a run is balanced, and the callables that
are to be called are among those that were registered. -/
def Ready (capacity : Int) (P : Host.Callable → Prop) (m : Machine) : Activity → Prop
  | turns base _ => ∃ low : Stack Int, low.depth = base ∧ Machine.Balanced capacity P low m
  | native _ n => ∀ f, n.action = .host f → P f
  | callable f _ => P f
  | script actions => ∃ f, P f ∧ ∀ action ∈ actions, action ∈ f.script
  | _ => True

variable {capacity : Int} {P : Host.Callable → Prop} {depth depth' : Nat} {m m' : Machine}
  {activity inner : Activity}

/-- An activity that begins in balance starts others in balance only. -/
theorem Starts.balanced (tame : ∀ f, P f → f.IsTame)
    (starts : activity.Starts depth m depth' inner m')
    (inv : (Contract.balanced capacity P).inv m) (ready : activity.Ready capacity P m) :
    (Contract.balanced capacity P).inv m' ∧ inner.Ready capacity P m' := by
  have spanning := Contract.balanced_spanning capacity tame
  have obeys := spanning.obeys_callHost depth
  cases starts with
  | greeting => exact ⟨spanning.inv_tell _ inv, trivial⟩
  | line => exact ⟨spanning.inv_tell _ inv, trivial⟩
  | @afterLine _ d text _ m _ _ fed =>
    have asked := spanning.inv_tell (.prompted (Console.prompt m)) inv
    have survived := spanning.survives_feed d text asked
    rw [fed] at survived
    exact ⟨survived.1, trivial⟩
  | afterInterrupt => exact ⟨spanning.inv_recover _ (spanning.inv_tell _ inv), trivial⟩
  | read => exact ⟨inv, trivial⟩
  | firstToken => exact ⟨inv, trivial⟩
  | @afterToken _ t rest _ _ fed =>
    have held := spanning.holds_interpret obeys t inv
    rw [fed] at held
    exact ⟨held.1, trivial⟩
  | name => exact ⟨inv, trivial⟩
  | word => exact ⟨inv, trivial⟩
  | native known => exact ⟨inv, fun f host => spanning.hosts inv known rfl host⟩
  | colon => exact ⟨inv, trivial⟩
  | behavior => exact ⟨(spanning.edits inv (m.edits_pushAll _)).1, trivial⟩
  | run located =>
    have begun := Machine.balanced_discardStale inv
    exact ⟨(begun _).inv, _, rfl, begun _⟩
  | turn turned =>
    obtain ⟨low, rfl, held⟩ := ready
    have leads := held.leads obeys
    rw [turned] at leads
    exact ⟨leads.inv, low, rfl, leads⟩
  | enter turned =>
    obtain ⟨low, rfl, held⟩ := ready
    obtain ⟨address, entry, immediate, rfl, known⟩ := held.inv.1.host_of_enter turned
    exact ⟨⟨held.inv.1.congr rfl rfl, held.inv.2⟩, (held.inv.1.entries entry _ known).2⟩
  | afterEntry turned called =>
    obtain ⟨low, rfl, held⟩ := ready
    have leads := held.leads obeys
    rw [turned] at leads
    have goesOn := leads.2.1 _ called
    exact ⟨goesOn.inv, low, rfl, goesOn⟩
  | host kind => exact ⟨(spanning.edits inv (Machine.edits_data (m.toStore.sameBooks_take _))).1,
      ready _ kind⟩
  | body => exact ⟨inv, _, ready, fun _ inside => inside⟩
  | @runTokens _ ts own rest _ _ copied =>
    have held := spanning.holds_marking inv (SteadyMarking.mapM (Token.steady_copy m.slots.size) ts)
    rw [copied] at held
    exact ⟨held.1, trivial⟩
  | runSource => exact ⟨inv, trivial⟩
  | runWord => exact ⟨inv, trivial⟩
  | runCode => exact ⟨inv, trivial⟩
  | @afterAction _ action rest _ _ performed =>
    obtain ⟨f, allowed, inside⟩ := ready
    have held := spanning.holds_action obeys allowed (inside action List.mem_cons_self) inv
    rw [performed] at held
    exact ⟨held.1, f, allowed, fun a later => inside a (List.mem_cons_of_mem action later)⟩
  | @afterFailure _ action skipped rest _ _ _ failed =>
    obtain ⟨f, allowed, inside⟩ := ready
    have handled := inside .handle (by simp)
    have invasive := tame f allowed .handle handled
    cases invasive

/-- An activity that begins in balance ends in balance. -/
theorem Ready.survives (tame : ∀ f, P f → f.IsTame) (inv : (Contract.balanced capacity P).inv m)
    (ready : activity.Ready capacity P m) :
    (Contract.balanced capacity P).Survives (activity.perform depth m) := by
  have spanning := Contract.balanced_spanning capacity tame
  have obeys := spanning.obeys_callHost depth
  cases activity with
  | dialogue d inputs => exact spanning.survives_dialogue d inputs inv
  | prompts d inputs => exact spanning.survives_converse d inputs inv
  | source text => exact (spanning.holds_execute obeys text inv).survives
  | tokens ts => exact (spanning.holds_run obeys ts inv).survives
  | token t => exact (spanning.holds_interpret obeys t inv).survives
  | word name => exact (spanning.holds_executeWord obeys name inv).survives
  | entry e =>
    cases known : m.dictionary.get? e with
    | some w => exact (spanning.holds_executeEntry obeys inv known).survives
    | none =>
      have lost : m.executeEntry (Host.callHost depth) e = .failed .cellTooShort m := by
        simp only [Machine.executeEntry, known]
      have other : ¬ Fault.IsUnderflow .cellTooShort := by
        rintro ⟨n, base, same⟩
        cases same
      refine ⟨?_, fun f after ends => ?_⟩
      · rw [perform, lost]
        exact inv
      · rw [perform, lost] at ends
        cases ends
        exact Contract.admits_balanced_of_not other
  | code address => exact (Machine.executeAddress_balanced obeys address inv).1.survives
  | turns base credit =>
    obtain ⟨low, rfl, held⟩ := ready
    have settled := Machine.loop_of_turns (fun _ held => Machine.Balanced.leads obeys held) credit
      m held
    rw [perform]
    generalize m.loop (Host.callHost depth) low.depth credit = o at settled ⊢
    cases o with
    | done _ after =>
      refine ⟨settled.1, fun f ended ends => ?_⟩
      cases ends
    | failed f after =>
      refine ⟨settled.1, fun g ended ends => ?_⟩
      cases ends
      exact settled.2.2
  | native name n => exact (spanning.holds_callNative obeys name inv ready).survives
  | callable f arguments => exact (obeys f arguments m ready inv).survives.map _
  | script actions =>
    obtain ⟨f, allowed, inside⟩ := ready
    exact (spanning.holds_runScript obeys allowed actions inside inv).survives

/-- What it means for an activity to keep the return stack in balance. -/
structure InBalance (capacity : Int) (callables : Host.Callable → Prop) (depth : Nat)
    (m : Machine) (activity : Activity) : Prop where
  /-- There is no more on the return stack than fits when the activity begins. -/
  bounded : (m.returns.depth : Int) ≤ max capacity 0
  /-- There is no more on the return stack than fits when the activity has ended. -/
  bounded_after : ((activity.perform depth m).machine.returns.depth : Int) ≤ max capacity 0
  /-- Code that was run puts everything back: the place of execution, and what the return
  stack held; but return addresses are of no use when nothing is running around it. -/
  restored {address : Value} {after : Machine} : activity = .code address →
    activity.perform depth m = .done () after →
    after.ip = m.ip ∧ after.returns = if m.ip = none then .empty else m.returns
  /-- No turn of a run comes to an exit without a call. -/
  covered {base credit : Nat} {f : Fault} {after : Machine} : activity = .turns base credit →
    m.turn base = .fault f after → ¬ f.IsUnderflow
  /-- An underflow is seen only if a callable raises it on purpose. -/
  blamed {f : Fault} {after : Machine} : activity.perform depth m = .failed f after →
    f.IsUnderflow → ∃ g, callables g ∧ .fail f ∈ g.script

theorem Ready.inBalance (tame : ∀ f, P f → f.IsTame)
    (inv : (Contract.balanced capacity P).inv m) (ready : activity.Ready capacity P m) :
    activity.InBalance capacity P depth m := by
  have survived : (Contract.balanced capacity P).Survives (activity.perform depth m) :=
    Ready.survives tame inv ready
  have obeys := (Contract.balanced_sustained capacity tame).obeys_callHost depth
  refine ⟨inv.2.2, survived.1.2.2, ?_, ?_, fun ends => survived.2 _ _ ends⟩
  · rintro address after rfl ends
    obtain ⟨held, left⟩ := Machine.executeAddress_balanced obeys address inv
    have performed : m.executeAddress (Host.callHost depth) address = .done () after := ends
    rw [performed] at held
    exact ⟨held.2.1, left after performed⟩
  · rintro base credit f after rfl faulted
    obtain ⟨low, rfl, held⟩ := ready
    exact held.not_isUnderflow_of_fault faulted

end Activity

namespace Session

variable {capacity : Int} {P : Host.Callable → Prop} {session : List Operation}
  {start : Machine}

/-- The activity of an operation needs no more than the invariant. -/
theorem Operation.ready_of_activity? {operation : Operation} {activity : Activity} {m : Machine}
    (h : operation.activity? = some activity) : activity.Ready capacity P m := by
  cases operation with
  | feed values =>
    simp only [activity?] at h
    split at h
    · cases h
    · cases h
      trivial
  | execute | run | interpret | define | executeWord | executeAddress | converse =>
    cases h
    trivial
  | _ => cases h

/-- Everything that begins in a session begins in balance. -/
theorem Begins.balanced (tame : ∀ f, P f → f.IsTame)
    (within : ∀ operation ∈ session, operation.Within (Session.registering P))
    (inv : (Contract.balanced capacity P).inv start) {depth : Nat} {activity : Activity}
    {m : Machine} (begun : Begins session start depth activity m) :
    (Contract.balanced capacity P).inv m ∧ activity.Ready capacity P m := by
  have spanning := Contract.balanced_spanning capacity tame
  induction begun with
  | @operation before after operation own ready activity order copied amounts =>
    have earlier : ∀ operation ∈ before, operation.Within (Session.registering P) := by
      intro other inside
      refine within other ?_
      rw [order]
      exact List.mem_append_left _ inside
    have held := spanning.holds_marking (spanning.inv_play earlier inv)
      (operation.steady_copy (play before start).slots.size)
    rw [copied] at held
    exact ⟨held.1, own.ready_of_activity? amounts⟩
  | inner around starts ih => exact starts.balanced tame ih.1 ih.2

/-- In a session whose callables only push values, run words and fail, the return stack is
balanced and bounded in whatever goes on, at any depth of nesting. -/
theorem returns_balanced {callables : Host.Callable → Prop} (withPrelude verbose : Bool)
    (tame : ∀ f, callables f → f.IsTame)
    (within : ∀ operation ∈ session, operation.Within (Session.registering callables)) :
    ((play session (Machine.fresh capacity withPrelude verbose)).returns.depth : Int)
        ≤ max capacity 0 ∧
      (∀ f after, .failed f after ∈ outcomes session (Machine.fresh capacity withPrelude verbose) →
        f.IsUnderflow → ∃ g, callables g ∧ .fail f ∈ g.script) ∧
      ∀ depth activity m,
        Begins session (Machine.fresh capacity withPrelude verbose) depth activity m →
        activity.InBalance capacity callables depth m := by
  have spanning := Contract.balanced_spanning capacity tame
  have inv : (Contract.balanced capacity callables).inv
      (Machine.fresh capacity withPrelude verbose) :=
    spanning.inv_fresh (Contract.inv_balanced_bare capacity verbose)
  refine ⟨(spanning.inv_play within inv).2.2,
    fun f after ended => spanning.admits_of_mem_outcomes within inv ended,
    fun depth activity m begun => ?_⟩
  obtain ⟨kept, ready⟩ := begun.balanced tame within inv
  exact ready.inBalance tame kept

/-- A callable that pushes a value and runs words on it, while code that called it is
running. -/
def nudge : Host.Callable where
  label := .text "<host nudge>"
  signature := .known []
  script := [.push [.int 1], .executeWord "sink", .execute "2 drop"]
  answer := .returnDepth

/-- A session in which a word calls back into the machine from inside another one. -/
def nudging : List Operation :=
  [.execute ": sink drop ;", .defineNative (.text "nudge") (.callable nudge) ⟨false, none, false⟩,
    .execute ": twice nudge nudge ; : again twice ;", .executeWord "again"]

/-- The machine before its last operation. -/
def nudged : Machine :=
  { Machine.bare 4 false with
    dictionary := ((((Machine.bare 4 false).dictionary.push ⟨"sink", false, .colon 0⟩).push
      ⟨"nudge", false, .native ⟨.host nudge, 0, false⟩⟩).push ⟨"twice", false, .colon 2⟩).push
      ⟨"again", false, .colon 5⟩
    lastDefined := some 43
    code := #[.native 1, .exit, .native 41, .native 41, .exit, .call 2 "twice", .exit]
    barrier := 5 }

theorem play_nudging : play nudging.dropLast (Machine.fresh 4 false false) = nudged := by
  decide +kernel

/-- The state in which the callable runs its word: `twice` is running inside `again`. -/
def nudgedInside : Machine :=
  { nudged with
    stack := Stack.empty.push (.int 1)
    returns := Stack.empty.push 6
    ip := some 3 }

theorem begins_nudgedInside :
    Begins nudging (Machine.fresh 4 false false) 999 (.code (.int 0)) nudgedInside := by
  have ready : (play nudging.dropLast (Machine.fresh 4 false false)).marking
      ((Operation.executeWord "again").copy
        (play nudging.dropLast (Machine.fresh 4 false false)).slots.size) =
      .done (.executeWord "again") nudged := by
    rw [play_nudging]
    rfl
  have word : Begins nudging (Machine.fresh 4 false false) Host.maxDepth (.word "again") nudged :=
    .operation rfl ready rfl
  have run : Begins nudging (Machine.fresh 4 false false) Host.maxDepth
      (.turns 0 Machine.maxEntries) { nudged with ip := some 5 } :=
    .inner (.inner (.inner word (.word rfl)) (.colon rfl)) (.run rfl)
  have called : Begins nudging (Machine.fresh 4 false false) Host.maxDepth
      (.callable nudge []) { nudged with returns := Stack.empty.push 6, ip := some 3 } :=
    .inner (.inner (.inner run (.turn rfl)) (.enter rfl)) (.host rfl (Nat.zero_le _))
  have pushed : Begins nudging (Machine.fresh 4 false false) 999
      (.script [.executeWord "sink", .execute "2 drop"]) nudgedInside :=
    .inner (.inner called (.body rfl)) (.afterAction rfl)
  exact .inner (.inner (.inner pushed .runWord) (.word rfl)) (.colon rfl)

theorem executeAddress_nudgedInside :
    nudgedInside.executeAddress (Host.callHost 999) (.int 0) =
      .done () { nudgedInside with stack := .empty } :=
  Machine.executeAddress_of_halt (Host.callHost 999) 1 0 nudgedInside _ rfl

/-- The run of `sink` inside the run of `twice` finds one return address, and puts it back. -/
theorem returns_balanced_nudging :
    nudge.IsTame ∧ (∀ operation ∈ nudging, operation.Within (Session.registering (· = nudge))) ∧
      ((play nudging (Machine.fresh 4 false false)).returns.depth : Int) ≤ 4 ∧
      Begins nudging (Machine.fresh 4 false false) 999 (.code (.int 0)) nudgedInside ∧
      nudgedInside.ip = some 3 ∧ nudgedInside.returns.items = [6] ∧
      ∃ after, nudgedInside.executeAddress (Host.callHost 999) (.int 0) = .done () after ∧
        after.ip = some 3 ∧ after.returns.items = [6] := by
  have tame : nudge.IsTame := by
    unfold Host.Callable.IsTame
    decide
  have named : ∀ f, f = nudge → f.IsTame := by
    rintro f rfl
    exact tame
  have within : ∀ operation ∈ nudging, operation.Within (Session.registering (· = nudge)) := by
    simp [nudging, Operation.Within, registering, Scope.Allows]
  obtain ⟨bounded, -, balance⟩ := returns_balanced false false named within
  obtain ⟨ip, returns⟩ :=
    (balance 999 _ _ begins_nudgedInside).restored rfl executeAddress_nudgedInside
  refine ⟨tame, within, bounded, begins_nudgedInside, rfl, rfl, _, executeAddress_nudgedInside,
    ip, ?_⟩
  rw [returns]
  rfl

end Session
end ThreadedForth
