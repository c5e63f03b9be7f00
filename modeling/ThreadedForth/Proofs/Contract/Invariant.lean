import ThreadedForth.Proofs.Turn

/-!
# Invariants that do not look at the execution

The weakest kind of contract promises nothing but its invariant (`Contract.ofInvariant`).
Many invariants of this kind speak about the code and the dictionary and do not look at
where the execution stands.  For them little is left to prove: they survive the edits, they
survive a behavior that is given by a cell of the code, and they do not depend on the return
stack and the place of execution.  That is `Contract.Placeless`.

From there runs follow by the list of what a turn can leave (`Machine.Leaves`), and with the
runs everything else: `Placeless.sustained` and, for whole sessions, `Placeless.spanning`.
-/

namespace ThreadedForth
namespace Contract

variable {inv : Machine → Prop} {P : Host.Callable → Prop}

/-- The contract that promises an invariant and nothing else. -/
def ofInvariant (inv : Machine → Prop) : Contract where
  inv := inv
  done _ _ := True
  failed _ _ := True
  admits _ := True

theorem holds_ofInvariant {α : Type} {m : Machine} {o : Outcome α} :
    (ofInvariant inv).Holds m o ↔ inv o.machine := by
  cases o with
  | done a after => exact ⟨And.left, fun kept => ⟨kept, trivial⟩⟩
  | failed f after => exact ⟨And.left, fun kept => ⟨kept, trivial, trivial⟩⟩

/-- What is asked of an invariant that does not look at the execution. -/
structure Placeless (inv : Machine → Prop) (P : Host.Callable → Prop) : Prop where
  edit {m after : Machine} : inv m → Machine.Edit m after → inv after
  placed {m : Machine} (returns : Stack Int) (ip : Option Int) : inv m →
    inv { m with returns := returns, ip := ip }
  /-- A cell of the code can give the word that was created last a behavior. -/
  bound {m : Machine} {cell : Cell} {behavior : Value} {entry : Nat} : inv m → cell ∈ m.code →
    cell.Gives behavior → m.lastCreated = some entry →
    inv { m with dictionary := m.dictionary.setBehavior entry behavior }
  hosts {m : Machine} {entry : Nat} {w : Word} {n : Native} {f : Host.Callable} :
    inv m → m.dictionary.get? entry = some w → w.body = .native n → n.action = .host f → P f
  spelled {m : Machine} {items : List Value} : inv m → m.code.back? ≠ some (.foreign items)

namespace Placeless

variable (rules : Placeless inv P) {m after : Machine}

include rules

theorem kept : (ofInvariant inv).Kept P where
  refl _ := trivial
  trans _ _ := trivial
  weaken _ := trivial
  before _ _ := trivial
  after _ _ := trivial
  edit begun changed := ⟨rules.edit begun changed, trivial⟩
  calm _ := trivial
  hosts := rules.hosts
  spelled := rules.spelled

theorem edits (begun : inv m) (changed : Machine.Edits m after) : inv after :=
  (rules.kept.edits begun changed).1

/-- Nothing that a turn can leave breaks the invariant. -/
theorem leaves (begun : inv m) (left : m.Leaves after) : inv after := by
  cases left with
  | place returns ip => exact rules.placed returns ip begun
  | @pushed cell values at_ pushes returns ip =>
    exact rules.placed returns ip (rules.edits begun (m.edits_pushAll values))
  | @primitive entry name immediate n p at_ known kind resume =>
    have moved : inv (m.moved resume) := rules.placed m.returns (some resume) begun
    exact rules.edits moved (Machine.edits_callPrimitive name n p _)
  | @behavior cell v at_ gives resume =>
    have moved : inv (m.moved resume) := rules.placed m.returns (some resume) begun
    have inside : cell ∈ m.code := Machine.mem_of_current? at_
    rcases Machine.bindBehavior_cases v (m.moved resume) with
      ⟨-, ends⟩ | ⟨entry, s, last, books, ends⟩
    · rw [ends]
      exact moved
    · rw [ends]
      have bound := rules.bound moved inside gives last
      exact rules.edits bound (Machine.edits_data books)

variable {call : Caller} (obeys : (ofInvariant inv).Obeys P call)

include obeys

theorem leads (base : Nat) (begun : inv m) :
    (m.turn base).Leads call inv fun o => inv o.machine := by
  have kept := rules.leaves begun (m.leaves_turn base)
  cases turned : m.turn base with
  | next after =>
    rw [turned] at kept
    exact kept
  | halt after =>
    rw [turned] at kept
    exact kept
  | fault f after =>
    rw [turned] at kept
    exact kept
  | enter name n after =>
    have kept : inv after := by
      rw [turned] at kept
      exact kept
    obtain ⟨entry, immediate, resume, -, known, -, rfl⟩ := Machine.native_of_enter turned
    have allowed : ∀ f, n.action = .host f → P f := fun f kind =>
      rules.hosts begun known rfl kind
    have held := holds_ofInvariant.mp (rules.kept.holds_callNative obeys name kept allowed)
    refine ⟨kept, fun ended ends => ?_, fun f ended ends => ?_⟩
    · rw [ends] at held
      exact held
    · rw [ends] at held
      exact held

theorem executeAddress (address : Value) (begun : inv m) :
    inv (m.executeAddress call address).machine := by
  have start : inv m.discardStale := by
    obtain ⟨s, books, stale⟩ := m.discardStale_cases
    rw [stale]
    exact rules.placed _ m.ip (rules.edits begun (Machine.edits_data books))
  rcases Machine.executeAddress_cases call address m with ⟨f, -, ends⟩ | ⟨place, -, ends⟩
  · rw [ends]
    exact start
  · have ran := Machine.loop_of_turns
      (fun _ kept => rules.leads obeys m.discardStale.returns.depth kept) Machine.maxEntries
      { m.discardStale with ip := place } (rules.placed m.discardStale.returns place start)
    rw [ends]
    generalize Machine.loop call m.discardStale.returns.depth Machine.maxEntries
      { m.discardStale with ip := place } = o at ran
    cases o with
    | done _ after => exact rules.placed after.returns m.ip ran
    | failed f after => exact rules.placed after.returns m.ip ran

omit obeys in
theorem abort (begun : inv m) : inv m.abort :=
  rules.edits (rules.placed .empty none begun) m.edits_abort

omit obeys in
theorem sustained : (ofInvariant inv).Sustained P where
  toKept := rules.kept
  enter obeys begun _ := holds_ofInvariant.mpr (rules.executeAddress obeys _ begun)
  raises _ _ := trivial
  invade {call f action m} obeys _ _ invasive begun := by
    refine holds_ofInvariant.mpr ?_
    cases action with
    | executeAddress address => exact rules.executeAddress obeys address begun
    | dropReturn =>
      simp only [Host.Action.perform]
      split
      · next rest _ => exact rules.placed rest m.ip begun
      · exact begun
    | abort => exact rules.abort begun
    | handle => exact begun
    | _ => cases invasive
  handle _ _ _ _ := trivial

end Placeless

/-- The invariant holds throughout the sessions of a scope, if words can be registered and
compiling is not switched and no cell is handed in. -/
theorem Placeless.spanning {scope : Session.Scope} (rules : Placeless inv scope.callables)
    (register : ∀ {m : Machine} {name : String} {immediate : Bool} {n : Native}, inv m →
      (∀ f, n.action = .host f → scope.callables f) →
      inv { m with dictionary := m.dictionary.push ⟨name, immediate, .native n⟩ })
    (no_switches : ¬ scope.switches) (no_cells : ¬ scope.cells) :
    (ofInvariant inv).Spanning scope where
  toSustained := rules.sustained
  register begun _ _ host := register begun host
  stop begun := rules.abort begun
  jump _ begun := by
    have obeys := rules.sustained.obeys_caller
    exact ⟨rules.executeAddress obeys _ begun, fun _ _ _ => trivial⟩
  switch allowed := absurd allowed no_switches
  insert allowed := absurd allowed no_cells

end Contract
end ThreadedForth
