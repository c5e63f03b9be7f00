import ThreadedForth.Proofs.Turn

/-!
# Every run ends

A run needs no bound on its length.  Its code may call itself, may go on where a definition
was given up, and may hold cells that spell no instruction; a word may get another behavior
while it runs.  As long as no native cell names a host callable or a directive, the run
comes to an exit or to a fault all by itself.

The measure is the weight of the machine: every turn after which the run goes on makes it
smaller, whatever the code holds (`weight_lt_of_turn_next`).  So it is enough that a run
never leaves its own hands.  It would do that only at a native cell whose word is no
primitive, and a machine that has no such cell (`Machine.Hostless`) does not get one: no
turn changes the code, and the only words that a turn can add are created ones
(`Machine.Leaves.native`).

`Machine.loop_ends` puts the two together: the run is over after no more turns than the
weight that it begins with.
-/

namespace ThreadedForth

/-! ## Turns add no native words -/

namespace Dictionary

/-- The native words of the second dictionary are those of the first one. -/
def AddsNoNative (d e : Dictionary) : Prop :=
  ∀ entry name immediate n, e.get? entry = some ⟨name, immediate, .native n⟩ →
    ∃ marked, d.get? entry = some ⟨name, marked, .native n⟩

theorem AddsNoNative.of_eq {d e : Dictionary} (same : e = d) : AddsNoNative d e := by
  subst same
  exact fun _ _ immediate _ known => ⟨immediate, known⟩

theorem AddsNoNative.trans {d e f : Dictionary} (first : AddsNoNative d e)
    (second : AddsNoNative e f) : AddsNoNative d f := by
  intro entry name immediate n known
  obtain ⟨marked, known'⟩ := second entry name immediate n known
  exact first entry name marked n known'

/-- A word that is not native can be added. -/
theorem addsNoNative_push {d : Dictionary} {w : Word} (other : ∀ n, w.body ≠ .native n) :
    AddsNoNative d (d.push w) := by
  intro entry name immediate n known
  rcases get?_push known with old | ⟨-, rfl⟩
  · exact ⟨immediate, old⟩
  · exact absurd rfl (other n)

theorem addsNoNative_markImmediate (d : Dictionary) (target : Nat) :
    AddsNoNative d (d.markImmediate target) := by
  intro entry name immediate n known
  rw [get?_markImmediate] at known
  split at known
  · obtain ⟨⟨name', marked, body⟩, old, same⟩ := Option.map_eq_some_iff.mp known
    cases same
    exact ⟨marked, old⟩
  · exact ⟨immediate, known⟩

theorem addsNoNative_setBehavior (d : Dictionary) (target : Nat) (behavior : Value) :
    AddsNoNative d (d.setBehavior target behavior) := by
  intro entry name immediate n known
  rw [get?_setBehavior] at known
  split at known
  · obtain ⟨⟨name', marked, body⟩, old, same⟩ := Option.map_eq_some_iff.mp known
    cases body with
    | created slot given => cases same
    | native n' =>
      cases same
      exact ⟨_, old⟩
    | colon address => cases same
  · exact ⟨immediate, known⟩

end Dictionary

namespace Machine

open Dictionary (AddsNoNative)

variable {m after : Machine} {base : Nat}

theorem Edit.addsNoNative (changed : Edit m after) :
    AddsNoNative m.dictionary after.dictionary := by
  cases changed with
  | data same => exact .of_eq same.dictionary
  | markEntry last => exact Dictionary.addsNoNative_markImmediate _ _
  | create valid => exact Dictionary.addsNoNative_push nofun
  | finish compiling open_ => exact Dictionary.addsNoNative_push nofun
  | _ => exact .of_eq rfl

theorem Edits.addsNoNative (changed : Edits m after) :
    AddsNoNative m.dictionary after.dictionary := by
  induction changed with
  | refl => exact .of_eq rfl
  | tail _ last ih => exact ih.trans last.addsNoNative

theorem addsNoNative_bindBehavior (behavior : Value) (m : Machine) :
    AddsNoNative m.dictionary (m.bindBehavior behavior).machine.dictionary := by
  rcases bindBehavior_cases behavior m with ⟨-, ends⟩ | ⟨entry, s, -, books, ends⟩
  · rw [ends]
    exact .of_eq rfl
  · rw [ends]
    have bound := Dictionary.addsNoNative_setBehavior m.dictionary entry behavior
    exact bound.trans (.of_eq books.dictionary)

/-- A turn leaves the code as it is, and adds no native word. -/
theorem Leaves.native (left : m.Leaves after) :
    after.code = m.code ∧ AddsNoNative m.dictionary after.dictionary := by
  cases left with
  | place returns ip => exact ⟨rfl, .of_eq rfl⟩
  | pushed at_ pushes returns ip => exact ⟨rfl, .of_eq rfl⟩
  | @primitive entry name immediate n p at_ known kind resume =>
    have frame := frame_callWith name n p (m.moved resume)
    exact ⟨congrArg Frame.code frame, (edits_callPrimitive name n p _).addsNoNative⟩
  | @behavior cell v at_ gives resume =>
    have frame := frame_bindBehavior v (m.moved resume)
    exact ⟨congrArg Frame.code frame, addsNoNative_bindBehavior v (m.moved resume)⟩

/-! ## The run -/

/-- The native cells of the code name primitives. -/
def Hostless (m : Machine) : Prop :=
  ∀ entry name immediate n, .native entry ∈ m.code →
    m.dictionary.get? entry = some ⟨name, immediate, .native n⟩ → ∃ p, n.action = .primitive p

/-- A run that goes on still has no cell at which it could be handed over. -/
theorem Hostless.next (hostless : m.Hostless) (turned : m.turn base = .next after) :
    after.Hostless := by
  have left := leaves_turn base m
  rw [turned] at left
  obtain ⟨code, adds⟩ := left.native
  intro entry name immediate n inside known
  obtain ⟨marked, before⟩ := adds entry name immediate n known
  exact hostless entry name marked n (code ▸ inside) before

theorem Hostless.turn_ne_enter (hostless : m.Hostless) {name : String} {n : Native} :
    m.turn base ≠ .enter name n after := by
  intro turned
  obtain ⟨entry, immediate, resume, at_, known, other, -⟩ := native_of_enter turned
  obtain ⟨p, kind⟩ := hostless entry name immediate n (mem_of_current? at_) known
  exact other p kind

/-- The turns come to an end within the weight of the machine. -/
theorem Hostless.turns_end (base : Nat) (hostless : m.Hostless) :
    ∃ count ≤ m.weight, ∃ after,
      turns base count m = .halt after ∨ ∃ f, turns base count m = .fault f after := by
  -- the weight goes down with every turn that goes on
  induction weight : m.weight using Nat.strongRecOn generalizing m with
  | _ bound ih =>
    subst weight
    cases turned : m.turn base with
    | halt after => exact ⟨0, Nat.zero_le _, after, .inl turned⟩
    | fault f after => exact ⟨0, Nat.zero_le _, after, .inr ⟨f, turned⟩⟩
    | enter name n after => exact absurd turned hostless.turn_ne_enter
    | next middle =>
      have lighter := weight_lt_of_turn_next turned
      obtain ⟨count, few, after, ends⟩ := ih middle.weight lighter (hostless.next turned) rfl
      have one_more : turns base (count + 1) m = turns base count middle := by
        rw [turns, turned]
      refine ⟨count + 1, by omega, after, ?_⟩
      rw [one_more]
      exact ends

/-- Every run ends.  Whatever the code holds, if its native cells name primitives, then a run
from any address in any state is over after finitely many turns, no more than the weight of
the machine: it halts or it fails.  The loop ends in the same way, for any host and with any
credit. -/
theorem loop_ends (hostless : m.Hostless) (base : Nat) (address : Int) :
    ∃ count ≤ (m.moved address).weight, ∃ after,
      (turns base count (m.moved address) = .halt after ∧
        ∀ call credit, (m.moved address).loop call base credit = .done () after) ∨
      ∃ f, turns base count (m.moved address) = .fault f after ∧
        ∀ call credit, (m.moved address).loop call base credit = .failed f after := by
  have begun : (m.moved address).Hostless := hostless
  obtain ⟨count, few, after, halts | ⟨f, fails⟩⟩ := begun.turns_end base
  · refine ⟨count, few, after, .inl ⟨halts, fun call credit => ?_⟩⟩
    exact (loop_of_last_turn call count).1 halts
  · refine ⟨count, few, after, .inr ⟨f, fails, fun call credit => ?_⟩⟩
    exact (loop_of_last_turn call count).2 f fails

/-- A machine whose code calls itself, gives behaviors to words, and holds a row of values
that spells no instruction. -/
def spinning : Machine :=
  { bare 3 true with
    code := #[.native 18, .does 2, .literal [.text "again"], .call 0 "spin",
      .foreign [.text "call", .none]]
    stack := Stack.empty.push (.text "first") }

theorem loop_ends_spinning :
    spinning.Hostless ∧ ∃ count ≤ (spinning.moved (-5)).weight, ∃ after,
      (turns 0 count (spinning.moved (-5)) = .halt after ∧
        ∀ call credit, (spinning.moved (-5)).loop call 0 credit = .done () after) ∨
      ∃ f, turns 0 count (spinning.moved (-5)) = .fault f after ∧
        ∀ call credit, (spinning.moved (-5)).loop call 0 credit = .failed f after := by
  have hostless : spinning.Hostless := by
    intro entry name immediate n inside known
    have here : entry = 18 := by simpa [spinning] using inside
    subst here
    cases known
    exact ⟨.create, rfl⟩
  exact ⟨hostless, loop_ends hostless 0 (-5)⟩

end Machine
end ThreadedForth
