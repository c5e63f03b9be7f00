import ThreadedForth.Proofs.Companion.Running
import ThreadedForth.Proofs.Constant

/-!
# Room for calls

Every machine has room for a number of calls, and a call for which there is no room fails.
Nothing else that a machine does depends on its room.  So, as long as no call fails for want of
room, a machine with more of it does the same.

The room is looked at in the middle of a turn, when a created word has left its cell on the
data stack already, and a session may go on after a fault.  That is why the machines are
compared operation by operation, the faults included, and not only at their ends.

* `Machine.companion_fresh`: a machine that is ready for use differs from one with more room in
  nothing else;
* `Session.outcomes_of_wider`: neither do they after any operation of a session, if no
  operation fails for want of room.
-/

namespace ThreadedForth

/-- Machines with different room for calls. -/
def Kinship.roomier {room room' : Int} (wider : room ≤ room') : Kinship where
  notes old old' := old' = old
  loose := False
  apart := False
  room capacity capacity' := capacity = room ∧ capacity' = room'
  noted same := congrArg _ same
  stale apart := apart.elim
  room_le := by
    rintro capacity capacity' ⟨rfl, rfl⟩
    exact wider

namespace Machine

/-- The machine with room for another number of calls. -/
def widened (room : Int) (m : Machine) : Machine := { m with capacity := room }

theorem Companion.eq_widened {room room' : Int} {wider : room ≤ room'} {m m' : Machine}
    (companion : m.Companion (.roomier wider) m') : m' = m.widened room' := by
  obtain ⟨t, code, returns, ip, capacity⟩ := m'
  obtain ⟨store, rfl, rfl, addresses, -, rfl⟩ := companion
  cases addresses.resolve_right fun both => both.1
  cases store with
  | beside notes drafts =>
    cases drafts.resolve_right fun both => both.1
    cases notes
    rfl

variable {room room' : Int}

theorem companion_fresh (wider : room ≤ room') (withPrelude verbose : Bool) :
    (fresh room withPrelude verbose).Companion (.roomier wider)
      (fresh room' withPrelude verbose) := by
  have begun : (bare room verbose).Companion (.roomier wider) (bare room' verbose) :=
    ⟨.beside rfl (.inl rfl), rfl, rfl, .inl rfl, rfl, rfl⟩
  -- the note that is made at the end names only what the machines have in common
  have noted : ∀ m other : Machine, m.Companion (.roomier wider) other →
      (m.note .debug .repl
        s!"VM ready: {m.dictionary.nameCount} words, {m.code.size} cells").Companion
          (.roomier wider) (other.note .debug .repl
            s!"VM ready: {other.dictionary.nameCount} words, {other.code.size} cells") := by
    intro m other companion
    have dictionary : other.dictionary = m.dictionary :=
      companion.reads (fun m => m.dictionary) fun _ _ _ _ => rfl
    rw [dictionary, companion.code]
    exact companion.note ..
  cases withPrelude with
  | false => exact noted _ _ begun
  | true =>
    obtain ⟨after, loaded, -⟩ := loads_prelude room verbose
    have unhosted : (Activity.source Builtin.prelude).Unhosted Host.maxDepth (bare room verbose) :=
      Activity.unhosted_of_balanced (Contract.inv_balanced_bare room verbose) trivial
    have read := begun.execute unhosted.allows .itself
    have related : ((bare room verbose).execute Host.caller Builtin.prelude).machine.Companion
        (.roomier wider) ((bare room' verbose).execute Host.caller Builtin.prelude).machine := by
      change Outcome.Together _ _ ((bare room verbose).execute Host.caller Builtin.prelude)
        ((bare room' verbose).execute Host.caller Builtin.prelude) at read
      rw [loaded] at read ⊢
      generalize (bare room' verbose).execute Host.caller Builtin.prelude = o' at read
      cases read with
      | done related => exact related.1
    exact noted _ _ related

end Machine

namespace Session

open Machine

variable {room room' : Int}

/-- Defines two words, one of which calls the other. -/
def nestingWords : Operation :=
  .run [.batch [.text "inner"], .word "define", .word "return",
    .batch [.text "outer"], .word "define", .word "inner", .word "return"]

/-- A session in which a call is made, and an operation fails. -/
def nesting : List Operation := [nestingWords, .run [.word "outer"], .run [.word "nowhere"]]

/-- The machine with the two words, and room for one call. -/
def nested : Machine :=
  { Machine.bare 1 false with
    dictionary := ((Machine.bare 1 false).dictionary.push ⟨"inner", false, .colon 0⟩).push
      ⟨"outer", false, .colon 1⟩
    lastDefined := some 41
    barrier := 1
    code := #[.exit, .call 0 "inner", .exit] }

theorem run_nested : run [.word "outer"] nested = .done () nested := by
  have found : nested.dictionary.find? "outer" = some 41 := by decide +kernel
  have known : nested.dictionary.get? 41 = some ⟨"outer", false, .colon 1⟩ := rfl
  have ended := executeAddress_of_halt Host.caller 2 (1 : Nat) nested { nested with ip := none } rfl
  rw [run, Machine.run, Machine.interpret, interpretToken,
    interpretName_of_idle _ rfl found known, executeEntry_colon _ known, ended]
  rfl

theorem outcomes_nesting : outcomes nesting (fresh 1 false false) =
    [.done .itself nested, .done .itself nested, .failed (.undefinedWord "nowhere") nested] := by
  have defined : nestingWords.perform (fresh 1 false false) = .done .itself nested := rfl
  have called : (Operation.run [.word "outer"]).perform nested = .done .itself nested := by
    show Result.ofSelf (run [.word "outer"] nested) = _
    rw [run_nested]
    rfl
  have failed : (Operation.run [.word "nowhere"]).perform nested =
      .failed (.undefinedWord "nowhere") nested := rfl
  simp only [nesting, outcomes, defined, called, failed, Outcome.machine]

end Session

end ThreadedForth
