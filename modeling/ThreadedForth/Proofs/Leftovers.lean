import ThreadedForth.Proofs.Companion.Running
import ThreadedForth.Proofs.Compilation

/-!
# What a failed run leaves behind

A run that fails leaves its return addresses where they are.  They stay there while literals
are pushed and native words are called, and they are in nobody's way: the next run of code
that is begun when nothing is running discards them before its first turn.  So it should never
matter what is on the return stack between two runs.

* `Machine.swept` forgets the return stack and what is noted when it is discarded;
* `Session.leftovers_ignored`: machines that differ in their return stacks only do the same
  with the same tokens, and differ in nothing else afterwards.  If any code is run meanwhile,
  they do not even differ in that.  So nothing that is run after a failure depends on whether
  the machine has been told to abort.
-/

namespace ThreadedForth

namespace Note

/-- Whether the note has nothing to do with return addresses that are discarded. -/
def lasts (note : Note) : Bool := note.channel ≠ .interpreter

end Note

namespace Machine

/-- The machine without return addresses, and without what has been noted about discarding
them. -/
def swept (m : Machine) : Machine :=
  { m with returns := .empty, journal := m.journal.filter Note.lasts }

/-- The machine without what `abort` drops: the return addresses, the journal, and a definition
that is open though the machine does not compile. -/
def dropped (m : Machine) : Machine :=
  { m with returns := .empty, journal := [], draft := if m.compiling then m.draft else none }

end Machine

namespace Kinship

/-- Machines that differ in their return stacks. -/
def leftovers : Kinship where
  notes old old' := old'.filter Note.lasts = old.filter Note.lasts
  loose := False
  apart := True
  room capacity capacity' := capacity' = capacity
  noted {note old old'} related := by
    rw [List.filter_cons, List.filter_cons, related]
  stale {note old old'} _ channel related := by
    have passing : ¬ note.lasts = true := by
      rw [Note.lasts, channel]
      decide
    rw [List.filter_cons_of_neg passing, List.filter_cons_of_neg passing]
    exact ⟨related, related⟩
  room_le same := Int.le_of_eq same.symm

/-- Machines one of which may have been told to abort. -/
def aborted : Kinship where
  notes _ _ := True
  loose := True
  apart := True
  room capacity capacity' := capacity' = capacity
  noted _ := trivial
  stale _ _ _ := ⟨trivial, trivial⟩
  room_le same := Int.le_of_eq same.symm

/-- With the same room on both machines no fault is excused. -/
theorem not_excuses {K : Kinship} (same : ∀ capacity capacity', K.room capacity capacity' →
    capacity' = capacity) (f : Fault) : ¬ K.Excuses f := by
  rintro ⟨capacity, capacity', -, room, less⟩
  rw [same capacity capacity' room] at less
  exact Int.lt_irrefl capacity less

end Kinship

namespace Machine

variable {m m' : Machine}

theorem Companion.swept_eq (companion : m.Companion .leftovers m') : m'.swept = m.swept := by
  obtain ⟨t, code, returns, ip, capacity⟩ := m'
  obtain ⟨store, rfl, rfl, -, rfl⟩ := companion
  cases store with
  | beside notes drafts =>
    rcases drafts with rfl | ⟨loose, -⟩
    · exact congrArg (fun notes => { m.swept with journal := notes }) notes
    · exact loose.elim

theorem Companion.dropped_eq (companion : m.Companion .aborted m') : m'.dropped = m.dropped := by
  obtain ⟨t, code, returns, ip, capacity⟩ := m'
  obtain ⟨store, rfl, rfl, -, rfl⟩ := companion
  cases store with
  | beside notes drafts =>
    rcases drafts with rfl | ⟨-, idle⟩
    · rfl
    · simp only [dropped, idle]
      rfl

/-- A machine that is not running is a companion of the same machine with other leftovers. -/
theorem companion_returns (idle : m.ip = none) (returns : Stack Int) :
    m.Companion .leftovers { m with returns := returns } :=
  ⟨.beside rfl (.inl rfl), rfl, rfl, .inr ⟨trivial, idle⟩, rfl⟩

/-- Aborting makes no difference that matters if nothing is running and nothing is being
compiled. -/
theorem companion_abort (idle : m.ip = none) (interpreting : m.compiling = false) :
    m.Companion .aborted m.abort := by
  obtain ⟨notes, aborted⟩ := m.abort_eq
  rw [aborted]
  refine ⟨?_, rfl, idle.symm, .inr ⟨trivial, idle⟩, rfl⟩
  simp only
  rw [← interpreting]
  exact .beside trivial (.inr ⟨trivial, interpreting⟩)

theorem compiling_abandonIfCompiling (m : Machine) : m.abandonIfCompiling.compiling = false := by
  unfold abandonIfCompiling
  split
  · rfl
  · next interpreting => exact Bool.eq_false_iff.mpr interpreting

/-- When tokens have failed nothing is being compiled. -/
theorem compiling_of_run_failed {call : Caller} {tokens : List Token} {f : Fault}
    {failed : Machine} (h : m.run call tokens = .failed f failed) (fault : f.isInterrupt = false) :
    failed.compiling = false := by
  induction tokens generalizing m with
  | nil => cases h
  | cons token rest ih =>
    rw [Machine.run, Machine.interpret] at h
    cases ends : m.interpretToken call token with
    | done _ after =>
      rw [ends] at h
      exact ih h
    | failed g after =>
      rw [ends] at h
      obtain ⟨rfl, rfl⟩ : g = f ∧ (if g.isInterrupt then after else after.abandonIfCompiling) =
          failed := by
        cases h
        exact ⟨rfl, rfl⟩
      rw [fault]
      exact after.compiling_abandonIfCompiling

end Machine

namespace Session

open Machine

/-- What is left on the return stack when nothing is running does not matter.  Machines that
differ in it end in the same way when they are fed the same tokens, and then differ in nothing
else; if a colon word or a behavior has been started meanwhile they do not differ at all.  So,
after tokens have failed, whatever is fed next ends in the same way whether or not the machine
has been told to abort.  An interrupt is no failure in this sense, since it leaves the open
definition open. -/
theorem leftovers_ignored (m : Machine) (returns : Stack Int) (tokens : List Token)
    (idle : m.ip = none) (unhosted : (Activity.tokens tokens).Unhosted Host.maxDepth m) :
    (run tokens { m with returns := returns }).adjust swept = (run tokens m).adjust swept ∧
      ((Activity.tokens tokens).RunsCode Host.maxDepth m →
        (run tokens { m with returns := returns }).machine.returns =
          (run tokens m).machine.returns) ∧
      ∀ f failed, run tokens m = .failed f failed → f.isInterrupt = false →
        ∀ later, (∀ operation ∈ later, operation.Feeds) → Unhosted later failed →
          (outcomes later failed.abort).map (·.adjust dropped) =
            (outcomes later failed).map (·.adjust dropped) := by
  have ran := (companion_returns idle returns).run unhosted.allows .itself
  have sound := Kinship.leftovers.not_excuses fun _ _ => id
  have ends := ran.machine sound
  refine ⟨?_, fun runs => ?_, fun f failed ended fault later feeds unhosted => ?_⟩
  · exact ran.adjust_eq sound fun a a' related => related.1.of_except.swept_eq
  · exact (ends.1.except_mono (q := True) fun _ => runs).returns_eq_of_except
  · have left : (run tokens m).machine = failed := congrArg Outcome.machine ended
    have still : failed.ip = none := by
      rw [← left]
      exact ends.2.trans idle
    have companion := companion_abort still (compiling_of_run_failed ended fault)
    have sound : ∀ f, ¬ Kinship.aborted.Excuses f := Kinship.not_excuses fun _ _ => id
    exact Outcome.Together.map_adjust_eq
      (together_outcomes companion feeds unhosted fun f _ _ => sound f)
      fun a a' related => related.dropped_eq

/-- A session that defines a word which does nothing but call itself. -/
def spinning : List Operation :=
  [.run [.batch [.text "spin"], .word "define", .word "spin", .word "return"]]

/-- The machine with that word. -/
def spinner : Machine :=
  { Machine.bare 1 false with
    dictionary := (Machine.bare 1 false).dictionary.push ⟨"spin", false, .colon 0⟩
    lastDefined := some 40
    code := #[.call 0 "spin", .exit] }

theorem play_spinning : play spinning (fresh 1 false false) = spinner := by decide +kernel

/-- The machine when the word has been run: it has failed for want of room. -/
def littered : Machine := { spinner with returns := Stack.empty.push 1 }

theorem run_littered : run [.word "spin"] littered = .failed (.returnOverflow 1) littered := by
  have found : littered.dictionary.find? "spin" = some 40 := by decide +kernel
  have known : littered.dictionary.get? 40 = some ⟨"spin", false, .colon 0⟩ := rfl
  have ended := executeAddress_of_fault Host.caller 1 (0 : Nat) littered (.full 1)
    { littered with ip := some 1 } rfl
  rw [Fault.full_of_lt (by decide +kernel)] at ended
  rw [run, Machine.run, Machine.interpret, interpretToken,
    interpretName_of_idle _ rfl found known, executeEntry_colon _ known, ended]
  rfl

theorem balanced_littered : (Contract.balanced 1 fun _ => False).inv littered := by
  have spanning := Contract.balanced_spanning (P := fun _ => False) 1 fun _ => False.elim
  have within : ∀ operation ∈ spinning, operation.Within (registering fun _ => False) := by
    simp [spinning, Operation.Within]
  have begun : (Contract.balanced 1 fun _ => False).inv (fresh 1 false false) :=
    spanning.inv_fresh (Contract.inv_balanced_bare 1 false)
  have inv := spanning.inv_play within begun
  rw [play_spinning] at inv
  exact ⟨inv.1.congr rfl rfl, rfl, by decide⟩

theorem leftovers_ignored_littered :
    littered.ip = none ∧ (Activity.tokens [.word "spin"]).Unhosted Host.maxDepth littered ∧
      (Activity.tokens [.word "spin"]).RunsCode Host.maxDepth littered ∧
      run [.word "spin"] littered = .failed (.returnOverflow 1) littered ∧
      (run [.word "spin"] { littered with returns := .empty }).adjust swept =
        .failed (.returnOverflow 1) littered.swept ∧
      (run [.word "spin"] { littered with returns := .empty }).machine.returns =
        littered.returns ∧
      Unhosted [.run [.word "spin"]] littered ∧
      (outcomes [.run [.word "spin"]] littered.abort).map (·.adjust dropped) =
        (outcomes [.run [.word "spin"]] littered).map (·.adjust dropped) := by
  have unhosted : (Activity.tokens [.word "spin"]).Unhosted Host.maxDepth littered :=
    Activity.unhosted_of_balanced balanced_littered trivial
  have found : littered.lookup "spin" = .ok 40 := by decide +kernel
  have runs : (Activity.tokens [.word "spin"]).RunsCode Host.maxDepth littered := by
    have named : (Activity.tokens [.word "spin"]).Involves Host.maxDepth littered _ (.entry 40) _ :=
      .inner (.inner .itself .firstToken) (.name rfl found rfl rfl)
    exact ⟨_, .int 0, _, .inner named (.colon rfl)⟩
  have again : Unhosted [.run [.word "spin"]] littered := fun depth f arguments m begun =>
    (begun.balanced (fun _ => False.elim) (by simp [Operation.Within]) balanced_littered).2
  obtain ⟨same, returns, aborted⟩ :=
    leftovers_ignored littered .empty [.word "spin"] rfl unhosted
  have later := aborted _ _ run_littered rfl _ (by simp [Operation.Feeds]) again
  rw [run_littered] at same
  refine ⟨rfl, unhosted, runs, run_littered, same, ?_, again, later⟩
  rw [returns runs, run_littered]
  rfl

end Session

end ThreadedForth
