import ThreadedForth.Proofs.Balance

/-!
# Failing inside another run

A host callable may run code while the code that has called it waits.  When the inner run
fails, the place of execution is put back, but the return stack is left as it was where the run
broke off.  What the outer run has noted is still there, below; above it lie the return
addresses of the calls that the inner run has not come back from.  An outer run that goes on
finds these first.

So the return stack is back as it was only if the inner run has broken off outside all calls of
its own.  `Machine.Breaks` follows a run to the state in which it takes its last turn, and
`Machine.executeAddress_broken` says what is on the return stack in terms of that state.

* `Machine.ip_executeAddress`: the place of execution is put back by every run;
* `Machine.Breaks.keeps`: a run that breaks off leaves the return addresses that it has found,
  at the bottom of the return stack;
* `Machine.executeAddress_broken`: what a failed run leaves above them;
* `Host.runScript_handled`: a callable that handles the failure goes on with all that;
* `Session.reentry_littered`, `Session.reentry_handled`: a run that fails inside another one, and
  leaves a return address, also when the failure is handled.
-/

namespace ThreadedForth

namespace Machine

/-! ## Where a run breaks off -/

/-- A run with the base `base` that has come to the first state fails, with a turn that it takes
in the second one. -/
inductive Breaks (call : Caller) (base : Nat) (f : Fault) :
    (credit : Nat) → Machine → (last : Machine) → (after : Machine) → Prop where
  | turn {credit : Nat} {m after : Machine} (turned : m.turn base = .fault f after) :
      Breaks call base f credit m m after
  /-- The turn hands over to a native word, which fails. -/
  | native {credit : Nat} {m begun after : Machine} {name : String} {n : Native}
      (turned : m.turn base = .enter name n begun)
      (called : begun.callNative call name n = .failed f after) :
      Breaks call base f (credit + 1) m m after
  /-- There is no credit left for the native word. -/
  | spent {m begun : Machine} {name : String} {n : Native}
      (turned : m.turn base = .enter name n begun) (exhausted : f = .exhausted) :
      Breaks call base f 0 m m begun
  | next {credit : Nat} {m middle last after : Machine} (turned : m.turn base = .next middle)
      (later : Breaks call base f credit middle last after) : Breaks call base f credit m last after
  | entered {credit : Nat} {m begun ended last after : Machine} {name : String} {n : Native}
      (turned : m.turn base = .enter name n begun)
      (called : begun.callNative call name n = .done () ended)
      (later : Breaks call base f credit ended last after) :
      Breaks call base f (credit + 1) m last after

/-- Every run that fails breaks off somewhere. -/
theorem breaks_of_loop {call : Caller} {base credit : Nat} {f : Fault} {m after : Machine}
    (fails : m.loop call base credit = .failed f after) :
    ∃ last, Breaks call base f credit m last after := by
  fun_induction loop call base credit m with
  | case1 credit m middle turned ih =>
    obtain ⟨last, later⟩ := ih fails
    exact ⟨last, .next turned later⟩
  | case2 credit m ended turned => cases fails
  | case3 credit m g ended turned =>
    cases fails
    exact ⟨m, .turn turned⟩
  | case4 m name n begun turned =>
    cases fails
    exact ⟨m, .spent turned rfl⟩
  | case5 m name n begun turned credit ended called ih =>
    obtain ⟨last, later⟩ := ih fails
    exact ⟨last, .entered turned called later⟩
  | case6 m name n begun turned credit g ended called =>
    cases fails
    exact ⟨m, .native turned called⟩

/-- The place of execution is put back by every run. -/
theorem ip_executeAddress (call : Caller) (address : Value) (m : Machine) :
    (m.executeAddress call address).machine.ip = m.ip := by
  obtain ⟨notes, stale⟩ := m.discardStale_eq
  rcases executeAddress_cases call address m with ⟨f, -, ends⟩ | ⟨place, -, ends⟩
  · rw [ends, stale]
    rfl
  · rw [ends]
    cases loop call m.discardStale.returns.depth maxEntries { m.discardStale with ip := place }
    · rfl
    · rfl

/-- A turn of plain code that fails leaves the return stack alone. -/
theorem Plain.returns_of_fault {P : Host.Callable → Prop} {m after : Machine} {base : Nat}
    {f : Fault} (plain : m.Plain P) (h : m.turn base = .fault f after) :
    after.returns = m.returns := by
  have turned := plain.turned base
  rw [h] at turned
  generalize ends : Turn.fault f after = t at turned
  cases turned with
  | @primitive address _ name _ n p at_ fetched known kind =>
    have changed := edits_callPrimitive name n p (m.moved (address + 1))
    rw [Turn.failed_of_ofOutcome ends] at changed
    exact changed.samePoint.returns
  | @does address target at_ fetched =>
    have failed := Turn.failed_of_ofOutcome ends
    rcases bindBehavior_cases (.int target) (m.moved (address + 1)) with
      ⟨-, same⟩ | ⟨entry, s, -, -, same⟩
    · rw [same] at failed
      cases failed
      rfl
    · rw [same] at failed
      cases failed
  | lost | callFull | behaviorFull | under =>
    cases ends
    rfl
  | _ => cases ends

end Machine

/-! ## What a failed run leaves -/

namespace Machine

variable {capacity : Int} {P : Host.Callable → Prop} {call : Caller}

/-- A run that has begun with the return addresses `low` breaks off in a state in which they are
still there, and the turn that fails leaves what it has found.  It leaves more only if it calls
a native word. -/
theorem Breaks.keeps {low : Stack Int} {credit : Nat} {f : Fault} {m last after : Machine}
    (breaks : Breaks call low.depth f credit m last after)
    (obeys : (Contract.balanced capacity P).Obeys P call) (held : Balanced capacity P low m) :
    low.items <:+ last.returns.items ∧ last.returns.items <:+ after.returns.items ∧
      ∀ g broken, last.turn low.depth = .fault g broken → after.returns = last.returns := by
  induction breaks with
  | turn turned =>
    have same := held.inv.1.returns_of_fault turned
    rw [same]
    exact ⟨held.below, List.suffix_refl _, fun _ _ _ => rfl⟩
  | @native _ m begun after name n turned called =>
    obtain ⟨address, entry, immediate, rfl, known⟩ := held.inv.1.host_of_enter turned
    have inv : (Contract.balanced capacity P).inv (m.moved address) :=
      ⟨held.inv.1.congr rfl rfl, held.inv.2⟩
    have kept := (Contract.balanced_kept capacity P).holds_callNative obeys name inv
      (held.inv.1.entries entry _ known).2
    rw [called] at kept
    refine ⟨held.below, kept.2.1.2 (Option.some_ne_none _), fun g broken other => ?_⟩
    rw [turned] at other
    cases other
  | spent turned =>
    obtain ⟨address, -, -, rfl, -⟩ := held.inv.1.host_of_enter turned
    exact ⟨held.below, List.suffix_refl _, fun _ _ _ => rfl⟩
  | next turned later ih =>
    have leads := held.leads obeys
    rw [turned] at leads
    exact ih leads
  | entered turned called later ih =>
    have leads := held.leads obeys
    rw [turned] at leads
    exact ih (leads.2.1 _ called)

/-- Code that fails while other code is running puts the place of execution back.  On the
return stack it leaves what it has found, and above that the return addresses of the calls that
were open when it took its last turn, and above these whatever that turn has left, which is
nothing unless the turn was a call of a host callable.  So the return stack is back as it was
exactly if no call was open then and the turn has left nothing. -/
theorem executeAddress_broken (tame : ∀ f, P f → f.IsTame) {m : Machine} (plain : m.Plain P)
    (room : (m.returns.depth : Int) ≤ max m.capacity 0) (running : m.ip ≠ none) (depth : Nat)
    (target : Int) {f : Fault} {after : Machine}
    (fails : m.executeAddress (Host.callHost depth) (.int target) = .failed f after) :
    after.ip = m.ip ∧
      ∃ last ended,
        Breaks (Host.callHost depth) m.returns.depth f maxEntries (m.moved target) last ended ∧
        after = { ended with ip := m.ip } ∧
        m.returns.items <:+ last.returns.items ∧
        last.returns.items <:+ after.returns.items ∧
        (∀ g broken, last.turn m.returns.depth = .fault g broken → after.returns = last.returns) ∧
        (after.returns = m.returns ↔
          last.returns = m.returns ∧ after.returns = last.returns) := by
  have inv : (Contract.balanced m.capacity P).inv m := ⟨plain, rfl, room⟩
  have obeys := (Contract.balanced_sustained m.capacity tame).obeys_callHost depth
  obtain ⟨address, at_⟩ := Option.ne_none_iff_exists'.mp running
  have unfolded : m.executeAddress (Host.callHost depth) (.int target) =
      (loop (Host.callHost depth) m.returns.depth maxEntries (m.moved target)).adjust
        fun ended => { ended with ip := m.ip } := by
    unfold executeAddress
    rw [discardStale_of_running at_]
    rfl
  have begun := balanced_discardStale inv (some target)
  rw [discardStale_of_running at_] at begun
  cases ran : loop (Host.callHost depth) m.returns.depth maxEntries (m.moved target) with
  | done _ ended =>
    rw [unfolded, ran] at fails
    cases fails
  | failed g ended =>
    rw [unfolded, ran] at fails
    cases fails
    obtain ⟨last, breaks⟩ := breaks_of_loop ran
    obtain ⟨found, left, bare⟩ := breaks.keeps obeys begun
    refine ⟨rfl, last, ended, breaks, rfl, found, left, bare, fun back => ?_, ?_⟩
    · -- what lies between two equal stacks is equal to both
      have level := found.length_le
      have same : last.returns = m.returns := Stack.ext
        (found.eq_of_length (Nat.le_antisymm level (back ▸ left.length_le))).symm
      exact ⟨same, back.trans same.symm⟩
    · rintro ⟨same, nothing⟩
      exact nothing.trans same

end Machine

/-- A script that handles the failure of a run goes on with what the run has left, return
addresses included. -/
theorem Host.runScript_handled {call : Caller} {name : String} {f : Fault} {m after : Machine}
    (fails : m.executeWord call name = .failed f after) (real : f.isInterrupt = false)
    (rest : List Host.Action) :
    Host.runScript call (.executeWord name :: .handle :: rest) m =
      Host.runScript call rest after := by
  have handled : Host.Action.handle.handles f = true := by
    rw [Host.Action.handles, real]
    rfl
  simp only [Host.runScript, Host.resumeScript, Host.Action.perform, fails, handled, if_true]

namespace Session

open Machine

/-- A callable that runs a word by its name. -/
def runsMid : Host.Callable := ⟨.text "<host reenter>", .known [], [.executeWord "mid"], .nothing⟩

/-- A word that fails, one that calls it, and one that calls the callable that runs the
latter. -/
def reentrant : List Operation :=
  [.execute ": bad drop ; : mid bad ;",
    .defineNative (.text "reenter") (.callable runsMid) ⟨false, none, false⟩,
    .execute ": outer reenter ;"]

/-- The machine with these words. -/
def reentered : Machine :=
  { Machine.bare 1024 false with
    dictionary := ((((Machine.bare 1024 false).dictionary.push ⟨"bad", false, .colon 0⟩).push
      ⟨"mid", false, .colon 2⟩).push
      ⟨"reenter", false, .native ⟨.host runsMid, 0, false⟩⟩).push ⟨"outer", false, .colon 4⟩
    lastDefined := some 43
    code := #[.native 1, .exit, .call 0 "bad", .exit, .native 42, .exit]
    barrier := 4 }

theorem play_reentrant : play reentrant (fresh 1024 false false) = reentered := by decide +kernel

/-- The state in which the callable runs its word: the code of `outer` is running. -/
def waiting : Machine := { reentered with ip := some 5 }

theorem begins_waiting :
    Begins (reentrant ++ [.run [.word "outer"]]) (fresh 1024 false false) 999 (.code (.int 2))
      waiting := by
  have ready : (play reentrant (fresh 1024 false false)).marking
      ((Operation.run [.word "outer"]).copy
        (play reentrant (fresh 1024 false false)).slots.size) =
      .done (.run [.word "outer"]) reentered := by
    rw [play_reentrant]
    rfl
  have fed : Begins (reentrant ++ [.run [.word "outer"]]) (fresh 1024 false false)
      Host.maxDepth (.tokens [.word "outer"]) reentered := .operation rfl ready rfl
  have named : Begins (reentrant ++ [.run [.word "outer"]]) (fresh 1024 false false)
      Host.maxDepth (.entry 43) reentered :=
    .inner (.inner fed .firstToken) (.name rfl rfl rfl rfl)
  have run : Begins (reentrant ++ [.run [.word "outer"]]) (fresh 1024 false false)
      Host.maxDepth (.turns 0 maxEntries) { reentered with ip := some 4 } :=
    .inner (.inner named (.colon rfl)) (.run rfl)
  have entered : Begins (reentrant ++ [.run [.word "outer"]]) (fresh 1024 false false)
      Host.maxDepth (.callable runsMid []) waiting :=
    .inner (.inner run (.enter rfl)) (.host rfl (Nat.zero_le _))
  have scripted : Begins (reentrant ++ [.run [.word "outer"]]) (fresh 1024 false false)
      999 (.script [.executeWord "mid"]) waiting := .inner entered (.body rfl)
  have inner : Begins (reentrant ++ [.run [.word "outer"]]) (fresh 1024 false false)
      999 (.entry 41) waiting := .inner (.inner scripted .runWord) (.word rfl)
  exact .inner inner (.colon rfl)

/-- The state in which the run of `mid` takes its last turn. -/
def stuck : Machine := { reentered with returns := Stack.empty.push 3, ip := some 0 }

theorem executeAddress_waiting :
    waiting.executeAddress (Host.callHost 999) (.int 2) =
      .failed (.underflow 1 0 (some "drop")) { stuck with ip := some 5 } := by
  rw [← Fault.short_of_lt (Number.lt_decimalBound_of_le_two (Nat.le_succ 1))]
  refine executeAddress_of_fault (Host.callHost 999) 1 2 waiting (.short 1 0 (some "drop"))
    { stuck with ip := some 1 } ?_
  show Turn.fault (.short 1 0 (some "drop"))
    (if (Fault.short 1 0 (some "drop")).isInterrupt then _ else _) = _
  rw [Fault.isInterrupt_short]
  rfl

/-- The run of `mid` fails inside the run of `outer`.  The place of execution is put back, but
the return address of the call inside `mid` stays. -/
theorem reentry_littered :
    Begins (reentrant ++ [.run [.word "outer"]]) (fresh 1024 false false) 999 (.code (.int 2))
        waiting ∧
      waiting.ip = some 5 ∧ waiting.returns.items = [] ∧
      ∃ f after, waiting.executeAddress (Host.callHost 999) (.int 2) = .failed f after ∧
        after.ip = some 5 ∧ after.returns.items = [3] :=
  ⟨begins_waiting, rfl, rfl, _, _, executeAddress_waiting, rfl, rfl⟩

/-- A callable that handles the failure lets the run of `outer` go on with that return
address. -/
theorem reentry_handled :
    Host.runScript (Host.callHost 999) [.executeWord "mid", .handle] waiting =
        .done () { stuck with ip := some 5 } ∧
      waiting.returns.items = [] ∧ stuck.returns.items = [3] := by
  have meant : waiting.lookup "mid" = .ok 41 := rfl
  have fails : waiting.executeWord (Host.callHost 999) "mid" =
      .failed (.underflow 1 0 (some "drop")) { stuck with ip := some 5 } := by
    rw [Machine.executeWord, meant]
    exact executeAddress_waiting
  exact ⟨Host.runScript_handled fails rfl [], rfl, rfl⟩

theorem isTame_runsMid : ∀ f, f = runsMid → f.IsTame := by
  rintro f rfl
  unfold Host.Callable.IsTame
  decide

theorem plain_waiting : waiting.Plain (· = runsMid) := by
  have within : ∀ operation ∈ reentrant ++ [.run [.word "outer"]],
      operation.Within (registering (· = runsMid)) := by
    simp [reentrant, Operation.Within, registering, Scope.Allows]
  have inv : (Contract.balanced 1024 (· = runsMid)).inv (fresh 1024 false false) :=
    (Contract.balanced_spanning 1024 isTame_runsMid).inv_fresh
      (Contract.inv_balanced_bare 1024 false)
  exact (begins_waiting.balanced isTame_runsMid within inv).1.1

theorem executeAddress_broken_stuck :
    (∀ f, f = runsMid → f.IsTame) ∧ waiting.Plain (· = runsMid) ∧
      (waiting.returns.depth : Int) ≤ max waiting.capacity 0 ∧ waiting.ip ≠ none ∧
      waiting.executeAddress (Host.callHost 999) (.int 2) =
        .failed (.underflow 1 0 (some "drop")) { stuck with ip := some 5 } ∧
      ∃ last ended, Breaks (Host.callHost 999) 0 (.underflow 1 0 (some "drop")) maxEntries
          (waiting.moved 2) last ended ∧
        last.returns.items <:+ [3] ∧
        ¬ (last.returns = .empty ∧ Stack.empty.push 3 = last.returns) := by
  have running : waiting.ip ≠ none := Option.some_ne_none _
  obtain ⟨-, last, ended, breaks, -, -, left, -, back⟩ :=
    executeAddress_broken isTame_runsMid plain_waiting (by decide) running 999 2
      executeAddress_waiting
  exact ⟨isTame_runsMid, plain_waiting, by decide, running, executeAddress_waiting, last, ended,
    breaks, left, fun both => absurd (back.2 both) (by decide)⟩

end Session
end ThreadedForth
