import ThreadedForth.Proofs.Accounts
import ThreadedForth.Proofs.Leftovers

/-!
# What a failing source text leaves open

A token that fails takes the open definition with it.  The handler that does this stands around
the token, and a source text is read as a whole before the first of its tokens is fed.  So a text
that cannot be read fails outside the handler.  Nothing has been fed by then, and a definition
that an earlier text has opened stays open.

Only a text that ends after the colon of a definition cannot be read; there is nothing else that
the reader complains of (`Token.tokenize_eq_error`).

For all other texts two things are to be shown.  That the machine does not compile afterwards is
a matter of the handler.  That no definition is left open is not, because the handler drops the
definition only when the machine compiles.  It is enough that no definition is open while the
machine does not compile (`Machine.Attached`), and this is kept by everything but a switch of
the mode from outside.

* `Machine.Attached.execute`: it is kept while a source text is fed, whatever the text does;
* `Session.atRest_of_failed`: what is left when a source text fails, at every moment of every
  session;
* `Session.execute_left_open`: a text that cannot be read, fed to an open definition.
-/

namespace ThreadedForth

/-! ## Texts that cannot be read -/

namespace Token

theorem ofLexemes_eq_error {naming : Bool} {lexemes : List Lexeme} {f : Fault}
    (unread : ofLexemes naming lexemes = .error f) : f = .nameMissing := by
  have later : ∀ {rest : Except Fault (List Token)} {next : List Token → List Token},
      (rest >>= fun tokens => .ok (next tokens)) = .error f → rest = .error f := by
    intro rest next failed
    cases rest with
    | ok tokens => cases failed
    | error g => exact failed
  fun_induction ofLexemes naming lexemes with
  | case1 =>
    cases unread
    rfl
  | case2 => cases unread
  | case3 lexeme rest ih => exact ih (later unread)
  | case4 rest content ih => exact ih (later unread)
  | case5 rest ih => exact ih unread
  | case6 rest content other ih => exact ih (later unread)

/-- The only thing that a source text can lack is a name. -/
theorem tokenize_eq_error {source : String} {f : Fault}
    (unread : tokenize source = .error f) : f = .nameMissing :=
  ofLexemes_eq_error unread

end Token

/-! ## Open definitions -/

namespace Machine

/-- A definition is open only while the machine is compiling. -/
def Attached (m : Machine) : Prop := m.draft ≠ none → m.compiling = true

/-- Nothing is being compiled. -/
structure AtRest (m : Machine) : Prop where
  compiling : m.compiling = false
  draft : m.draft = none

variable {m after : Machine}

theorem Attached.atRest (attached : m.Attached) (idle : m.compiling = false) : m.AtRest := by
  refine ⟨idle, ?_⟩
  by_contra open_
  rw [attached open_] at idle
  cases idle

theorem Attached.congr (attached : m.Attached) (compiling : after.compiling = m.compiling)
    (draft : after.draft = m.draft) : after.Attached := by
  unfold Attached
  rw [compiling, draft]
  exact attached

theorem Attached.of_same (attached : m.Attached) (same : m.SameAccounts after) :
    after.Attached := by
  intro open_
  rw [same.compiling]
  refine attached fun none_ => open_ ?_
  have draft := same.draft
  rw [none_] at draft
  exact Option.map_eq_none_iff.mp draft

theorem Edit.attached (changed : Edit m after) (attached : m.Attached) : after.Attached := by
  cases changed with
  | data same => exact attached.congr same.compiling same.draft
  | openDraft => exact fun _ => rfl
  | markDraft open_ => exact fun _ => attached (by rw [open_]; nofun)
  | markEntry | create | append | join | does => exact attached.congr rfl rfl
  | dropDraft | finish | close => exact fun open_ => absurd rfl open_

theorem Edits.attached (changed : Edits m after) (attached : m.Attached) : after.Attached := by
  induction changed with
  | refl => exact attached
  | tail _ last ih => exact last.attached ih

theorem Leaves.attached (left : m.Leaves after) (attached : m.Attached) : after.Attached := by
  have moved : ∀ resume, (m.moved resume).Attached := fun _ => attached.congr rfl rfl
  cases left with
  | place | pushed => exact attached.congr rfl rfl
  | @primitive _ name _ n p _ _ _ resume =>
    exact (edits_callPrimitive name n p (m.moved resume)).attached (moved resume)
  | behavior _ _ resume => exact (moved resume).of_same (sameAccounts_bindBehavior _)

end Machine

namespace Session

open Machine

theorem tracks_attached : Tracks (fun _ m => m.Attached) unswitched where
  begins _ _ attached := attached
  native own attached := (edits_callNative _ own).attached attached
  turn _ base _ attached := (leaves_turn base _).attached attached
  aside {_ m after} changed attached := by
    cases changed with
    | note level channel text => exact (edits_note level channel text m).attached attached
    | abandon => exact m.edits_abandon.attached attached
    | _ => exact attached.congr rfl rfl
  enter _ _ attached := attached.congr rfl rfl
  leave _ attached := attached.congr rfl rfl
  switch switches _ := switches.elim
  insert _ attached := attached.congr rfl rfl

end Session

namespace Machine

variable {m after : Machine} {depth : Nat} {source : String} {f : Fault}

theorem Attached.execute (attached : m.Attached) (depth : Nat) (source : String) :
    (m.execute (Host.callHost depth) source).machine.Attached := by
  have course : Course (fun _ m => m.Attached) [] _
      (m.execute (Host.callHost depth) source).machine :=
    Session.tracks_attached.course_source (Session.tracks_attached.told_callable depth) source
      attached
  exact course.last

/-- A text that cannot be read changes nothing. -/
theorem execute_unread {call : Caller} (unread : Token.tokenize source = .error .nameMissing)
    (failed : m.execute call source = .failed f after) : after = m := by
  unfold execute at failed
  rw [unread] at failed
  cases failed
  rfl

/-- When a text that can be read has failed, nothing is being compiled. -/
theorem compiling_of_execute_failed {call : Caller}
    (read : Token.tokenize source ≠ .error .nameMissing)
    (failed : m.execute call source = .failed f after) (fault : f.isInterrupt = false) :
    after.compiling = false := by
  unfold execute at failed
  split at failed
  · exact compiling_of_run_failed failed fault
  · next g unread =>
    rw [Token.tokenize_eq_error unread] at unread
    exact absurd unread read

end Machine

namespace Session

open Machine

/-- When a source text fails, the open definition is given up if and only if the text can be
read.  A text that cannot be read changes nothing, so that a definition that was open stays open.
After any other text the machine is not compiling, and no definition is open, unless one was open
before while the machine was not compiling.  This does not come about by itself: it takes a
switch of the mode from outside. -/
theorem atRest_of_failed (capacity : Int) (withPrelude verbose : Bool)
    (session : List Operation) (i depth : Nat) (source : String) {f : Fault} {after : Machine}
    (failed : (stateAt capacity withPrelude verbose session i).execute (Host.callHost depth)
      source = .failed f after)
    (fault : f.isInterrupt = false) :
    let m := stateAt capacity withPrelude verbose session i
    (Token.tokenize source = .error .nameMissing → after = m) ∧
      (Token.tokenize source ≠ .error .nameMissing → after.compiling = false) ∧
      (m.Attached → (after.AtRest ↔
        ¬ (Token.tokenize source = .error .nameMissing ∧ m.compiling = true))) ∧
      ((∀ operation ∈ session, operation.Within unswitched) → m.Attached) := by
  intro m
  refine ⟨fun unread => execute_unread unread failed,
    fun read => compiling_of_execute_failed read failed fault,
    fun attached => ⟨?_, fun good => ?_⟩, fun within => ?_⟩
  · rintro ⟨idle, -⟩ ⟨unread, compiling⟩
    rw [execute_unread unread failed] at idle
    exact Bool.noConfusion (compiling.symm.trans idle)
  · have kept : after.Attached := by
      have kept := attached.execute depth source
      rwa [failed] at kept
    refine kept.atRest ?_
    -- a text that cannot be read is fed to nobody, so here the mode is that of before
    by_cases unread : Token.tokenize source = .error .nameMissing
    · rw [execute_unread unread failed]
      exact Bool.eq_false_iff.mpr fun compiling => good ⟨unread, compiling⟩
    · exact compiling_of_execute_failed unread failed fault
  · exact tracks_attached.history capacity withPrelude verbose within
      (fun open_ => absurd rfl open_) i

/-- A session that ends in the middle of a definition. -/
def openEnded : List Operation := [.execute ": half 2"]

/-- The machine after that session. -/
def halved : Machine :=
  { Machine.fresh 8 false false with
    compiling := true
    draft := some ⟨"half", 0, false, by decide⟩
    code := #[.literal [.int 2]] }

theorem stateAt_openEnded : stateAt 8 false false openEnded 9 = halved := by decide +kernel

theorem tokenize_nowhere : Token.tokenize "nowhere" = .ok [.word "nowhere"] := by decide +kernel

theorem execute_nowhere (call : Caller) : halved.execute call "nowhere" =
    .failed (.undefinedWord "nowhere") halved.abandonIfCompiling := by
  rw [Machine.execute, tokenize_nowhere]
  rfl

/-- An unknown word takes the definition with it. -/
theorem atRest_of_failed_openEnded :
    Fault.isInterrupt (.undefinedWord "nowhere") = false ∧
      (∀ operation ∈ openEnded, operation.Within unswitched) ∧
      ∃ after, (stateAt 8 false false openEnded 9).execute (Host.callHost 0) "nowhere" =
        .failed (.undefinedWord "nowhere") after ∧ after.AtRest := by
  have within : ∀ operation ∈ openEnded, operation.Within unswitched := by
    simp [openEnded, Operation.Within]
  have failed : (stateAt 8 false false openEnded 9).execute (Host.callHost 0) "nowhere" =
      .failed (.undefinedWord "nowhere") halved.abandonIfCompiling := by
    rw [stateAt_openEnded]
    exact execute_nowhere _
  obtain ⟨-, -, abandons, attached⟩ :=
    atRest_of_failed 8 false false openEnded 9 0 "nowhere" failed rfl
  have read : Token.tokenize "nowhere" ≠ .error .nameMissing := by
    rw [tokenize_nowhere]
    intro unread
    cases unread
  exact ⟨rfl, within, _, failed, (abandons (attached within)).mpr fun both => read both.1⟩

/-- A text that cannot be read fails in the middle of a definition, and leaves it open. -/
theorem execute_left_open :
    (stateAt 8 false false openEnded 9).execute Host.caller "1 :" = .failed .nameMissing halved ∧
      Fault.isInterrupt .nameMissing = false ∧ ¬ halved.AtRest ∧
      halved.compiling = true ∧ halved.draft = some ⟨"half", 0, false, by decide⟩ := by
  have failed : halved.execute Host.caller "1 :" = .failed .nameMissing halved := by
    have unread : Token.tokenize "1 :" = .error .nameMissing := by decide +kernel
    rw [Machine.execute, unread]
  rw [stateAt_openEnded]
  exact ⟨failed, rfl, fun atRest => absurd atRest.compiling (by decide), rfl, rfl⟩

end Session
end ThreadedForth
