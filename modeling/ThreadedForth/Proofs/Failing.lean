import ThreadedForth.Proofs.Accounts
import ThreadedForth.Proofs.Layout
import ThreadedForth.Proofs.Registry

/-!
# Native words that fail

A native word takes its arguments off the data stack before it does anything, and when it fails
they are put back.  For a word that is built in nothing more is needed.  A primitive or a
directive that fails has not changed anything yet, since all its checks come before its first
change (`Primitive.machine_of_failed`, `Directive.machine_of_failed`).  So the machine is as it
was, down to its notes (`Machine.callNative_unchanged`).

A host callable is another matter.  It works on the machine while its arguments are off the
stack, by pushing values and by running words, and what it has done by then is not undone.  The
arguments are put back on top of whatever it has left.  So the data stack is as it was only if
the callable has left of it what it found, which it does if it pushes and runs nothing.

* `Machine.stack_nativeFails`: what is on the data stack after any native word has failed;
* `Session.native_spilled`: a callable that leaves a value below its argument;
* `Session.builtin_atomic`: a built-in word that fails changes nothing, at every moment of every
  session and on every data stack.
-/

namespace ThreadedForth
namespace Machine

variable {call : Caller} {name : String} {n : Native} {f : Fault} {m after : Machine}

/-! ## Undoing a call -/

/-- The machine when the arguments of a native word have been taken off its data stack. -/
def lessArguments (n : Native) (m : Machine) : Machine :=
  { m with toStore := (m.toStore.take n.arity).2 }

/-- The arguments of a native word, the oldest first. -/
def arguments (n : Native) (m : Machine) : List Value := (m.toStore.take n.arity).1

theorem pushAll_lessArguments (n : Native) (m : Machine) :
    (m.lessArguments n).pushAll (m.arguments n) = m := by
  unfold pushAll lessArguments arguments
  rw [Store.pushAll_take]

/-- A call fails for want of arguments, or because the action of the word fails.  In the second
case the arguments are put back. -/
theorem callWith_failed {perform : List Value → Machine → Outcome Value}
    (fails : m.callWith name n perform = .failed f after) (real : f.isInterrupt = false) :
    m.stack.depth < n.arity ∧ after = m ∨
      n.arity ≤ m.stack.depth ∧ ∃ broken,
        perform (m.arguments n) (m.lessArguments n) = .failed f broken ∧
        after = broken.pushAll (m.arguments n) := by
  unfold callWith at fails
  split at fails
  · next short =>
    cases fails
    exact .inl ⟨short, rfl⟩
  · next enough =>
    refine .inr ⟨Nat.le_of_not_lt enough, ?_⟩
    have unfolded : ((perform (m.arguments n) (m.lessArguments n)).onFault
        (pushAll (m.arguments n))).bind (fun result ended => .done () (ended.pushResult n result)) =
          .failed f after := fails
    cases ends : perform (m.arguments n) (m.lessArguments n) with
    | done result ended =>
      rw [ends] at unfolded
      cases unfolded
    | failed g broken =>
      rw [ends] at unfolded
      simp only [Outcome.onFault, Outcome.bind_failed] at unfolded
      cases unfolded
      exact ⟨broken, rfl, by rw [real]; rfl⟩

/-- A native word that is no host callable changes nothing when it fails. -/
theorem callNative_unchanged (own : ∀ g, n.action ≠ .host g)
    (fails : m.callNative call name n = .failed f after) (real : f.isInterrupt = false) :
    after = m := by
  rcases callWith_failed fails real with ⟨-, same⟩ | ⟨-, broken, performed, same⟩
  · exact same
  · have idle : broken = m.lessArguments n := by
      cases kind : n.action with
      | primitive p =>
        rw [kind] at performed
        exact Primitive.machine_of_failed performed
      | directive d =>
        rw [kind] at performed
        exact Directive.machine_of_failed performed
      | host g => exact absurd kind (own g)
    rw [same, idle, pushAll_lessArguments]

/-! ## Calling from outside and from code -/

/-- A call of a native word fails.  The word is run by itself, or a run is at a cell of it: a
primitive is called in the course of the turn, and anything else is what the turn hands over
to. -/
inductive NativeFails (call : Caller) (name : String) (n : Native) (f : Fault) (m : Machine) :
    Machine → Prop where
  | word {entry : Nat} {immediate : Bool} {after : Machine}
      (known : m.dictionary.get? entry = some ⟨name, immediate, .native n⟩)
      (fails : m.executeEntry call entry = .failed f after) : NativeFails call name n f m after
  | cell {entry base : Nat} {immediate : Bool} {p : Primitive} {after : Machine}
      (at_ : m.current? = some (.native entry))
      (known : m.dictionary.get? entry = some ⟨name, immediate, .native n⟩)
      (kind : n.action = .primitive p) (fails : m.turn base = .fault f after) :
      NativeFails call name n f m after
  | handed {base : Nat} {begun after : Machine} (turned : m.turn base = .enter name n begun)
      (fails : begun.callNative call name n = .failed f after) : NativeFails call name n f m after

/-- Either way it is the call that fails, with the place of execution moved on. -/
theorem NativeFails.callNative (fails : m.NativeFails call name n f after) :
    ∃ ip, Machine.callNative call name n { m with ip := ip } = .failed f after := by
  cases fails with
  | word known fails =>
    rw [executeEntry_native call known] at fails
    exact ⟨m.ip, fails⟩
  | @cell entry base immediate p _ at_ known kind fails =>
    obtain ⟨resume, turned⟩ := turn_of_primitive base at_ known kind
    rw [turned] at fails
    refine ⟨some resume, ?_⟩
    unfold Machine.callNative
    rw [kind]
    exact Turn.failed_of_ofOutcome fails.symm
  | handed turned fails =>
    obtain ⟨entry, immediate, resume, -, -, -, rfl⟩ := native_of_enter turned
    exact ⟨some resume, fails⟩

end Machine

/-! ## Host callables -/

namespace Stack

variable {α : Type} {quiet : Prop} {s t u : Stack α}

theorem pushAll_inj (as : List α) : s.pushAll as = t.pushAll as ↔ s = t := by
  simp [Stack.ext_iff]

/-- The second stack is the first one with items put on top, and with none if all is quiet. -/
def Topped (quiet : Prop) (s t : Stack α) : Prop :=
  ∃ as, t = s.pushAll as ∧ (quiet → as = [])

theorem Topped.refl (quiet : Prop) (s : Stack α) : s.Topped quiet s :=
  ⟨[], by ext1; simp, fun _ => rfl⟩

theorem Topped.trans (first : s.Topped quiet t) (second : t.Topped quiet u) :
    s.Topped quiet u := by
  obtain ⟨as, rfl, none_⟩ := first
  obtain ⟨bs, rfl, none_'⟩ := second
  refine ⟨as ++ bs, by ext1; simp, fun silent => ?_⟩
  rw [none_ silent, none_' silent, List.append_nil]

theorem Topped.mono {quieter : Prop} (topped : s.Topped quiet t) (weaker : quieter → quiet) :
    s.Topped quieter t := by
  obtain ⟨as, same, none_⟩ := topped
  exact ⟨as, same, none_ ∘ weaker⟩

end Stack

namespace Host

/-- The operation runs no code and no words. -/
def Action.runsNothing : Action → Bool
  | .push _ | .dropReturn | .abort | .fail _ | .demand _ | .handle => true
  | .run _ | .execute _ | .executeWord _ | .executeAddress _ => false

/-- The operation pushes values. -/
def Action.isPush : Action → Bool
  | .push _ => true
  | _ => false

/-- No operation of the script pushes values. -/
def Quiet (script : List Action) : Prop := ∀ action ∈ script, action.isPush = false

/-- An operation that runs nothing can only push. -/
theorem Action.topped_perform (call : Caller) (m : Machine) {action : Action}
    (runless : action.runsNothing = true) :
    m.stack.Topped (action.isPush = false) (action.perform call m).machine.stack := by
  cases action with
  | push literals =>
    simp only [perform]
    rcases m.marking_cases (Value.copyAll m.slots.size literals) with
      ⟨own, next, ready⟩ | ⟨f, fails⟩
    · rw [ready]
      refine ⟨own, rfl, fun quiet => ?_⟩
      cases quiet
    · rw [fails]
      exact .refl _ _
  | dropReturn =>
    simp only [perform]
    split
    · exact .refl _ _
    · exact .refl _ _
  | abort =>
    obtain ⟨notes, stopped⟩ := m.abort_eq
    simp only [perform, stopped]
    exact .refl _ _
  | fail f => exact .refl _ _
  | demand text =>
    rcases demand_cases call text m with same | same
    · rw [same]
      exact .refl _ _
    · rw [same]
      exact .refl _ _
  | handle => exact .refl _ _
  | run | execute | executeWord | executeAddress => cases runless

/-- So can what is left of a script of such operations, whether it handles failures or not. -/
theorem topped_resumeScript (call : Caller) {script : List Action}
    (runless : ∀ action ∈ script, action.runsNothing = true) (o : Outcome Unit) :
    o.machine.stack.Topped (Quiet script) (resumeScript call script o).machine.stack := by
  have further : ∀ {action : Action} {rest : List Action}, Quiet (action :: rest) → Quiet rest :=
    fun quiet other inside => quiet other (List.mem_cons_of_mem _ inside)
  fun_induction resumeScript call script o with
  | case1 o => exact .refl _ _
  | case2 action rest m ih =>
    rw [List.forall_mem_cons] at runless
    have first : m.stack.Topped (Quiet (action :: rest)) (action.perform call m).machine.stack :=
      (action.topped_perform call m runless.1).mono fun quiet => quiet _ List.mem_cons_self
    exact first.trans ((ih runless.2).mono further)
  | case3 action rest f m ih =>
    rw [List.forall_mem_cons] at runless
    have others := ih runless.2
    rw [action.machine_handled f m] at others
    exact others.mono further

/-- So can a script of such operations. -/
theorem topped_runScript (call : Caller) {script : List Action}
    (runless : ∀ action ∈ script, action.runsNothing = true) (m : Machine) :
    m.stack.Topped (Quiet script) (runScript call script m).machine.stack :=
  topped_resumeScript call runless (.done () m)

/-- A callable that runs nothing can only push, too. -/
theorem topped_callHost (depth : Nat) {g : Callable} (arguments : List Value)
    (runless : ∀ action ∈ g.script, action.runsNothing = true) (m : Machine) :
    m.stack.Topped (Quiet g.script) (callHost depth g arguments m).machine.stack := by
  cases depth with
  | zero => exact .refl _ _
  | succ depth =>
    rw [callHost]
    split
    · exact .refl _ _
    · have ran := topped_runScript (callHost depth) runless m
      cases ends : runScript (callHost depth) g.script m with
      | failed f after =>
        rw [ends] at ran
        exact ran
      | done _ after =>
        rw [ends] at ran
        -- making the answer takes marks at most
        rcases after.marking_cases (g.answer.evaluate arguments after) with
          ⟨answer, next, made⟩ | ⟨f, fails⟩
        · rw [Outcome.bind_done, made]
          exact ran
        · rw [Outcome.bind_done, fails]
          exact ran

end Host

/-- What is on the data stack after a native word has failed, whether it was run by itself or by
code.  A word that is no host callable has changed nothing.  A host callable that was called has
had its arguments put back on top of what it had left by then, so that the data stack is as it
was exactly if the callable has left what was there without the arguments.  If it runs nothing
then it has left that with the values it has pushed, if any. -/
theorem Machine.stack_nativeFails (depth : Nat) {name : String} {n : Native} {f : Fault}
    {m after : Machine} (fails : m.NativeFails (Host.callHost depth) name n f after)
    (real : f.isInterrupt = false) :
    ((∀ g, n.action ≠ .host g) → ∃ ip, after = { m with ip := ip }) ∧
      ∀ g, n.action = .host g →
        m.stack.depth < n.arity ∧ after.stack = m.stack ∨
        n.arity ≤ m.stack.depth ∧ ∃ ip broken,
          Host.callHost depth g (m.arguments n) { m.lessArguments n with ip := ip } =
            .failed f broken ∧
          after.stack = broken.stack.pushAll (m.arguments n) ∧
          (after.stack = m.stack ↔ broken.stack = (m.lessArguments n).stack) ∧
          ((∀ action ∈ g.script, action.runsNothing = true) →
            (m.lessArguments n).stack.Topped (Host.Quiet g.script) broken.stack) := by
  obtain ⟨ip, called⟩ := fails.callNative
  refine ⟨fun own => ⟨ip, callNative_unchanged own called real⟩, fun g kind => ?_⟩
  rcases callWith_failed called real with ⟨short, same⟩ | ⟨enough, broken, performed, same⟩
  · exact .inl ⟨short, congrArg (·.stack) same⟩
  · rw [kind] at performed
    have stack : after.stack = broken.stack.pushAll (m.arguments n) := congrArg (·.stack) same
    have whole : (m.lessArguments n).stack.pushAll (m.arguments n) = m.stack :=
      congrArg (·.stack) (pushAll_lessArguments n m)
    refine .inr ⟨enough, ip, broken, performed, stack, ?_, fun runless => ?_⟩
    · rw [stack, ← Stack.pushAll_inj (m.arguments n) (t := (m.lessArguments n).stack), whole]
    · have left := Host.topped_callHost depth (m.arguments n) runless
        { m.lessArguments n with ip := ip }
      rw [show Host.callHost depth g (m.arguments n) { m.lessArguments n with ip := ip } =
        .failed f broken from performed] at left
      exact left

namespace Session

/-- A callable with one argument that pushes a value and fails. -/
def spill : Host.Callable :=
  ⟨.text "<host w>", .known [⟨"a", .positional, false⟩],
    [.push [.int 1], .fail (.raised "x")], .nothing⟩

/-- A session that registers the callable and pushes an argument for it. -/
def spilling : List Operation :=
  [.defineNative (.text "w") (.callable spill) ⟨false, none, false⟩, .push [.int 7]]

/-- The machine after the session. -/
def spilled : Machine :=
  { Machine.fresh 16 false false with
    stack := .pushAll [.int 7] .empty
    dictionary := (Machine.fresh 16 false false).dictionary.push
      ⟨"w", false, .native ⟨.host spill, 1, false⟩⟩ }

theorem play_spilling : play spilling (Machine.fresh 16 false false) = spilled := by
  decide +kernel

/-- The machine after a call of the word has failed. -/
def spilt : Machine := { spilled with stack := .pushAll [.int 1, .int 7] .empty }

theorem executeEntry_spilled :
    spilled.executeEntry Host.caller 40 = .failed (.raised "x") spilt := rfl

/-- The callable has left its value below the argument that is put back. -/
theorem stack_nativeFails_spilling :
    spilled.NativeFails Host.caller "w" ⟨.host spill, 1, false⟩ (.raised "x") spilt ∧
      ∃ values, values ≠ [] ∧ spilt.stack = (Stack.empty.pushAll values).pushAll [.int 7] := by
  have fails : spilled.NativeFails (Host.callHost Host.maxDepth) "w"
      ⟨.host spill, 1, false⟩ (.raised "x") spilt := by
    have known : spilled.dictionary.get? 40 =
        some ⟨"w", false, .native ⟨.host spill, 1, false⟩⟩ := by decide +kernel
    exact .word known executeEntry_spilled
  have runless : ∀ action ∈ spill.script, action.runsNothing = true := by decide
  refine ⟨fails, ?_⟩
  rcases (Machine.stack_nativeFails Host.maxDepth fails rfl).2 spill rfl with
    ⟨short, -⟩ | ⟨-, ip, broken, -, stack, same, topped⟩
  · exact absurd short (by decide)
  · obtain ⟨values, left, -⟩ := topped runless
    have rest : (spilled.lessArguments ⟨.host spill, 1, false⟩).stack = Stack.empty := rfl
    rw [rest] at left same
    refine ⟨values, fun none_ => ?_, by rw [stack, left]; rfl⟩
    have unchanged : spilt.stack = spilled.stack := same.mpr (by rw [left, none_]; rfl)
    exact absurd unchanged (by decide)

/-- A native word that fails can leave a value on the data stack that was not there. -/
theorem native_spilled :
    play spilling (Machine.fresh 16 false false) = spilled ∧
      spilled.stack.toList = [.int 7] ∧
      executeWord "w" spilled = .failed (.raised "x") spilt ∧
      (Fault.raised "x").isInterrupt = false ∧ spilt.stack.toList = [.int 1, .int 7] := by
  have meant : spilled.lookup "w" = .ok 40 := by rfl
  refine ⟨play_spilling, by decide, ?_, by decide, by decide⟩
  rw [executeWord, Machine.executeWord, meant]
  exact executeEntry_spilled

end Session

/-! ## Built-in words -/

namespace Builtin

/-- The word is native, and no host callable. -/
def IsOwn (w : Word) : Prop := ∃ n, w.body = .native n ∧ ∀ g, n.action ≠ .host g

@[simp] theorem isOwn_ofPrimitive (name : String) (p : Primitive) (pushesNone : Bool) :
    IsOwn (ofPrimitive name p pushesNone) :=
  ⟨_, rfl, nofun⟩

@[simp] theorem isOwn_ofDirective (name : String) (d : Directive) :
    IsOwn (ofDirective name d) :=
  ⟨_, rfl, nofun⟩

theorem isOwn_of_mem : ∀ w ∈ words, IsOwn w := by
  simp [words, stackWords, compilingWords, memoryWords, definingWords, valueWords, outputWords,
    plain, passing]

end Builtin

namespace Session

theorem tracks_extends (d : Dictionary) :
    Tracks (fun _ m => d.Extends m.dictionary) everything where
  begins _ _ grown := grown
  native own grown := grown.trans (Machine.edits_callNative _ own).registers.grown
  turn _ base _ grown := grown.trans (Machine.leaves_turn base _).registers.grown
  aside changed grown := grown.trans changed.registers.grown
  enter _ _ grown := grown
  leave _ grown := grown
  switch _ grown := grown
  insert _ grown := grown

/-- The built-in words keep their numbers, and they stay what they are but for the mark of being
immediate. -/
theorem exists_builtin (capacity : Int) (withPrelude verbose : Bool) (session : List Operation)
    (i : Nat) {entry : Nat} {w : Word} (builtin : Builtin.words[entry]? = some w) :
    ∃ immediate, (stateAt capacity withPrelude verbose session i).dictionary.get? entry =
      some { w with immediate := immediate } := by
  have grown := (tracks_extends (Machine.bare capacity verbose).dictionary).history capacity
    withPrelude verbose (fun operation (_ : operation ∈ session) => operation.within_everything)
    (.refl _) i
  have known : (Machine.bare capacity verbose).dictionary.get? entry = some w := by
    show Builtin.words.toArray[entry]? = some w
    rw [List.getElem?_toArray, builtin]
  obtain ⟨v, there, changed⟩ := grown entry w known
  obtain ⟨n, native, -⟩ := Builtin.isOwn_of_mem w (List.mem_of_getElem? builtin)
  have body : v.body = w.body := (changed.native native).trans native.symm
  refine ⟨v.immediate, there.trans (congrArg some ?_)⟩
  rw [← changed.name, ← body]

/-- A built-in word that fails changes nothing.  This holds at every moment of every session,
while compiling or not, whatever is on the data stack, and however the word is called: the
machine is the same down to its notes. -/
theorem builtin_atomic (capacity : Int) (withPrelude verbose : Bool) (session : List Operation)
    (i : Nat) (stack : Stack Value) (call : Caller) {entry : Nat} {w : Word}
    (builtin : Builtin.words[entry]? = some w) :
    let m : Machine := { stateAt capacity withPrelude verbose session i with stack := stack }
    (∃ immediate, m.dictionary.get? entry = some { w with immediate := immediate }) ∧
      (∀ f after, m.executeEntry call entry = .failed f after → f.isInterrupt = false →
        after = m) ∧
      ∀ name f after, m.lookup name = .ok entry → m.executeWord call name = .failed f after →
        f.isInterrupt = false → after = m := by
  intro m
  obtain ⟨immediate, known⟩ := exists_builtin capacity withPrelude verbose session i builtin
  have known : m.dictionary.get? entry = some { w with immediate := immediate } := known
  obtain ⟨n, native, own⟩ := Builtin.isOwn_of_mem w (List.mem_of_getElem? builtin)
  have atomic : ∀ f after, m.executeEntry call entry = .failed f after →
      f.isInterrupt = false → after = m := by
    intro f after fails real
    rw [native] at known
    rw [Machine.executeEntry_native call known] at fails
    exact Machine.callNative_unchanged own fails real
  refine ⟨⟨immediate, known⟩, atomic, fun name f after meant fails real => ?_⟩
  rw [Machine.executeWord, meant] at fails
  exact atomic f after fails real

/-- A session that leaves a definition open. -/
def opening : List Operation :=
  [.run [.batch [.text "half"], .word "define", .datum (.int 1)]]

theorem allBlank_half : Text.allBlank "half".toList = false := by decide

/-- The machine in the middle of the definition. -/
def half : Machine :=
  { Machine.fresh 16 false false with
    compiling := true
    draft := some ⟨"half", 0, false, allBlank_half⟩
    code := #[.literal [.int 1]] }

theorem play_opening : play opening (Machine.fresh 16 false false) = half := by decide +kernel

/-- In the middle of a definition no other one can be opened, and the name stays on the stack. -/
theorem builtin_atomic_define :
    let m : Machine := { half with stack := .pushAll [.int 7, .text "other"] .empty }
    play opening (Machine.fresh 16 false false) = half ∧
      Builtin.words[8]? = some (Builtin.plain "define" .define) ∧
      m.executeEntry Host.caller 8 = .failed (.nestedDefinition "other" "half") m := by
  let m : Machine := { half with stack := .pushAll [.int 7, .text "other"] .empty }
  have builtin : Builtin.words[8]? = some (Builtin.plain "define" .define) := rfl
  have ended : stateAt 16 false false opening (history 16 false false opening).length = half :=
    (stateAt_of_length_le (Nat.le_refl _)).trans play_opening
  have atomic := (builtin_atomic 16 false false opening (history 16 false false opening).length
    (.pushAll [.int 7, .text "other"] .empty) Host.caller builtin).2.1
  rw [ended] at atomic
  have fails : m.executeEntry Host.caller 8 =
      .failed (.nestedDefinition "other" "half") (m.executeEntry Host.caller 8).machine := by
    rfl
  have same := atomic _ _ fails rfl
  exact ⟨play_opening, builtin, fails.trans (congrArg (Outcome.failed _) same)⟩

end Session
end ThreadedForth
