import ThreadedForth.Proofs.Chronicle

/-!
# The moments of a chronicle are beginnings

The chronicle of a session lists what goes on in it, and `Session.Begins` says what begins in
it.  Here it is shown that the chronicle lists nothing else.  So whatever holds of all that
begins in a session holds at all moments of its chronicle.

The proof goes along the functions that put the chronicle together.  Let some activities be
allowed, and let whatever an allowed activity starts be allowed too.  Then all moments in the
course of an allowed activity are allowed (`Allowed.activity`).

* `Session.begins_of_mem_chronicle`: every moment of a session begins in it;
* `Session.tidy_of_mem_history`: at every moment all values in the machine are known.
-/

namespace ThreadedForth

/-- Whatever an allowed activity starts is allowed. -/
def Passes (allows : Nat → Activity → Machine → Prop) : Prop :=
  ∀ {depth depth' : Nat} {activity inner : Activity} {m m' : Machine},
    allows depth activity m → activity.Starts depth m depth' inner m' → allows depth' inner m'

/-- The activities that begin at these moments are allowed. -/
def Allowed (allows : Nat → Activity → Machine → Prop) (moments : List Moment) : Prop :=
  ∀ x ∈ moments, allows x.depth x.activity x.machine

namespace Allowed

open Machine

variable {allows : Nat → Activity → Machine → Prop} {xs ys : List Moment} {x : Moment}
  {depth : Nat} {tell : Teller} {m : Machine}

theorem nil : Allowed allows [] := fun _ inside => absurd inside List.not_mem_nil

theorem cons (now : allows x.depth x.activity x.machine) (later : Allowed allows xs) :
    Allowed allows (x :: xs) :=
  List.forall_mem_cons.mpr ⟨now, later⟩

theorem append (first : Allowed allows xs) (second : Allowed allows ys) :
    Allowed allows (xs ++ ys) :=
  List.forall_mem_append.mpr ⟨first, second⟩

/-- What goes on after a success only. -/
theorem onward {α : Type} {o : Outcome α} {moments : α → Machine → List Moment}
    (after : ∀ a ended, o = .done a ended → Allowed allows (moments a ended)) :
    Allowed allows (o.onward moments) := by
  cases o with
  | done a ended => exact after a ended rfl
  | failed f ended => exact nil

/-- The moments of callables that are allowed are allowed. -/
def Told (allows : Nat → Activity → Machine → Prop) (depth : Nat) (tell : Teller) : Prop :=
  ∀ f arguments m, allows depth (.callable f arguments) m → Allowed allows (tell f arguments m)

variable (passes : Passes allows) (told : Told allows depth tell)

include passes told

/-! ## Running code -/

theorem native {name : String} {n : Native} (allowed : allows depth (.native name n) m) :
    Allowed allows (m.nativeMoments depth tell name n) := by
  refine cons allowed ?_
  cases kind : n.action with
  | primitive p => exact nil
  | directive d => exact nil
  | host f =>
    simp only
    split
    · exact nil
    · next enough => exact told _ _ _ (passes allowed (.host kind (Nat.le_of_not_lt enough)))

theorem turns (base credit : Nat) (allowed : allows depth (.turns base credit) m) :
    Allowed allows (m.turnsMoments depth tell base credit) := by
  fun_induction Machine.loop (Host.callHost depth) base credit m with
  | case1 credit m after turned ih =>
    rw [turnsMoments_of_next turned]
    exact cons allowed (ih (passes allowed (.turn turned)))
  | case2 credit m after turned =>
    rw [turnsMoments_of_halt turned]
    exact cons allowed nil
  | case3 credit m f after turned =>
    rw [turnsMoments_of_fault turned]
    exact cons allowed nil
  | case4 m name n after turned =>
    rw [turnsMoments_of_exhausted turned]
    exact cons allowed nil
  | case5 m name n after turned credit ended called ih =>
    have worked := native passes told (passes allowed (.enter turned))
    rw [turnsMoments_of_enter turned, called]
    exact cons allowed (worked.append (ih (passes allowed (.afterEntry turned called))))
  | case6 m name n after turned credit f ended called =>
    have worked := native passes told (passes allowed (.enter turned))
    rw [turnsMoments_of_enter turned, called]
    exact cons allowed (worked.append nil)

theorem code {address : Value} (allowed : allows depth (.code address) m) :
    Allowed allows (m.codeMoments depth tell address) := by
  refine cons allowed ?_
  cases located : m.discardStale.locate address with
  | error f => exact nil
  | ok place => exact turns passes told _ _ (passes allowed (.run located))

theorem entry {entry : Nat} (allowed : allows depth (.entry entry) m) :
    Allowed allows (m.entryMoments depth tell entry) := by
  refine cons allowed ?_
  cases known : m.dictionary.get? entry with
  | none => exact nil
  | some w =>
    obtain ⟨name, immediate, body⟩ := w
    cases body with
    | native n => exact native passes told (passes allowed (.native known))
    | colon address => exact code passes told (passes allowed (.colon known))
    | created slot behavior =>
      cases behavior with
      | none => exact nil
      | _ => exact code passes told (passes allowed (.behavior known nofun))

theorem word {name : String} (allowed : allows depth (.word name) m) :
    Allowed allows (m.wordMoments depth tell name) := by
  refine cons allowed ?_
  cases found : m.lookup name with
  | ok number => exact entry passes told (passes allowed (.word found))
  | error f => exact nil

/-! ## Feeding -/

theorem name {name : String} (allowed : allows depth (.token (.word name)) m) :
    Allowed allows (m.nameMoments depth tell name) := by
  unfold nameMoments
  cases own : m.ownAddress? name with
  | some address => exact nil
  | none =>
    cases found : m.lookup name with
    | error f => exact nil
    | ok number =>
      simp only
      cases known : m.dictionary.get? number with
      | none => exact nil
      | some w =>
        simp only
        split
        · exact nil
        · next runs =>
          have runs := Bool.eq_false_iff.mpr runs
          exact entry passes told (passes allowed (.name own found known runs))

theorem token {token : Token} (allowed : allows depth (.token token) m) :
    Allowed allows (m.tokenMoments depth tell token) := by
  refine cons allowed ?_
  cases token with
  | word text => exact name passes told allowed
  | datum v => exact nil
  | batch values => exact nil
  | malformed content => exact nil

theorem tokens {tokens : List Token} (allowed : allows depth (.tokens tokens) m) :
    Allowed allows (m.tokensMoments depth tell tokens) := by
  induction tokens generalizing m with
  | nil => exact cons allowed nil
  | cons first rest ih =>
    have fed := token passes told (passes allowed .firstToken)
    refine cons allowed (fed.append (onward fun _ after ends => ?_))
    exact ih (passes allowed (.afterToken ends))

theorem source {source : String} (allowed : allows depth (.source source) m) :
    Allowed allows (m.sourceMoments depth tell source) := by
  refine cons allowed ?_
  cases read : Token.tokenize source with
  | ok ts => exact tokens passes told (passes allowed (.read read))
  | error f => exact nil

/-! ## Host callables and the console -/

theorem action {action : Host.Action} {rest : List Host.Action}
    (allowed : allows depth (.script (action :: rest)) m) :
    Allowed allows (action.moments depth tell m) := by
  cases action with
  | run ts =>
    refine onward fun own ready copied => ?_
    exact tokens passes told (passes allowed (.runTokens copied))
  | execute text => exact source passes told (passes allowed .runSource)
  | executeWord name => exact word passes told (passes allowed .runWord)
  | executeAddress address => exact code passes told (passes allowed .runCode)
  | _ => exact nil

theorem script {actions : List Host.Action} {o : Outcome Unit}
    (resumes : Activity.Resumes allows depth actions o) :
    Allowed allows (Host.scriptMoments depth tell actions o) := by
  fun_induction Host.scriptMoments depth tell actions o with
  | case1 m => exact cons resumes nil
  | case2 f m => exact nil
  | case3 first rest m ih =>
    refine cons resumes ((action passes told resumes).append (ih ?_))
    exact Activity.resumes_perform (passes resumes)
  | case4 first rest f m ih => exact ih (Activity.resumes_failed resumes)

omit told in
theorem told_callable (depth : Nat) : Told allows depth (Host.callableMoments depth) := by
  induction depth with
  | zero => exact fun f arguments m allowed => cons allowed nil
  | succ depth ih =>
    intro f arguments m allowed
    unfold Host.callableMoments
    refine cons allowed ?_
    cases bound : f.signature.bind arguments.length with
    | error fault => exact nil
    | ok _ => exact script passes (o := .done () m) ih (passes allowed (.body bound))

omit told in
theorem prompts {d : Console.Display} {inputs : List Console.Input}
    (allowed : allows depth (.prompts d inputs) m) :
    Allowed allows (Console.promptsMoments depth d inputs m) := by
  induction inputs generalizing m with
  | nil => exact cons allowed nil
  | cons input rest ih =>
    refine cons allowed ?_
    cases input with
    | interrupt => exact ih (passes allowed .afterInterrupt)
    | line text =>
      simp only
      split
      · exact nil
      · next stays =>
        have stays := Bool.eq_false_iff.mpr stays
        have told := told_callable passes Host.maxDepth
        have fed := source passes told (passes allowed (.line stays))
        refine fed.append (onward fun _ after ends => ?_)
        exact ih (passes allowed (.afterLine stays ends))

omit told in
/-- Whatever goes on in the course of an allowed activity is allowed. -/
theorem activity {activity : Activity} (allowed : allows depth activity m) :
    Allowed allows (activity.moments depth m) := by
  have told := told_callable passes depth
  cases activity with
  | dialogue d inputs => exact cons allowed (prompts passes (passes allowed .greeting))
  | prompts d inputs => exact prompts passes allowed
  | source text => exact source passes told allowed
  | tokens ts => exact tokens passes told allowed
  | token t => exact token passes told allowed
  | word name => exact word passes told allowed
  | entry number => exact entry passes told allowed
  | code address => exact code passes told allowed
  | turns base credit => exact turns passes told base credit allowed
  | native name n => exact native passes told allowed
  | callable f arguments => exact told f arguments m allowed
  | script actions => exact script passes (o := .done () m) told allowed

end Allowed

namespace Session

variable {session : List Operation} {x : Moment}

/-- The moments of the chronicle of a part of a session begin in the session. -/
theorem allowed_chronicle {start : Machine} {before after : List Operation}
    (order : session = before ++ after) :
    Allowed (Begins session start) (chronicle after (play before start)) := by
  induction after generalizing before with
  | nil => exact .nil
  | cons operation rest ih =>
    refine .append (.onward fun own ready copied => ?_) ?_
    · cases amounts : own.activity? with
      | none =>
        rw [Operation.moments, amounts]
        exact .nil
      | some activity =>
        rw [Operation.moments, amounts]
        exact .activity .inner (.operation order copied amounts)
    · have behind : session = before ++ [operation] ++ rest := by
        rw [order, List.append_assoc]
        rfl
      have later := ih behind
      rwa [play_append] at later

/-- Every moment of a session begins in it. -/
theorem begins_of_mem_chronicle {start : Machine} (inside : x ∈ chronicle session start) :
    Begins session start x.depth x.activity x.machine := by
  have order : session = [] ++ session := rfl
  exact allowed_chronicle order x inside

/-- Every moment belongs to the reading of the prelude or to the session. -/
theorem begins_of_mem_history {capacity : Int} {withPrelude verbose : Bool}
    (inside : x ∈ history capacity withPrelude verbose session) :
    Begins [.execute Builtin.prelude] (Machine.bare capacity verbose)
        x.depth x.activity x.machine ∨
      Begins session (Machine.fresh capacity withPrelude verbose)
        x.depth x.activity x.machine := by
  rcases List.mem_append.mp inside with before | during
  · split at before
    · have order : [Operation.execute Builtin.prelude] = [] ++ .execute Builtin.prelude :: [] := rfl
      have begun : Begins [.execute Builtin.prelude] (Machine.bare capacity verbose)
          Host.maxDepth (.source Builtin.prelude) (Machine.bare capacity verbose) :=
        .operation order rfl rfl
      exact .inl (Allowed.activity .inner begun x before)
    · cases before
  · exact .inr (begins_of_mem_chronicle during)

/-- At every moment all values in the machine are known. -/
theorem tidy_of_mem_history {capacity : Int} {withPrelude verbose : Bool}
    (inside : x ∈ history capacity withPrelude verbose session) : x.machine.Tidy := by
  rcases begins_of_mem_history inside with begun | begun
  · have tidy := tidy_bare capacity verbose
    exact (begun.moves (supervised_anywhere .inner) tidy).1.tidy tidy
  · have tidy := tidy_fresh capacity withPrelude verbose
    exact (begun.moves (supervised_anywhere .inner) tidy).1.tidy tidy

end Session

end ThreadedForth
