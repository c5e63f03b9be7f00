import ThreadedForth.Proofs.Contract.Session
import ThreadedForth.Proofs.Supervision

/-!
# The chronicle of a session

`Session.Begins` tells which activities begin in a session, and in what states.  It does not
tell in what order, nor how often.  Whoever wants to count what happens, or to compare a state
with an earlier one, needs the list of all these beginnings, the first one first.  That is the
chronicle (`Session.chronicle`), and an item of it is a `Moment`.

The chronicle is put together along the machine's own functions.  An activity is followed by
the chronicles of the activities that it starts, in the order in which it starts them, and
where the second one depends on how the first one ends, the machine is asked.  A run of code is
followed turn by turn, and a host callable through its script.

A property of the past and the present, `P past m`, is *tracked* (`Tracks`) if it survives
four things: the work of a native word, which adds the moment of its call to the past; a turn
of a run, which adds its own moment; the beginning and the end of a run, which put the place of
execution somewhere else; and whatever else is done to the machine, which is little
(`Machine.Aside`) and adds nothing.  The moments of all other activities change nothing by
themselves.  If `P` is tracked then it holds at every moment, of what has been before and of
the state then (`Course`).

A native word that is called is in the dictionary, and a run begins where a word is entered,
unless its address is given from outside or by a host callable (`Activity.Founded`).

* `Tracks.activity`: from the beginning of an activity to its end;
* `Tracks.session`: from the beginning of a session to its end;
* `Tracks.history`: from the bare machine on, through the prelude and the session.
-/

namespace ThreadedForth

/-- The beginning of an activity: how deep callables may still nest, what begins, and in what
state. -/
structure Moment where
  depth : Nat
  activity : Activity
  machine : Machine

/-- The moments after a success. -/
def Outcome.onward {α : Type} (o : Outcome α) (moments : α → Machine → List Moment) :
    List Moment :=
  match o with
  | .done a m => moments a m
  | .failed _ _ => []

/-- What goes on while host callables act. -/
abbrev Teller := Host.Callable → List Value → Machine → List Moment

namespace Machine

section

variable (depth : Nat) (tell : Teller)

/-- A native word is called.  Only a host callable starts anything else. -/
def nativeMoments (name : String) (n : Native) (m : Machine) : List Moment :=
  ⟨depth, .native name n, m⟩ ::
    match n.action with
    | .host f =>
      if m.stack.depth < n.arity then []
      else
        let (arguments, rest) := m.toStore.take n.arity
        tell f arguments { m with toStore := rest }
    | _ => []

/-- Turns are taken. -/
def turnsMoments (base credit : Nat) (m : Machine) : List Moment :=
  ⟨depth, .turns base credit, m⟩ ::
    match _ : m.turn base with
    | .next after => turnsMoments base credit after
    | .halt _ => []
    | .fault _ _ => []
    | .enter name n after =>
      match credit with
      | 0 => []
      | credit + 1 =>
        after.nativeMoments depth tell name n ++
          (after.callNative (Host.callHost depth) name n).onward fun () ended =>
            turnsMoments base credit ended
termination_by (credit, m.weight)
decreasing_by
  · exact Prod.Lex.right _ (weight_lt_of_turn_next ‹_›)
  · exact Prod.Lex.left _ _ (Nat.lt_succ_self _)

/-- Code is run. -/
def codeMoments (address : Value) (m : Machine) : List Moment :=
  ⟨depth, .code address, m⟩ ::
    match m.discardStale.locate address with
    | .error _ => []
    | .ok place =>
      turnsMoments depth tell m.discardStale.returns.depth maxEntries
        { m.discardStale with ip := place }

/-- An entry of the dictionary is run. -/
def entryMoments (entry : Nat) (m : Machine) : List Moment :=
  ⟨depth, .entry entry, m⟩ ::
    match m.dictionary.get? entry with
    | some ⟨name, _, .native n⟩ => m.nativeMoments depth tell name n
    | some ⟨_, _, .colon address⟩ => m.codeMoments depth tell (.int address)
    | some ⟨_, _, .created slot behavior⟩ =>
      match behavior with
      | .none => []
      | address => (m.pushAll [.cell slot]).codeMoments depth tell address
    | none => []

/-- The word that a name means is run. -/
def wordMoments (name : String) (m : Machine) : List Moment :=
  ⟨depth, .word name, m⟩ ::
    match m.lookup name with
    | .ok entry => m.entryMoments depth tell entry
    | .error _ => []

/-- A name is compiled, or the word that it means is run. -/
def nameMoments (name : String) (m : Machine) : List Moment :=
  match m.ownAddress? name with
  | some _ => []
  | none =>
    match m.lookup name with
    | .error _ => []
    | .ok entry =>
      match m.dictionary.get? entry with
      | none => []
      | some w => if m.compiling && !w.immediate then [] else m.entryMoments depth tell entry

/-- A token is fed. -/
def tokenMoments (token : Token) (m : Machine) : List Moment :=
  ⟨depth, .token token, m⟩ ::
    match token with
    | .word name => m.nameMoments depth tell name
    | _ => []

/-- Tokens are fed. -/
def tokensMoments : List Token → Machine → List Moment
  | [], m => [⟨depth, .tokens [], m⟩]
  | token :: rest, m =>
    ⟨depth, .tokens (token :: rest), m⟩ :: (m.tokenMoments depth tell token ++
      (m.interpret (Host.callHost depth) token).onward fun () after => tokensMoments rest after)

/-- A source text is fed. -/
def sourceMoments (source : String) (m : Machine) : List Moment :=
  ⟨depth, .source source, m⟩ ::
    match Token.tokenize source with
    | .ok tokens => tokensMoments depth tell tokens m
    | .error _ => []

end

end Machine

namespace Host

/-- An operation of a script is carried out. -/
def Action.moments (depth : Nat) (tell : Teller) (m : Machine) : Action → List Moment
  | .run tokens =>
    (m.marking (tokens.mapM (Token.copy m.slots.size))).onward fun own ready =>
      ready.tokensMoments depth tell own
  | .execute source => m.sourceMoments depth tell source
  | .executeWord name => m.wordMoments depth tell name
  | .executeAddress address => m.codeMoments depth tell address
  | _ => []

/-- What is left of a script is carried out after the outcome of its first part. -/
def scriptMoments (depth : Nat) (tell : Teller) : List Action → Outcome Unit → List Moment
  | [], .done () m => [⟨depth, .script [], m⟩]
  | [], .failed _ _ => []
  | action :: rest, .done () m =>
    ⟨depth, .script (action :: rest), m⟩ :: (action.moments depth tell m ++
      scriptMoments depth tell rest (action.perform (callHost depth) m))
  | action :: rest, .failed f m =>
    scriptMoments depth tell rest (if action.handles f then .done () m else .failed f m)

/-- A callable is called. -/
def callableMoments : (depth : Nat) → Teller
  | 0, f, arguments, m => [⟨0, .callable f arguments, m⟩]
  | depth + 1, f, arguments, m =>
    ⟨depth + 1, .callable f arguments, m⟩ ::
      match f.signature.bind arguments.length with
      | .error _ => []
      | .ok () => scriptMoments depth (callableMoments depth) f.script (.done () m)

end Host

namespace Console

/-- The console asks for input. -/
def promptsMoments (depth : Nat) (d : Display) : List Input → Machine → List Moment
  | [], m => [⟨depth, .prompts d [], m⟩]
  | input :: rest, m =>
    let asked := m.tell (.prompted (prompt m))
    ⟨depth, .prompts d (input :: rest), m⟩ ::
      match input with
      | .interrupt => promptsMoments depth d rest (recover (.interrupted "") asked)
      | .line text =>
        if isFarewell text then []
        else
          asked.sourceMoments Host.maxDepth (Host.callableMoments Host.maxDepth) text ++
            (feed d text asked).onward fun () after => promptsMoments depth d rest after

end Console

/-- What goes on in the course of an activity, from its own beginning on. -/
def Activity.moments (depth : Nat) (m : Machine) : Activity → List Moment
  | dialogue d inputs =>
    ⟨depth, .dialogue d inputs, m⟩ ::
      Console.promptsMoments depth d inputs (m.tell (.said Console.banner))
  | prompts d inputs => Console.promptsMoments depth d inputs m
  | source text => m.sourceMoments depth (Host.callableMoments depth) text
  | tokens ts => m.tokensMoments depth (Host.callableMoments depth) ts
  | token t => m.tokenMoments depth (Host.callableMoments depth) t
  | word name => m.wordMoments depth (Host.callableMoments depth) name
  | entry e => m.entryMoments depth (Host.callableMoments depth) e
  | code address => m.codeMoments depth (Host.callableMoments depth) address
  | turns base credit => m.turnsMoments depth (Host.callableMoments depth) base credit
  | native name n => m.nativeMoments depth (Host.callableMoments depth) name n
  | callable f arguments => Host.callableMoments depth f arguments m
  | script actions => Host.scriptMoments depth (Host.callableMoments depth) actions (.done () m)

namespace Session

/-- What goes on in the course of an operation whose values are the machine's own. -/
def Operation.moments (m : Machine) (operation : Operation) : List Moment :=
  operation.activity?.elim [] (Activity.moments Host.maxDepth m)

/-- What goes on in the course of a session. -/
def chronicle : List Operation → Machine → List Moment
  | [], _ => []
  | operation :: rest, m =>
    ((m.marking (operation.copy m.slots.size)).onward fun own ready => own.moments ready) ++
      chronicle rest (operation.perform m).machine

/-- What goes on from the bare machine on: the prelude is read, unless there is none, and then
comes the session. -/
def history (capacity : Int) (withPrelude verbose : Bool) (session : List Operation) :
    List Moment :=
  (if withPrelude then
    (Machine.bare capacity verbose).sourceMoments Host.maxDepth
      (Host.callableMoments Host.maxDepth) Builtin.prelude
  else []) ++ chronicle session (Machine.fresh capacity withPrelude verbose)

/-- The state at the moment with the given number, and when there is no such moment, the state
in which the session ends. -/
def stateAt (capacity : Int) (withPrelude verbose : Bool) (session : List Operation) (i : Nat) :
    Machine :=
  ((history capacity withPrelude verbose session)[i]?).elim
    (play session (Machine.fresh capacity withPrelude verbose)) Moment.machine

section

variable {capacity : Int} {withPrelude verbose : Bool} {session : List Operation} {i : Nat}

theorem stateAt_of_getElem? {x : Moment}
    (there : (history capacity withPrelude verbose session)[i]? = some x) :
    stateAt capacity withPrelude verbose session i = x.machine := by
  rw [stateAt, there, Option.elim_some]

theorem stateAt_of_length_le (late : (history capacity withPrelude verbose session).length ≤ i) :
    stateAt capacity withPrelude verbose session i =
      play session (Machine.fresh capacity withPrelude verbose) := by
  rw [stateAt, List.getElem?_eq_none late, Option.elim_none]

/-- What relates all moments to the later states relates all states to the later ones. -/
theorem stateAt_since {R : Machine → Machine → Prop} (refl : ∀ m, R m m)
    (since : ∀ i, ∀ x ∈ (history capacity withPrelude verbose session).take i,
      R x.machine (stateAt capacity withPrelude verbose session i)) (i k : Nat) :
    R (stateAt capacity withPrelude verbose session i)
      (stateAt capacity withPrelude verbose session (i + k)) := by
  by_cases early : i < (history capacity withPrelude verbose session).length
  · cases k with
    | zero => exact refl _
    | succ k =>
      rw [stateAt_of_getElem? (List.getElem?_eq_getElem early)]
      refine since (i + (k + 1)) _ ?_
      exact List.mem_take_iff_getElem.mpr ⟨i, by omega, rfl⟩
  · have late := Nat.le_of_not_lt early
    rw [stateAt_of_length_le late, stateAt_of_length_le (Nat.le_add_right_of_le late)]
    exact refl _

end

end Session

/-! ## Turns, one at a time -/

namespace Machine

section

variable {depth : Nat} {tell : Teller} {base credit : Nat} {m after : Machine} {f : Fault}
  {name : String} {n : Native}

theorem turnsMoments_of_next (turned : m.turn base = .next after) :
    m.turnsMoments depth tell base credit =
      ⟨depth, .turns base credit, m⟩ :: after.turnsMoments depth tell base credit := by
  rw [turnsMoments]
  split <;> simp_all

theorem turnsMoments_of_halt (turned : m.turn base = .halt after) :
    m.turnsMoments depth tell base credit = [⟨depth, .turns base credit, m⟩] := by
  rw [turnsMoments]
  split <;> simp_all

theorem turnsMoments_of_fault (turned : m.turn base = .fault f after) :
    m.turnsMoments depth tell base credit = [⟨depth, .turns base credit, m⟩] := by
  rw [turnsMoments]
  split <;> simp_all

theorem turnsMoments_of_exhausted (turned : m.turn base = .enter name n after) :
    m.turnsMoments depth tell base 0 = [⟨depth, .turns base 0, m⟩] := by
  rw [turnsMoments]
  split <;> simp_all

theorem turnsMoments_of_enter (turned : m.turn base = .enter name n after) :
    m.turnsMoments depth tell base (credit + 1) =
      ⟨depth, .turns base (credit + 1), m⟩ :: (after.nativeMoments depth tell name n ++
        (after.callNative (Host.callHost depth) name n).onward fun () ended =>
          ended.turnsMoments depth tell base credit) := by
  rw [turnsMoments]
  split <;> simp_all

end

/-! ## What is done besides -/

/-- One elementary change in a session of the scope that is neither the work of a native word
nor a turn. -/
inductive Aside (scope : Session.Scope) (m : Machine) : Machine → Prop where
  | data (stack : Stack Value) (nextMark : Nat) (transcript : List Utterance) :
      Aside scope m { m with stack := stack, nextMark := nextMark, transcript := transcript }
  /-- All return addresses are discarded. -/
  | sweep : Aside scope m { m with returns := .empty }
  /-- A host callable takes away the return address on top. -/
  | unwind {r : Int} {rest : Stack Int} (popped : m.returns.pop? = some (r, rest)) :
      Aside scope m { m with returns := rest }
  /-- Whatever is running is stopped. -/
  | rest : Aside scope m { m with ip := none }
  /-- A note is made that is no warning of the compiler. -/
  | note (level : Level) (channel : Channel) (text : String)
      (other : level = .debug ∨ channel ≠ .compiler) : Aside scope m (m.note level channel text)
  /-- A cell is compiled. -/
  | compile {cell : Cell} (compiling : m.compiling = true) (made : Compiled m cell) :
      Aside scope m (m.append cell)
  /-- Literals are joined to the last cell. -/
  | join {cell : Cell} {values all : List Value} (compiling : m.compiling = true)
      (last : m.code.back? = some cell) (free : m.barrier ≤ m.code.size - 1)
      (joined : cell.openValues values = .ok (some all)) :
      Aside scope m { m with code := m.code.pop.push (.literal all) }
  /-- The open definition is dropped, with a warning if there is one. -/
  | abandon : Aside scope m { m with toStore := m.toStore.abandon }
  /-- A native word is registered that is no directive. -/
  | register {name : String} {immediate : Bool} {n : Native}
      (valid : Text.allBlank name.toList = false) (own : ∀ d, n.action ≠ .directive d)
      (allowed : ∀ f, n.action = .host f → scope.callables f) :
      Aside scope m { m with dictionary := m.dictionary.push ⟨name, immediate, .native n⟩ }

/-- Any number of such changes, one after another. -/
abbrev Asides (scope : Session.Scope) : Machine → Machine → Prop :=
  Relation.ReflTransGen (Aside scope)

variable {scope : Session.Scope} {m : Machine}

theorem aside_pushAll (values : List Value) (m : Machine) : Aside scope m (m.pushAll values) :=
  .data (m.stack.pushAll values) m.nextMark m.transcript

theorem aside_tell (u : Utterance) (m : Machine) : Aside scope m (m.tell u) :=
  .data m.stack m.nextMark (u :: m.transcript)

theorem asides_marking {α : Type} (work : Value.Marking α) (m : Machine) :
    Asides scope m (m.marking work).machine := by
  rcases m.marking_cases work with ⟨a, next, made⟩ | ⟨f, made⟩
  · rw [made]
    exact .single (.data m.stack next m.transcript)
  · rw [made]
    exact .refl

theorem asides_pushResult (n : Native) (v : Value) (m : Machine) :
    Asides scope m (m.pushResult n v) := by
  unfold pushResult
  split
  · exact .single (m.aside_pushAll [v])
  · exact .refl

theorem asides_discardStale (m : Machine) : Asides scope m m.discardStale := by
  unfold discardStale
  split
  · exact .tail (.single .sweep) (.note .debug .interpreter _ (.inl rfl))
  · exact .refl

theorem asides_abandonIfCompiling (m : Machine) : Asides scope m m.abandonIfCompiling := by
  unfold abandonIfCompiling
  split
  · exact .single .abandon
  · exact .refl

theorem asides_abort (m : Machine) : Asides scope m m.abort :=
  .tail (.tail (.tail (.single .abandon) .sweep) .rest) (.note .debug .core _ (.inl rfl))

theorem asides_recover (fault : Fault) (m : Machine) : Asides scope m (Console.recover fault m) :=
  .trans (.single (m.aside_tell _)) (asides_abort _)

theorem asides_report (d : Console.Display) (fault : Fault) (m : Machine) :
    Asides scope m (Console.report d fault m).machine := by
  cases shown : d.showsText (Console.reply fault) with
  | true =>
    rw [Console.report_of_shown shown]
    exact asides_recover fault m
  | false =>
    rw [Console.report_of_not_shown shown]
    exact .refl

theorem asides_interpretLiterals (values : List Value) (m : Machine) :
    Asides scope m (m.interpretLiterals values).machine := by
  unfold interpretLiterals
  split
  · next compiling =>
    split
    · next joined found =>
      cases joined with
      | none => exact .single (.compile compiling (.literal values))
      | some all =>
        unfold joinedLiterals at found
        split at found
        · next cell last =>
          split at found
          · next free => exact .single (.join compiling last free found)
          · cases found
        · cases found
    · exact .refl
  · exact .single (m.aside_pushAll values)

/-- The name of the open definition compiles to a call of it. -/
theorem aside_append_own {name : String} {address : Nat} (h : m.ownAddress? name = some address) :
    Aside scope m (m.append (.call address name)) := by
  unfold ownAddress? at h
  split at h
  · next draft compiling open_ =>
    split at h
    · next same =>
      cases h
      subst same
      exact .compile compiling (.own open_)
    · cases h
  · cases h

/-! ### Registering -/

theorem asides_install {name : String} {immediate : Bool} {n : Native}
    (valid : Text.allBlank name.toList = false) (own : ∀ d, n.action ≠ .directive d)
    (allowed : ∀ f, n.action = .host f → scope.callables f) :
    Asides scope m { m with toStore := m.toStore.install ⟨name, immediate, .native n⟩ } := by
  unfold Store.install
  simp only
  split
  · exact .tail (.single (.note .debug .dictionary _ (.inl rfl))) (.register valid own allowed)
  · exact .single (.register valid own allowed)

theorem asides_registerCallable {name : String} {f : Host.Callable} {options : Host.Options}
    {entry : Nat} {after : Machine} (valid : Text.allBlank name.toList = false)
    (allowed : scope.callables f)
    (made : m.registerCallable name f options = .ok (entry, after)) : Asides scope m after := by
  obtain ⟨arity, _, made⟩ := exists_of_bind_ok made
  cases made
  refine asides_install valid nofun ?_
  rintro g ⟨⟩
  exact allowed

theorem asides_registerConstant {name : String} (v : Value)
    (valid : Text.allBlank name.toList = false) : Asides scope m (m.registerConstant name v).2 :=
  asides_install valid nofun nofun

theorem asides_defineNative (name : Value) {item : Host.Item} (allowed : scope.Allows item)
    (options : Host.Options) (m : Machine) :
    Asides scope m (m.defineNative name item options).machine := by
  unfold defineNative
  split
  · exact .refl
  · next checked =>
    split
    · exact .refl
    · split
      · next made =>
        exact asides_registerCallable (Store.checkName_eq_ok checked).2 (allowed _ rfl) made
      · exact .refl

theorem asides_defineConstant (name v : Value) (m : Machine) :
    Asides scope m (m.defineConstant name v).machine := by
  unfold defineConstant
  split
  · exact .refl
  · next checked => exact asides_registerConstant v (Store.checkName_eq_ok checked).2

theorem asides_importItem {name : String} {item : Host.Item}
    (valid : Text.allBlank name.toList = false) (allowed : scope.Allows item) (m : Machine) :
    Asides scope m (m.importItem name item).machine := by
  unfold importItem
  split
  · exact asides_registerConstant _ valid
  · split
    · next made => exact asides_registerCallable valid (allowed _ rfl) made
    · split
      · exact .single (.note .warning .dictionary _ (.inr nofun))
      · exact .refl

theorem asides_importItems (items : List (String × Host.Item))
    (valid : ∀ pair ∈ items, Text.allBlank pair.1.toList = false ∧ scope.Allows pair.2)
    (m : Machine) :
    Asides scope m (importItems items m).machine := by
  induction items generalizing m with
  | nil => exact .refl
  | cons pair rest ih =>
    rw [List.forall_mem_cons] at valid
    have first := asides_importItem valid.1.1 valid.1.2 m
    rw [importItems]
    cases ends : m.importItem pair.1 pair.2 with
    | failed fault after =>
      rw [ends] at first
      exact first
    | done entry after =>
      rw [ends] at first
      rw [Outcome.bind_done, Outcome.machine_map]
      exact first.trans (ih valid.2 after)

theorem asides_importWords {items : List (Value × Host.Item)}
    (allowed : ∀ pair ∈ items, scope.Allows pair.2) (m : Machine) :
    Asides scope m (m.importWords items).machine := by
  unfold importWords
  split
  · exact .refl
  · next named checked => exact asides_importItems named (forall_mem_checkNames allowed checked) m

theorem asides_importObject {attributes : List (String × Host.Attribute)}
    (allowed : ∀ own ∈ attributes, ∀ item, own.2 = .item item → scope.Allows item) (m : Machine) :
    Asides scope m (m.importObject attributes).machine := by
  unfold importObject
  split
  · exact .refl
  · next items read => exact asides_importWords (Host.forall_mem_objectItems allowed read) m

end Machine

/-! ### Data -/

namespace Store

/-- The second store is the first one with another data stack and another next mark. -/
def Shuffles (s t : Store) : Prop :=
  ∃ stack nextMark, t = { s with stack := stack, nextMark := nextMark }

variable {s t : Store}

theorem shuffles_of_pop {count v : Value} (h : s.pop count = .ok (v, t)) : s.Shuffles t := by
  obtain ⟨n, _, counted⟩ := exists_of_bind_ok h
  obtain ⟨_, _, made⟩ := exists_of_bind_ok counted
  split at made
  · next rest took =>
    cases made
    exact ⟨_, _, (congrArg Prod.snd took).symm⟩
  · next rest _ took =>
    cases made
    have left : rest = { s with stack := (s.stack.take n).2 } := (congrArg Prod.snd took).symm
    subst left
    exact ⟨_, _, rfl⟩

theorem shuffles_of_gather {count : Value} (h : s.gather count = .ok t) : s.Shuffles t := by
  obtain ⟨_, _, counted⟩ := exists_of_bind_ok h
  obtain ⟨_, _, made⟩ := exists_of_bind_ok counted
  cases made
  exact ⟨_, _, rfl⟩

theorem shuffles_of_pluck {index v : Value} (h : s.pluck index = .ok (v, t)) :
    s.Shuffles t := by
  obtain ⟨_, _, counted⟩ := exists_of_bind_ok h
  obtain ⟨_, _, made⟩ := exists_of_bind_ok counted
  cases made
  exact ⟨_, _, rfl⟩

theorem shuffles_of_swap (h : s.swap = .ok t) : s.Shuffles t := by
  unfold swap at h
  split at h <;> cases h
  exact ⟨_, _, rfl⟩

theorem shuffles_of_drop (h : s.drop = .ok t) : s.Shuffles t := by
  unfold drop at h
  split at h <;> cases h
  exact ⟨_, _, rfl⟩

theorem shuffles_of_spread (h : s.spread = .ok t) : s.Shuffles t := by
  unfold spread at h
  split at h <;> cases h <;> exact ⟨_, _, rfl⟩

end Store

namespace Machine

variable {m : Machine}

theorem asides_shuffles {s : Store} (shuffled : m.toStore.Shuffles s) :
    Asides scope m { m with toStore := s } := by
  obtain ⟨stack, nextMark, rfl⟩ := shuffled
  exact .single (.data stack nextMark m.transcript)

theorem asides_ofStore {α : Type} {work : Except Fault (α × Store)}
    (shuffled : ∀ a s, work = .ok (a, s) → m.toStore.Shuffles s) :
    Asides scope m (Outcome.ofStore m work).machine := by
  cases ends : work with
  | ok result => exact asides_shuffles (shuffled result.1 result.2 ends)
  | error f => exact .refl

theorem asides_whole {α : Type} {r : Routine Store α} {work : Store → Except Fault (α × Store)}
    (same : r = .whole work)
    (shuffled : ∀ a s, work m.toStore = .ok (a, s) → m.toStore.Shuffles s) :
    Asides scope m (Session.onStore r m).machine := by
  rw [Session.onStore_whole same]
  exact asides_ofStore shuffled

theorem asides_change {r : Routine Store Unit} {work : Store → Except Fault Store}
    (same : r = .change work) (shuffled : ∀ s, work m.toStore = .ok s → m.toStore.Shuffles s) :
    Asides scope m (Session.onStore r m).machine := by
  refine asides_whole same fun a s made => ?_
  obtain ⟨t, ends, made⟩ := exists_of_map_ok made
  cases made
  exact shuffled s ends

end Machine

/-! ## Courses -/

/-- `P` holds at each of the moments, of what has been until then and of the state then, and
it holds in the end.  `past` is what has been before. -/
def Course (P : List Moment → Machine → Prop) (past moments : List Moment) (ended : Machine) :
    Prop :=
  ∀ i, P (past ++ moments.take i) ((moments[i]?).elim ended Moment.machine)

namespace Course

variable {P : List Moment → Machine → Prop} {past xs ys : List Moment} {x : Moment}
  {middle ended : Machine}

theorem nil (holds : P past ended) : Course P past [] ended := by
  intro i
  simpa using holds

theorem cons (now : P past x.machine) (later : Course P (past ++ [x]) xs ended) :
    Course P past (x :: xs) ended := by
  intro i
  cases i with
  | zero => simpa using now
  | succ i => simpa using later i

theorem last (course : Course P past xs ended) : P (past ++ xs) ended := by
  have at_ := course xs.length
  rwa [List.take_length, List.getElem?_eq_none (Nat.le_refl _)] at at_

theorem append (first : Course P past xs middle) (second : Course P (past ++ xs) ys ended) :
    Course P past (xs ++ ys) ended := by
  intro i
  by_cases early : i < xs.length
  · have at_ := first i
    rw [List.getElem?_eq_getElem early] at at_
    rw [List.take_append_of_le_length (Nat.le_of_lt early), List.getElem?_append_left early,
      List.getElem?_eq_getElem early]
    exact at_
  · have at_ := second (i - xs.length)
    have late : xs.length ≤ i := Nat.le_of_not_lt early
    rw [List.take_append, List.take_of_length_le late, List.getElem?_append_right late,
      ← List.append_assoc]
    exact at_

/-- What is done last adds no moment. -/
theorem afterwards (course : Course P past xs middle) (holds : P (past ++ xs) ended) :
    Course P past xs ended := by
  have appended := course.append (.nil holds)
  rwa [List.append_nil] at appended

theorem single (now : P past x.machine) (holds : P (past ++ [x]) ended) :
    Course P past [x] ended :=
  .cons now (.nil holds)

/-- Something is done, and something else after it if it succeeds. -/
theorem bind {α β : Type} {o : Outcome α} {next : α → Machine → Outcome β}
    {moments : α → Machine → List Moment} (first : Course P past xs o.machine)
    (second : ∀ a after, o = .done a after → P (past ++ xs) after →
      Course P (past ++ xs) (moments a after) (next a after).machine) :
    Course P past (xs ++ o.onward moments) (o.bind next).machine := by
  cases o with
  | done a after => exact first.append (second a after rfl first.last)
  | failed f after =>
    rw [Outcome.onward, List.append_nil]
    exact first

end Course

/-- The activity does nothing itself before it starts others. -/
def Activity.Delegates : Activity → Prop
  | turns _ _ => False
  | native _ n => ∃ f, n.action = .host f
  | _ => True

/-- A host callable has been called. -/
def HostCalled (past : List Moment) : Prop :=
  ∃ x ∈ past, ∃ name n f, x.activity = .native name n ∧ n.action = .host f

theorem HostCalled.append {past : List Moment} (called : HostCalled past)
    (moments : List Moment) : HostCalled (past ++ moments) := by
  obtain ⟨x, before, call⟩ := called
  exact ⟨x, List.mem_append_left moments before, call⟩

namespace Machine

/-- The native word is in the dictionary. -/
def Lists (m : Machine) (name : String) (n : Native) : Prop :=
  ∃ entry immediate, m.dictionary.get? entry = some ⟨name, immediate, .native n⟩

/-- Code may be run from the address.  A word is entered there, or the address comes from
outside or from a host callable. -/
def MayEnter (scope : Session.Scope) (past : List Moment) (m : Machine) (address : Value) : Prop :=
  m.Entrance address ∨ scope.addresses ∨ HostCalled past

section

variable {scope : Session.Scope} {past : List Moment} {m after : Machine} {address : Value}

theorem MayEnter.append (founded : m.MayEnter scope past address) (moments : List Moment) :
    m.MayEnter scope (past ++ moments) address :=
  founded.imp_right (Or.imp_right fun called => called.append moments)

theorem MayEnter.congr (founded : m.MayEnter scope past address)
    (same : after.dictionary = m.dictionary) : after.MayEnter scope past address := by
  refine founded.imp_left fun entrance => ?_
  cases entrance with
  | colon known => exact .colon (same ▸ known)
  | behavior known given => exact .behavior (same ▸ known) given

/-- The native word to which a run is handed over is in the dictionary. -/
theorem lists_of_enter {base : Nat} {name : String} {n : Native}
    (turned : m.turn base = .enter name n after) : after.Lists name n := by
  obtain ⟨entry, immediate, resume, -, known, -, rfl⟩ := native_of_enter turned
  exact ⟨entry, immediate, known⟩

end

end Machine

/-- The activity comes from where such an activity may come from. -/
def Activity.Founded (scope : Session.Scope) (past : List Moment) (m : Machine) :
    Activity → Prop
  | code address => m.MayEnter scope past address
  | native name n => m.Lists name n
  | callable _ _ | script _ => HostCalled past
  | _ => True

/-- What there is to show in order that a property of the past and the present holds at every
moment of the sessions of a scope. -/
structure Tracks (P : List Moment → Machine → Prop) (scope : Session.Scope) : Prop where
  /-- An activity begins that starts others. -/
  begins {past : List Moment} {x : Moment} : x.activity.Delegates →
    x.activity.Founded scope past x.machine → P past x.machine → P (past ++ [x]) x.machine
  /-- A native word does its work. -/
  native {past : List Moment} {depth : Nat} {name : String} {n : Native} {m : Machine} :
    (∀ f, n.action ≠ .host f) → P past m →
    P (past ++ [⟨depth, .native name n, m⟩]) (m.callNative (Host.callHost depth) name n).machine
  turn {past : List Moment} {m : Machine} (depth base credit : Nat) : P past m →
    P (past ++ [⟨depth, .turns base credit, m⟩]) (m.turn base).machine
  aside {past : List Moment} {m after : Machine} : m.Aside scope after → P past m → P past after
  /-- A run begins. -/
  enter {past : List Moment} {m : Machine} {address : Value} {place : Option Int} :
    m.MayEnter scope past address → m.locate address = .ok place → P past m →
    P past { m with ip := place }
  /-- After a run the place of execution is put back to what it was before. -/
  leave {past : List Moment} {m : Machine} {x : Moment} : x ∈ past → P past m →
    P past { m with ip := x.machine.ip }
  switch {past : List Moment} {m : Machine} {on : Bool} : scope.switches → P past m →
    P past { m with compiling := on }
  insert {past : List Moment} {m : Machine} {items : List Value} : scope.cells → P past m →
    P past (m.append (Cell.ofItems items))

namespace Tracks

open Machine

variable {P : List Moment → Machine → Prop} {scope : Session.Scope} {past : List Moment}
  {depth : Nat} {tell : Teller} {m after : Machine}

/-- `P` holds in the course of a call of a callable. -/
def Told (P : List Moment → Machine → Prop) (depth : Nat) (tell : Teller) : Prop :=
  ∀ f arguments past m, HostCalled past → P past m →
    Course P past (tell f arguments m) (Host.callHost depth f arguments m).machine

variable (tracks : Tracks P scope) (told : Told P depth tell)

include tracks

theorem asides (done : Asides scope m after) (holds : P past m) : P past after := by
  induction done with
  | refl => exact holds
  | tail _ last ih => exact tracks.aside last ih

include told

/-! ## Running code -/

theorem course_native {name : String} {n : Native} (listed : m.Lists name n) (holds : P past m) :
    Course P past (m.nativeMoments depth tell name n)
      (m.callNative (Host.callHost depth) name n).machine := by
  unfold nativeMoments
  cases kind : n.action with
  | primitive p => exact .single holds (tracks.native (by simp [kind]) holds)
  | directive d => exact .single holds (tracks.native (by simp [kind]) holds)
  | host f =>
    have begun := tracks.begins (x := ⟨depth, .native name n, m⟩) ⟨f, kind⟩ listed holds
    have called : HostCalled (past ++ [⟨depth, .native name n, m⟩]) :=
      ⟨_, List.mem_append_right past (List.mem_singleton_self _), name, n, f, rfl, kind⟩
    refine .cons holds ?_
    unfold callNative callWith
    simp only
    split
    · exact .nil begun
    · have taken := tracks.aside (.data (m.stack.take n.arity).2 m.nextMark m.transcript) begun
      have acted := told f (m.toStore.take n.arity).1 _ _ called taken
      rw [kind]
      refine Course.afterwards acted ?_
      have acted := acted.last
      simp only [Action.perform, Store.take] at acted ⊢
      generalize Host.callHost depth f _ _ = o at acted
      cases o with
      | done v after => exact tracks.asides (after.asides_pushResult n v) acted
      | failed f after =>
        simp only [Outcome.onFault, Outcome.bind_failed, Outcome.machine_failed]
        split
        · exact acted
        · exact tracks.aside (after.aside_pushAll _) acted

theorem course_turns (base credit : Nat) (holds : P past m) :
    Course P past (m.turnsMoments depth tell base credit)
      (m.loop (Host.callHost depth) base credit).machine := by
  fun_induction Machine.loop (Host.callHost depth) base credit m generalizing past with
  | case1 credit m after turned ih =>
    have next := tracks.turn depth base credit holds
    rw [turned] at next
    rw [turnsMoments_of_next turned]
    exact .cons holds (ih next)
  | case2 credit m after turned =>
    have next := tracks.turn depth base credit holds
    rw [turned] at next
    rw [turnsMoments_of_halt turned]
    exact .single holds next
  | case3 credit m f after turned =>
    have next := tracks.turn depth base credit holds
    rw [turned] at next
    rw [turnsMoments_of_fault turned]
    exact .single holds next
  | case4 m name n after turned =>
    have next := tracks.turn depth base 0 holds
    rw [turned] at next
    rw [turnsMoments_of_exhausted turned]
    exact .single holds next
  | case5 m name n after turned credit ended called ih =>
    have next := tracks.turn depth base (credit + 1) holds
    rw [turned] at next
    have worked : Course P _ (after.nativeMoments depth tell name n) _ :=
      tracks.course_native told (lists_of_enter turned) next
    rw [turnsMoments_of_enter turned, called]
    rw [called] at worked
    exact .cons holds (worked.append (ih worked.last))
  | case6 m name n after turned credit f ended called =>
    have next := tracks.turn depth base (credit + 1) holds
    rw [turned] at next
    have worked : Course P _ (after.nativeMoments depth tell name n) _ :=
      tracks.course_native told (lists_of_enter turned) next
    rw [turnsMoments_of_enter turned, called, Outcome.onward, List.append_nil]
    rw [called] at worked
    exact .cons holds worked

theorem course_code {address : Value} (founded : m.MayEnter scope past address)
    (holds : P past m) :
    Course P past (m.codeMoments depth tell address)
      (m.executeAddress (Host.callHost depth) address).machine := by
  have begun := tracks.begins (x := ⟨depth, .code address, m⟩) trivial founded holds
  have start := tracks.asides m.asides_discardStale begun
  unfold codeMoments executeAddress
  refine .cons holds ?_
  simp only
  cases located : m.discardStale.locate address with
  | error f => exact .nil start
  | ok place =>
    obtain ⟨_, books, stale⟩ := discardStale_cases m
    have same : m.discardStale.dictionary = m.dictionary := by
      rw [stale]
      exact books.dictionary
    have placed := tracks.enter ((founded.congr same).append _) located start
    have ran := tracks.course_turns told m.discardStale.returns.depth maxEntries placed
    refine Course.afterwards ran ?_
    have ran := ran.last
    have before : ∀ moments,
        ⟨depth, .code address, m⟩ ∈ past ++ [⟨depth, .code address, m⟩] ++ moments := by simp
    simp only
    generalize loop (Host.callHost depth) m.discardStale.returns.depth maxEntries
      { m.discardStale with ip := place } = o at ran
    cases o with
    | done _ ended => exact tracks.leave (before _) ran
    | failed f ended => exact tracks.leave (before _) ran

theorem course_entry (entry : Nat) (holds : P past m) :
    Course P past (m.entryMoments depth tell entry)
      (m.executeEntry (Host.callHost depth) entry).machine := by
  have begun := tracks.begins (x := ⟨depth, .entry entry, m⟩) trivial trivial holds
  unfold entryMoments executeEntry
  refine .cons holds ?_
  cases known : m.dictionary.get? entry with
  | none => exact .nil begun
  | some w =>
    obtain ⟨name, immediate, body⟩ := w
    cases body with
    | native n => exact tracks.course_native told ⟨entry, immediate, known⟩ begun
    | colon address => exact tracks.course_code told (.inl (.colon known)) begun
    | created slot behavior =>
      have pushed := tracks.aside (m.aside_pushAll [.cell slot]) begun
      cases behavior with
      | none => exact .nil pushed
      | _ => exact tracks.course_code told (.inl (.behavior known nofun)) pushed

theorem course_word (name : String) (holds : P past m) :
    Course P past (m.wordMoments depth tell name)
      (m.executeWord (Host.callHost depth) name).machine := by
  have begun := tracks.begins (x := ⟨depth, .word name, m⟩) trivial trivial holds
  unfold wordMoments executeWord
  refine .cons holds ?_
  cases m.lookup name with
  | ok entry => exact tracks.course_entry told entry begun
  | error f => exact .nil begun

/-! ## Feeding -/

theorem course_name (name : String) (holds : P past m) :
    Course P past (m.nameMoments depth tell name)
      (m.interpretName (Host.callHost depth) name).machine := by
  unfold nameMoments interpretName
  cases own : m.ownAddress? name with
  | some address => exact .nil (tracks.aside (aside_append_own own) holds)
  | none =>
    cases m.lookup name with
    | error f => exact .nil holds
    | ok entry =>
      simp only
      cases known : m.dictionary.get? entry with
      | none => exact .nil holds
      | some w =>
        simp only
        by_cases compiles : (m.compiling && !w.immediate) = true
        · rw [if_pos compiles, if_pos compiles]
          rw [Bool.and_eq_true, Bool.not_eq_true'] at compiles
          exact .nil (tracks.aside (.compile compiles.1 (.entry known compiles.2)) holds)
        · rw [if_neg compiles, if_neg compiles]
          exact tracks.course_entry told entry holds

/-- What a token does, before the open definition is dropped if it fails. -/
theorem course_effect (token : Token) (holds : P past m) :
    Course P past (m.tokenMoments depth tell token)
      (m.interpretToken (Host.callHost depth) token).machine := by
  have begun := tracks.begins (x := ⟨depth, .token token, m⟩) trivial trivial holds
  unfold tokenMoments
  refine .cons holds ?_
  cases token with
  | word name => exact tracks.course_name told name begun
  | datum v => exact .nil (tracks.asides (m.asides_interpretLiterals [v]) begun)
  | batch values => exact .nil (tracks.asides (m.asides_interpretLiterals values) begun)
  | malformed content => exact .nil begun

theorem course_token (token : Token) (holds : P past m) :
    Course P past (m.tokenMoments depth tell token)
      (m.interpret (Host.callHost depth) token).machine := by
  have fed := tracks.course_effect told token holds
  refine Course.afterwards fed ?_
  have fed := fed.last
  unfold interpret
  generalize m.interpretToken (Host.callHost depth) token = o at fed
  cases o with
  | done _ after => exact fed
  | failed f after =>
    simp only [Outcome.onFault, Outcome.machine_failed]
    split
    · exact fed
    · exact tracks.asides after.asides_abandonIfCompiling fed

theorem course_tokens (tokens : List Token) (holds : P past m) :
    Course P past (m.tokensMoments depth tell tokens)
      (m.run (Host.callHost depth) tokens).machine := by
  induction tokens generalizing past m with
  | nil => exact .single holds (tracks.begins (x := ⟨depth, .tokens [], m⟩) trivial trivial holds)
  | cons token rest ih =>
    have begun := tracks.begins (x := ⟨depth, .tokens (token :: rest), m⟩) trivial trivial holds
    refine .cons holds (.bind (tracks.course_token told token begun) ?_)
    intro _ after _ holds
    exact ih holds

theorem course_source (source : String) (holds : P past m) :
    Course P past (m.sourceMoments depth tell source)
      (m.execute (Host.callHost depth) source).machine := by
  have begun := tracks.begins (x := ⟨depth, .source source, m⟩) trivial trivial holds
  unfold sourceMoments execute
  refine .cons holds ?_
  cases Token.tokenize source with
  | ok tokens => exact tracks.course_tokens told tokens begun
  | error f => exact .nil begun

/-! ## Host callables -/

theorem course_action (called : HostCalled past) (action : Host.Action) (holds : P past m) :
    Course P past (action.moments depth tell m)
      (action.perform (Host.callHost depth) m).machine := by
  cases action with
  | push values =>
    have taken := tracks.asides (m.asides_marking (Value.copyAll m.slots.size values)) holds
    simp only [Host.Action.moments, Host.Action.perform]
    generalize m.marking (Value.copyAll m.slots.size values) = o at taken
    cases o with
    | done own ready => exact .nil (tracks.aside (ready.aside_pushAll own) taken)
    | failed f ready => exact .nil taken
  | run tokens =>
    have taken := tracks.asides
      (m.asides_marking (tokens.mapM (Token.copy m.slots.size))) holds
    have start : Course P past [] _ := .nil taken
    refine start.bind fun own ready _ holds => ?_
    exact tracks.course_tokens told own holds
  | execute source => exact tracks.course_source told source holds
  | executeWord name => exact tracks.course_word told name holds
  | executeAddress address => exact tracks.course_code told (.inr (.inr called)) holds
  | dropReturn =>
    simp only [Host.Action.moments, Host.Action.perform]
    split
    · next popped => exact .nil (tracks.aside (.unwind popped) holds)
    · exact .nil holds
  | abort => exact .nil (tracks.asides m.asides_abort holds)
  | fail f => exact .nil holds
  | demand text =>
    rcases Host.Action.demand_cases (Host.callHost depth) text m with same | same
    · rw [same]
      exact .nil holds
    · rw [same]
      exact .nil holds
  | handle => exact .nil holds

theorem course_script (called : HostCalled past) (script : List Host.Action) (o : Outcome Unit)
    (holds : P past o.machine) :
    Course P past (Host.scriptMoments depth tell script o)
      (Host.resumeScript (Host.callHost depth) script o).machine := by
  fun_induction Host.resumeScript (Host.callHost depth) script o generalizing past with
  | case1 o =>
    cases o with
    | done _ m =>
      exact .single holds (tracks.begins (x := ⟨depth, .script [], m⟩) trivial called holds)
    | failed f m => exact .nil holds
  | case2 action rest m ih =>
    have begun := tracks.begins (x := ⟨depth, .script (action :: rest), m⟩) trivial called holds
    have first := tracks.course_action told (called.append _) action begun
    exact .cons holds (first.append (ih ((called.append _).append _) first.last))
  | case3 action rest f m ih =>
    refine ih called ?_
    rw [action.machine_handled f m]
    exact holds

omit told in
/-- Callables are tracked, nested to any depth. -/
theorem told_callable (depth : Nat) : Told P depth (Host.callableMoments depth) := by
  induction depth with
  | zero =>
    intro f arguments past m called holds
    exact .single holds (tracks.begins (x := ⟨0, .callable f arguments, m⟩) trivial called holds)
  | succ depth ih =>
    intro f arguments past m called holds
    have begun := tracks.begins (x := ⟨depth + 1, .callable f arguments, m⟩) trivial called holds
    unfold Host.callableMoments Host.callHost
    refine .cons holds ?_
    cases f.signature.bind arguments.length with
    | error fault => exact .nil begun
    | ok _ =>
      have ran := tracks.course_script ih (called.append _) f.script (.done () m) begun
      refine Course.afterwards ran ?_
      have ran := ran.last
      unfold Host.runScript
      generalize Host.resumeScript (Host.callHost depth) f.script (.done () m) = o at ran
      cases o with
      | done _ after => exact tracks.asides (after.asides_marking _) ran
      | failed f after => exact ran

/-! ## The console -/

omit told in
theorem course_feed (d : Console.Display) (line : String) (holds : P past m) :
    Course P past (m.sourceMoments Host.maxDepth (Host.callableMoments Host.maxDepth) line)
      (Console.feed d line m).machine := by
  have fed := tracks.course_source (tracks.told_callable Host.maxDepth) line holds
  refine fed.afterwards ?_
  have fed := fed.last
  unfold Console.feed
  rw [Host.caller]
  split
  · next after ends =>
    rw [ends] at fed
    exact fed
  · next fault after ends =>
    rw [ends] at fed
    exact tracks.asides (asides_report d fault after) fed

omit told in
theorem course_prompts (d : Console.Display) (inputs : List Console.Input) (holds : P past m) :
    Course P past (Console.promptsMoments depth d inputs m)
      (Console.converse d inputs m).machine := by
  induction inputs generalizing past m with
  | nil =>
    have begun := tracks.begins (x := ⟨depth, .prompts d [], m⟩) trivial trivial holds
    exact .single holds (tracks.aside (m.aside_tell _) begun)
  | cons input rest ih =>
    have begun := tracks.begins (x := ⟨depth, .prompts d (input :: rest), m⟩) trivial trivial holds
    have asked := tracks.aside (m.aside_tell (.prompted (Console.prompt m))) begun
    refine .cons holds ?_
    cases input with
    | interrupt =>
      rw [Console.converse]
      simp only [Console.report_interrupted]
      exact ih (tracks.asides (asides_recover (.interrupted "") _) asked)
    | line text =>
      rw [Console.converse]
      simp only
      split
      · exact .nil asked
      · refine .bind (tracks.course_feed d text asked) ?_
        intro _ after _ holds
        exact ih holds

omit told in
/-- From the beginning of an activity to its end. -/
theorem activity (activity : Activity) (depth : Nat) (founded : activity.Founded scope past m)
    (holds : P past m) :
    Course P past (activity.moments depth m) (activity.perform depth m).machine := by
  have told := tracks.told_callable depth
  cases activity with
  | dialogue d inputs =>
    have begun := tracks.begins (x := ⟨depth, .dialogue d inputs, m⟩) trivial trivial holds
    rw [Activity.perform, Console.dialogue_eq]
    exact .cons holds (tracks.course_prompts d inputs (tracks.aside (m.aside_tell _) begun))
  | prompts d inputs => exact tracks.course_prompts d inputs holds
  | source text => exact tracks.course_source told text holds
  | tokens ts => exact tracks.course_tokens told ts holds
  | token t => exact tracks.course_token told t holds
  | word name => exact tracks.course_word told name holds
  | entry e => exact tracks.course_entry told e holds
  | code address => exact tracks.course_code told founded holds
  | turns base credit => exact tracks.course_turns told base credit holds
  | native name n => exact tracks.course_native told founded holds
  | callable f arguments =>
    have called := told f arguments past m founded holds
    rw [Activity.perform, Outcome.machine_map]
    exact called
  | script actions => exact tracks.course_script told founded actions (.done () m) holds

/-! ## Sessions -/

omit told

theorem course_operation {operation : Session.Operation} (within : operation.Within scope)
    (holds : P past m) :
    Course P past (operation.moments m) (operation.carryOut m).machine := by
  cases operation with
  | execute source =>
    rw [Session.Operation.carryOut, Session.Result.ofSelf, Outcome.machine_map]
    exact tracks.activity (.source source) Host.maxDepth trivial holds
  | run tokens =>
    rw [Session.Operation.carryOut, Session.Result.ofSelf, Outcome.machine_map]
    exact tracks.activity (.tokens tokens) Host.maxDepth trivial holds
  | interpret token =>
    rw [Session.Operation.carryOut, Session.Result.ofSelf, Outcome.machine_map]
    exact tracks.activity (.token token) Host.maxDepth trivial holds
  | define name tokens =>
    rw [Session.Operation.carryOut, Session.Result.ofSelf, Outcome.machine_map]
    exact tracks.activity (.tokens _) Host.maxDepth trivial holds
  | feed values =>
    rw [Session.Operation.carryOut, Session.Result.ofSelf, Outcome.machine_map]
    unfold Session.feed Session.Operation.moments
    simp only [Session.Operation.activity?]
    by_cases nothing : values = []
    · rw [if_pos nothing, if_pos nothing]
      exact .nil holds
    · rw [if_neg nothing, if_neg nothing]
      exact tracks.activity (.tokens [.batch values]) Host.maxDepth trivial holds
  | push values => exact .nil (tracks.aside (m.aside_pushAll values) holds)
  | pop count =>
    rw [Session.Operation.carryOut, Session.Result.ofValue, Outcome.machine_map]
    exact .nil (tracks.asides
      (asides_whole (Routine.pop_eq count) fun _ _ => Store.shuffles_of_pop) holds)
  | gather count =>
    rw [Session.Operation.carryOut, Session.Result.ofNothing, Outcome.machine_map]
    exact .nil (tracks.asides
      (asides_change (Routine.gather_eq count) fun _ => Store.shuffles_of_gather) holds)
  | pluck index =>
    rw [Session.Operation.carryOut, Session.Result.ofValue, Outcome.machine_map]
    exact .nil (tracks.asides
      (asides_whole (Routine.pluck_eq index) fun _ _ => Store.shuffles_of_pluck) holds)
  | pick index =>
    rw [Session.Operation.carryOut, Session.Result.ofValue, Outcome.machine_map, Session.pick,
      machine_ofExcept]
    exact .nil holds
  | peek =>
    rw [Session.Operation.carryOut, Session.Result.ofValue, Outcome.machine_map, Session.peek,
      machine_ofExcept]
    exact .nil holds
  | clear => exact .nil (tracks.aside (.data .empty m.nextMark m.transcript) holds)
  | swap =>
    rw [Session.Operation.carryOut, Session.Result.ofNothing, Outcome.machine_map]
    exact .nil (tracks.asides (asides_change Routine.swap_eq fun _ => Store.shuffles_of_swap) holds)
  | drop =>
    rw [Session.Operation.carryOut, Session.Result.ofNothing, Outcome.machine_map]
    exact .nil (tracks.asides (asides_change Routine.drop_eq fun _ => Store.shuffles_of_drop) holds)
  | spread =>
    rw [Session.Operation.carryOut, Session.Result.ofNothing, Outcome.machine_map]
    exact .nil (tracks.asides
      (asides_change Routine.spread_eq fun _ => Store.shuffles_of_spread) holds)
  | abort => exact .nil (tracks.asides m.asides_abort holds)
  | lookup name =>
    rw [Session.Operation.carryOut, Session.Result.ofEntry, Outcome.machine_map]
    unfold Session.lookup
    split
    · rw [machine_ofExcept]
      exact .nil holds
    · exact .nil holds
  | executeWord name =>
    rw [Session.Operation.carryOut, Session.Result.ofSelf, Outcome.machine_map]
    exact tracks.activity (.word name) Host.maxDepth trivial holds
  | executeAddress address =>
    rw [Session.Operation.carryOut, Session.Result.ofSelf, Outcome.machine_map]
    exact tracks.activity (.code address) Host.maxDepth (.inr (.inl within)) holds
  | defineNative name item options =>
    rw [Session.Operation.carryOut, Session.Result.ofEntry, Outcome.machine_map]
    exact .nil (tracks.asides (m.asides_defineNative name within options) holds)
  | defineConstant name v =>
    rw [Session.Operation.carryOut, Session.Result.ofEntry, Outcome.machine_map]
    exact .nil (tracks.asides (m.asides_defineConstant name v) holds)
  | importMapping pairs =>
    rw [Session.Operation.carryOut, Session.Result.ofEntries, Outcome.machine_map]
    exact .nil (tracks.asides (m.asides_importWords (Host.forall_mem_collect within)) holds)
  | importObject attributes =>
    rw [Session.Operation.carryOut, Session.Result.ofEntries, Outcome.machine_map]
    exact .nil (tracks.asides (m.asides_importObject within) holds)
  | setCompiling on => exact .nil (tracks.switch within holds)
  | appendCell items => exact .nil (tracks.insert within holds)
  | converse d script =>
    rw [Session.Operation.carryOut, Session.Result.ofSelf, Outcome.machine_map]
    exact tracks.activity (.dialogue d script) Host.maxDepth trivial holds
  | depth | here | describe => exact .nil holds

theorem course_perform {operation : Session.Operation} (within : operation.Within scope)
    (holds : P past m) :
    Course P past ((m.marking (operation.copy m.slots.size)).onward fun own ready =>
      own.moments ready) (operation.perform m).machine := by
  have start : Course P past [] _ :=
    .nil (tracks.asides (m.asides_marking (operation.copy m.slots.size)) holds)
  refine start.bind fun own ready copied holds => ?_
  obtain ⟨last, runs⟩ := Value.Marking.exists_of_marking copied
  exact tracks.course_operation (Session.Operation.within_copy within runs) holds

/-- From the beginning of a session to its end. -/
theorem session (session : List Session.Operation)
    (within : ∀ operation ∈ session, operation.Within scope) (holds : P past m) :
    Course P past (Session.chronicle session m) (Session.play session m) := by
  induction session generalizing past m with
  | nil => exact .nil holds
  | cons operation rest ih =>
    rw [List.forall_mem_cons] at within
    have performed := tracks.course_perform within.1 holds
    exact performed.append (ih within.2 performed.last)

/-- From the bare machine on, through the prelude and the session. -/
theorem history {session : List Session.Operation} (capacity : Int) (withPrelude verbose : Bool)
    (within : ∀ operation ∈ session, operation.Within scope)
    (bare : P [] (bare capacity verbose)) (i : Nat) :
    P ((Session.history capacity withPrelude verbose session).take i)
      (Session.stateAt capacity withPrelude verbose session i) := by
  have told := tracks.told_callable Host.maxDepth
  have course : Course P [] (Session.history capacity withPrelude verbose session)
      (Session.play session (fresh capacity withPrelude verbose)) := by
    unfold Session.history fresh
    cases withPrelude with
    | false =>
      refine tracks.session session within ?_
      exact tracks.aside (.note .debug .repl _ (.inl rfl)) bare
    | true =>
      have loaded := tracks.course_source told Builtin.prelude bare
      refine loaded.append (tracks.session session within ?_)
      exact tracks.aside (.note .debug .repl _ (.inl rfl)) loaded.last
  exact course i

end Tracks

end ThreadedForth
