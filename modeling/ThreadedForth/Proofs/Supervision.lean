import Mathlib.Data.List.Induction
import ThreadedForth.Proofs.Activity
import ThreadedForth.Proofs.Move

/-!
# Sessions under supervision

A session stores into slots and gives words their behavior, and which slots and which words
these are is seen only while it goes on.  `Activity.Starts` tells what goes on.  Only two of
the activities do these things by themselves, namely the call of a native word and a turn of
a run (`Activity.Stores`, `Activity.Binds`).

Let some activities be allowed, and let whatever an allowed activity starts be allowed too.
If the allowed activities store and give behaviors only where that is permitted, they are
under supervision (`Supervised`), and then all that they do amounts to permitted moves.  This
is proved along the machine's own functions from native words upwards, for host callables by
induction on how deep they may nest (`Supervised.obeys_callHost`).

* `Session.moves_play`: a whole session amounts to permitted moves, if everything that begins
  in it is under supervision;
* `Session.Begins.moves`: so does what has happened until some activity begins in it;
* `Session.tidy_play`: a session leaves a tidy machine, since nothing is needed for that but
  the permit to do everything.
-/

namespace ThreadedForth

namespace Activity

/-- The activity stores into the slot, as soon as it begins in the state `m`. -/
def Stores (m : Machine) (slot : Nat) : Activity → Prop
  | native _ n => m.StoresInto n slot
  | turns _ _ => m.TurnStores slot
  | _ => False

/-- The activity gives the word a behavior, as soon as it begins in the state `m`. -/
def Binds (m : Machine) (entry : Nat) : Activity → Prop
  | turns _ _ => m.TurnBinds entry
  | _ => False

/-- The values that the activity comes with are known. -/
def Known (b : Bounds) : Activity → Prop
  | tokens ts => ∀ t ∈ ts, t.Known b
  | token t => t.Known b
  | native _ n => (Body.native n).Known b
  | callable _ arguments => ∀ v ∈ arguments, v.Known b
  | _ => True

end Activity

/-- Whatever an allowed activity starts is allowed, and allowed activities store and give
behaviors only where that is permitted. -/
structure Supervised (permit : Machine.Permit) (allows : Nat → Activity → Machine → Prop) :
    Prop where
  starts {depth depth' : Nat} {activity inner : Activity} {m m' : Machine} :
    allows depth activity m → activity.Starts depth m depth' inner m' → allows depth' inner m'
  stores {depth : Nat} {activity : Activity} {m : Machine} {slot : Nat} :
    allows depth activity m → activity.Stores m slot → permit.slot slot
  binds {depth : Nat} {activity : Activity} {m : Machine} {entry : Nat} :
    allows depth activity m → activity.Binds m entry → permit.entry entry

namespace Supervised

open Machine

variable {permit : Permit} {allows : Nat → Activity → Machine → Prop} {depth : Nat} {m : Machine}

/-- Callables that are allowed amount to moves. -/
def Obeys (permit : Permit) (allows : Nat → Activity → Machine → Prop) (depth : Nat) : Prop :=
  ∀ f arguments m, allows depth (.callable f arguments) m → m.Tidy →
    (∀ v ∈ arguments, v.Known m.bounds) → Brings permit m (Host.callHost depth f arguments m)

variable (supervised : Supervised permit allows) (obeys : Obeys permit allows depth)

include supervised obeys

/-! ## Running code -/

theorem moves_callNative {name : String} {n : Native} (allowed : allows depth (.native name n) m)
    (tidy : m.Tidy) (known : (Body.native n).Known m.bounds) :
    Moves permit m (m.callNative (Host.callHost depth) name n).machine := by
  refine moves_callWith tidy fun enough => ?_
  obtain ⟨values, left⟩ := tidy.take n.arity
  cases kind : n.action with
  | primitive p =>
    exact brings_taken tidy known kind (fun slot into => supervised.stores allowed into) enough
  | directive d =>
    refine ⟨d.moves_perform values, fun v after done => ?_⟩
    simp only [Action.perform, Directive.perform_eq] at done
    split at done
    · cases done
      exact Value.known_none
    · cases done
  | host f =>
    have taken : Moves permit m { m with toStore := (m.toStore.take n.arity).2 } :=
      moves_reckons left
    exact obeys _ _ _ (supervised.starts allowed (.host kind enough)) (taken.tidy tidy) values

omit obeys in
/-- What a turn leaves. -/
theorem moves_turn {base credit : Nat} (allowed : allows depth (.turns base credit) m)
    (tidy : m.Tidy) : Moves permit m (m.turn base).machine :=
  (m.leaves_turn base).moves tidy (fun _ => supervised.stores allowed)
    fun _ => supervised.binds allowed

omit obeys in
/-- What a turn leaves that hands over to a native word, and what is known of the word. -/
theorem moves_handover {base credit : Nat} {name : String} {n : Native} {after : Machine}
    (allowed : allows depth (.turns base credit) m) (tidy : m.Tidy)
    (entered : m.turn base = .enter name n after) :
    Moves permit m after ∧ (Body.native n).Known after.bounds := by
  have first := supervised.moves_turn allowed tidy
  rw [entered] at first
  obtain ⟨entry, immediate, resume, -, found, -, rfl⟩ := native_of_enter entered
  exact ⟨first, tidy.words _ _ found⟩

/-- What is left by the call that a turn hands over to. -/
theorem moves_enter {base credit : Nat} {name : String} {n : Native} {after : Machine}
    (allowed : allows depth (.turns base (credit + 1)) m) (tidy : m.Tidy)
    (entered : m.turn base = .enter name n after) :
    Moves permit m (after.callNative (Host.callHost depth) name n).machine := by
  obtain ⟨first, known⟩ := supervised.moves_handover allowed tidy entered
  have allowed := supervised.starts allowed (.enter entered)
  exact first.trans (supervised.moves_callNative obeys allowed (first.tidy tidy) known)

/-- A run amounts to moves, turn by turn. -/
theorem moves_loop (base credit : Nat) (allowed : allows depth (.turns base credit) m)
    (tidy : m.Tidy) : Moves permit m (m.loop (Host.callHost depth) base credit).machine := by
  fun_induction Machine.loop (Host.callHost depth) base credit m with
  | case1 credit m after next ih =>
    have first := supervised.moves_turn allowed tidy
    rw [next] at first
    exact first.trans (ih (supervised.starts allowed (.turn next)) (Moves.tidy tidy first))
  | case2 credit m after halted =>
    have first := supervised.moves_turn allowed tidy
    rw [halted] at first
    exact first
  | case3 credit m f after failed =>
    have first := supervised.moves_turn allowed tidy
    rw [failed] at first
    exact first
  | case4 m name n after entered =>
    exact (supervised.moves_handover allowed tidy entered).1
  | case5 m name n after entered credit ended called ih =>
    have both := supervised.moves_enter obeys allowed tidy entered
    rw [called] at both
    exact both.trans (ih (supervised.starts allowed (.afterEntry entered called))
      (Moves.tidy tidy both))
  | case6 m name n after entered credit f ended called =>
    have both := supervised.moves_enter obeys allowed tidy entered
    rw [called] at both
    exact both

theorem moves_executeAddress {address : Value} (allowed : allows depth (.code address) m)
    (tidy : m.Tidy) : Moves permit m (m.executeAddress (Host.callHost depth) address).machine := by
  have stale : Moves permit m m.discardStale := m.moves_discardStale
  unfold executeAddress
  simp only
  split
  · exact stale
  · next place located =>
    have start : Moves permit m { m.discardStale with ip := place } :=
      stale.tail (.books ⟨rfl, rfl, rfl, rfl, rfl, rfl, rfl⟩)
    have ran := start.trans (supervised.moves_loop obeys _ _
      (supervised.starts allowed (.run located)) (start.tidy tidy))
    generalize loop (Host.callHost depth) m.discardStale.returns.depth maxEntries
      { m.discardStale with ip := place } = o at ran
    cases o with
    | done _ after => exact ran.tail (.books ⟨rfl, rfl, rfl, rfl, rfl, rfl, rfl⟩)
    | failed f after => exact ran.tail (.books ⟨rfl, rfl, rfl, rfl, rfl, rfl, rfl⟩)

theorem moves_executeEntry {entry : Nat} (allowed : allows depth (.entry entry) m)
    (tidy : m.Tidy) : Moves permit m (m.executeEntry (Host.callHost depth) entry).machine := by
  unfold executeEntry
  split
  · next name immediate n known =>
    exact supervised.moves_callNative obeys (supervised.starts allowed (.native known)) tidy
      (tidy.words _ _ known)
  · next name immediate address known =>
    exact supervised.moves_executeAddress obeys (supervised.starts allowed (.colon known)) tidy
  · next name immediate slot behavior known =>
    have pushed : Moves permit m (m.pushAll [.cell slot]) := by
      refine moves_pushAll tidy fun v inside => ?_
      rw [List.mem_singleton.mp inside]
      exact Value.known_cell.mpr (tidy.words _ _ known).1
    simp only
    split
    · exact pushed
    · next given =>
      exact pushed.trans (supervised.moves_executeAddress obeys
        (supervised.starts allowed (.behavior known given)) (pushed.tidy tidy))
  · exact .refl

theorem moves_executeWord {name : String} (allowed : allows depth (.word name) m)
    (tidy : m.Tidy) : Moves permit m (m.executeWord (Host.callHost depth) name).machine := by
  unfold executeWord
  split
  · next entry found =>
    exact supervised.moves_executeEntry obeys (supervised.starts allowed (.word found)) tidy
  · exact .refl

/-! ## Feeding -/

theorem moves_interpretName {name : String} (allowed : allows depth (.token (.word name)) m)
    (tidy : m.Tidy) : Moves permit m (m.interpretName (Host.callHost depth) name).machine := by
  unfold interpretName
  split
  · exact .single (.append trivial)
  · next foreign =>
    split
    · exact .refl
    · next entry found =>
      split
      · exact .refl
      · next w known =>
        split
        · refine .single (.append ?_)
          unfold cellOf
          split <;> trivial
        · next runs =>
          refine supervised.moves_executeEntry obeys (supervised.starts allowed ?_) tidy
          exact .name foreign found known (Bool.eq_false_iff.mpr runs)

theorem moves_interpret {token : Token} (allowed : allows depth (.token token) m) (tidy : m.Tidy)
    (known : token.Known m.bounds) :
    Moves permit m (m.interpret (Host.callHost depth) token).machine := by
  have fed : Moves permit m (m.interpretToken (Host.callHost depth) token).machine := by
    cases token with
    | word name => exact supervised.moves_interpretName obeys allowed tidy
    | datum v =>
      refine moves_interpretLiterals tidy fun w inside => ?_
      rw [List.mem_singleton.mp inside]
      exact known
    | batch values => exact moves_interpretLiterals tidy known
    | malformed content => exact .refl
  unfold interpret
  generalize m.interpretToken (Host.callHost depth) token = o at fed
  cases o with
  | done _ after => exact fed
  | failed f after =>
    simp only [Outcome.onFault, Outcome.machine_failed]
    split
    · exact fed
    · exact fed.trans after.moves_abandonIfCompiling

theorem moves_run (tokens : List Token) (allowed : allows depth (.tokens tokens) m)
    (tidy : m.Tidy) (known : ∀ token ∈ tokens, token.Known m.bounds) :
    Moves permit m (m.run (Host.callHost depth) tokens).machine := by
  induction tokens generalizing m with
  | nil => exact .refl
  | cons token rest ih =>
    rw [List.forall_mem_cons] at known
    have first := supervised.moves_interpret obeys (supervised.starts allowed .firstToken) tidy
      known.1
    refine moves_bind tidy first fun _ after fed moved still => ?_
    refine ih (supervised.starts allowed (.afterToken fed)) still fun token inside => ?_
    exact (known.2 token inside).mono moved.bounds_le

theorem moves_execute {source : String} (allowed : allows depth (.source source) m)
    (tidy : m.Tidy) : Moves permit m (m.execute (Host.callHost depth) source).machine := by
  unfold execute
  split
  · next tokens read =>
    exact supervised.moves_run obeys tokens (supervised.starts allowed (.read read)) tidy
      (Token.known_tokenize _ read)
  · exact .refl

/-! ## Host callables -/

theorem moves_action {action : Host.Action} {rest : List Host.Action}
    (allowed : allows depth (.script (action :: rest)) m) (tidy : m.Tidy) :
    Moves permit m (action.perform (Host.callHost depth) m).machine := by
  cases action with
  | push values =>
    obtain ⟨taken, known⟩ := moves_marking permit tidy
      (Value.makes_copyAll m.slots.size values)
    refine moves_bind tidy taken fun own ready copied _ still => ?_
    exact moves_pushAll still (known own ready copied)
  | run tokens =>
    obtain ⟨taken, known⟩ := moves_marking permit tidy
      (.mapM tokens Token.lasting_known (Token.makes_copy m.slots.size))
    refine moves_bind tidy taken fun own ready copied _ still => ?_
    exact supervised.moves_run obeys own (supervised.starts allowed (.runTokens copied)) still
      (known own ready copied)
  | execute source =>
    exact supervised.moves_execute obeys (supervised.starts allowed .runSource) tidy
  | executeWord name =>
    exact supervised.moves_executeWord obeys (supervised.starts allowed .runWord) tidy
  | executeAddress address =>
    exact supervised.moves_executeAddress obeys (supervised.starts allowed .runCode) tidy
  | dropReturn =>
    simp only [Host.Action.perform]
    split
    · exact moves_books ⟨rfl, rfl, rfl, rfl, rfl, rfl, rfl⟩
    · exact .refl
  | abort => exact m.moves_abort
  | fail f => exact .refl
  | demand text =>
    rcases Host.Action.demand_cases (Host.callHost depth) text m with same | same
    · rw [same]
      exact .refl
    · rw [same]
      exact .refl
  | handle => exact .refl

theorem moves_resumeScript {script : List Host.Action} {o : Outcome Unit}
    (resumes : Activity.Resumes allows depth script o) (tidy : o.machine.Tidy) :
    Moves permit o.machine (Host.resumeScript (Host.callHost depth) script o).machine := by
  fun_induction Host.resumeScript (Host.callHost depth) script o with
  | case1 o => exact .refl
  | case2 action rest m ih =>
    have first := supervised.moves_action obeys resumes tidy
    exact first.trans (ih (Activity.resumes_perform (supervised.starts resumes))
      (first.tidy tidy))
  | case3 action rest f m ih =>
    rw [action.machine_handled f m] at ih
    exact ih (Activity.resumes_failed resumes) tidy

theorem moves_runScript (script : List Host.Action) (allowed : allows depth (.script script) m)
    (tidy : m.Tidy) : Moves permit m (Host.runScript (Host.callHost depth) script m).machine :=
  supervised.moves_resumeScript obeys (o := .done () m) allowed tidy

omit supervised obeys in
/-- What a callable answers is known. -/
theorem makes_answer {arguments : List Value} (answer : Host.Answer)
    (known : ∀ v ∈ arguments, v.Known m.bounds) :
    (answer.evaluate arguments m).Makes m.slots.size
      fun b v => m.bounds ≤ b → v.Known b := by
  cases answer with
  | nothing => exact .pure fun _ _ => Value.known_none
  | arguments =>
    refine .bind Bounds.lasting_mark Value.Marking.makes_takeMark fun mark => ?_
    refine .pure fun b low below => Value.known_list.mpr ⟨low, fun v inside => ?_⟩
    exact (known v inside).mono below
  | returnDepth => exact .pure fun _ _ => Value.known_int _
  | position =>
    refine .pure fun _ _ => ?_
    cases m.ip with
    | none => exact Value.known_none
    | some address => exact Value.known_int _
  | mode => exact .pure fun _ _ => Value.known_bool _
  | value v =>
    intro next own last copied
    obtain ⟨more, holds⟩ := Value.makes_copy m.slots.size v next own last copied
    exact ⟨more, fun _ => holds⟩

omit obeys in
/-- Callables amount to moves, nested to any depth. -/
theorem obeys_callHost (depth : Nat) : Obeys permit allows depth := by
  induction depth with
  | zero => exact fun f arguments m allowed tidy known => .failed _ .refl
  | succ depth ih =>
    intro f arguments m allowed tidy known
    unfold Host.callHost
    split
    · exact .failed _ .refl
    · next bound =>
      have first := supervised.moves_runScript ih f.script
        (supervised.starts allowed (.body bound)) tidy
      cases ran : Host.runScript (Host.callHost depth) f.script m with
      | failed fault after =>
        rw [ran] at first
        exact .failed fault first
      | done _ after =>
        rw [ran] at first
        have first : Moves permit m after := first
        have still : ∀ v ∈ arguments, v.Known after.bounds := fun v inside =>
          (known v inside).mono first.bounds_le
        obtain ⟨taken, answered⟩ := moves_marking permit (first.tidy tidy)
          (makes_answer f.answer still)
        refine ⟨first.trans taken, fun v ended ends => ?_⟩
        have more := Moves.bounds_le taken
        rw [Outcome.bind_done] at ends
        rw [ends] at more
        exact answered v ended ends more

/-! ## The console -/

omit supervised obeys in
theorem moves_recover (fault : Fault) (m : Machine) : Moves permit m (Console.recover fault m) :=
  (moves_tell _ m).trans (moves_abort _)

omit supervised obeys in
theorem moves_report (d : Console.Display) (fault : Fault) (m : Machine) :
    Moves permit m (Console.report d fault m).machine := by
  cases shown : d.showsText (Console.reply fault) with
  | true =>
    rw [Console.report_of_shown shown]
    exact moves_recover fault m
  | false =>
    rw [Console.report_of_not_shown shown]
    exact .refl

omit obeys in
theorem moves_feed {d : Console.Display} {line : String}
    (allowed : allows Host.maxDepth (.source line) m) (tidy : m.Tidy) :
    Moves permit m (Console.feed d line m).machine := by
  have fed := supervised.moves_execute (supervised.obeys_callHost Host.maxDepth) allowed tidy
  unfold Console.feed
  split
  · next after ends =>
    rw [Host.caller] at ends
    rw [ends] at fed
    exact fed
  · next fault after ends =>
    rw [Host.caller] at ends
    rw [ends] at fed
    exact fed.trans (moves_report d fault after)

omit obeys in
theorem moves_converse {d : Console.Display} (inputs : List Console.Input)
    (allowed : allows depth (.prompts d inputs) m) (tidy : m.Tidy) :
    Moves permit m (Console.converse d inputs m).machine := by
  induction inputs generalizing m with
  | nil => exact moves_tell _ m
  | cons input rest ih =>
    have asked : Moves permit m (m.tell (.prompted (Console.prompt m))) := moves_tell _ m
    cases input with
    | interrupt =>
      have recovered := asked.trans (moves_recover (.interrupted "") _)
      rw [Console.converse]
      simp only [Console.report_interrupted]
      refine recovered.trans (ih (supervised.starts allowed .afterInterrupt) ?_)
      exact Moves.tidy tidy recovered
    | line text =>
      rw [Console.converse]
      split
      · exact asked
      · next stays =>
        have stays := Bool.eq_false_iff.mpr stays
        have fed := supervised.moves_feed (d := d) (supervised.starts allowed (.line stays))
          (asked.tidy tidy)
        refine asked.trans (moves_bind (asked.tidy tidy) fed ?_)
        intro _ after ends _ still
        exact ih (supervised.starts allowed (.afterLine stays ends)) still

omit obeys in
theorem moves_dialogue {d : Console.Display} {inputs : List Console.Input}
    (allowed : allows depth (.dialogue d inputs) m) (tidy : m.Tidy) :
    Moves permit m (Console.dialogue d inputs m).machine := by
  rw [Console.dialogue_eq]
  have greeted : Moves permit m (m.tell (.said Console.banner)) := moves_tell _ m
  exact greeted.trans (supervised.moves_converse inputs (supervised.starts allowed .greeting)
    (greeted.tidy tidy))

/-! ## What begins inside -/

omit obeys in
/-- Until an allowed activity starts another one there are only moves, and the other one comes
with known values if the first one did. -/
theorem moves_starts {depth' : Nat} {outer inner : Activity} {m' : Machine}
    (allowed : allows depth outer m) (tidy : m.Tidy) (known : outer.Known m.bounds)
    (starts : outer.Starts depth m depth' inner m') :
    Moves permit m m' ∧ inner.Known m'.bounds := by
  have obeys := supervised.obeys_callHost depth
  cases starts with
  | greeting => exact ⟨moves_tell _ m, trivial⟩
  | line stays => exact ⟨moves_tell _ m, trivial⟩
  | @afterLine _ d text rest _ _ stays fed =>
    have asked : Moves permit m (m.tell (.prompted (Console.prompt m))) := moves_tell _ m
    have first := supervised.moves_feed (d := d) (supervised.starts allowed (.line stays))
      (asked.tidy tidy)
    rw [fed] at first
    exact ⟨asked.trans first, trivial⟩
  | afterInterrupt => exact ⟨(moves_tell _ m).trans (moves_recover _ _), trivial⟩
  | read read => exact ⟨.refl, Token.known_tokenize _ read⟩
  | firstToken => exact ⟨.refl, known _ List.mem_cons_self⟩
  | @afterToken _ t rest _ _ fed =>
    have first := supervised.moves_interpret obeys (supervised.starts allowed .firstToken) tidy
      (known _ List.mem_cons_self)
    rw [fed] at first
    refine ⟨first, fun other inside => ?_⟩
    exact (known other (List.mem_cons_of_mem t inside)).mono (Moves.bounds_le first)
  | name => exact ⟨.refl, trivial⟩
  | word found => exact ⟨.refl, trivial⟩
  | native found => exact ⟨.refl, tidy.words _ _ found⟩
  | colon found => exact ⟨.refl, trivial⟩
  | behavior found given =>
    refine ⟨moves_pushAll tidy fun v inside => ?_, trivial⟩
    rw [List.mem_singleton.mp inside]
    exact Value.known_cell.mpr (tidy.words _ _ found).1
  | run located =>
    have stale : Moves permit m m.discardStale := m.moves_discardStale
    exact ⟨stale.tail (.books ⟨rfl, rfl, rfl, rfl, rfl, rfl, rfl⟩), trivial⟩
  | turn turned =>
    have first := supervised.moves_turn allowed tidy
    rw [turned] at first
    exact ⟨first, trivial⟩
  | enter turned => exact supervised.moves_handover allowed tidy turned
  | afterEntry turned called =>
    have both := supervised.moves_enter obeys allowed tidy turned
    rw [called] at both
    exact ⟨both, trivial⟩
  | @host _ _ n _ _ kind enough =>
    obtain ⟨values, left⟩ := tidy.take n.arity
    exact ⟨moves_reckons left, values⟩
  | body bound => exact ⟨.refl, trivial⟩
  | @runTokens _ ts own _ _ ready copied =>
    obtain ⟨taken, all⟩ := moves_marking permit tidy
      (.mapM ts Token.lasting_known (Token.makes_copy m.slots.size))
    rw [copied] at taken
    exact ⟨taken, all own _ copied⟩
  | runSource => exact ⟨.refl, trivial⟩
  | runWord => exact ⟨.refl, trivial⟩
  | runCode => exact ⟨.refl, trivial⟩
  | afterAction performed =>
    have first := supervised.moves_action obeys allowed tidy
    rw [performed] at first
    exact ⟨first, trivial⟩
  | afterFailure failed =>
    have first := supervised.moves_action obeys allowed tidy
    rw [failed] at first
    exact ⟨first, trivial⟩

end Supervised

/-! ## Operations -/

/-- The value that an item is, if it is one, is known. -/
def Host.Item.Known (b : Bounds) : Host.Item → Prop
  | .value v => v.Known b
  | .callable _ => True

namespace Host.Item

theorem Known.mono {b c : Bounds} (below : b ≤ c) {item : Host.Item} (known : item.Known b) :
    item.Known c := by
  cases item with
  | value v => exact Value.Known.mono below known
  | callable f => trivial

theorem lasting_known : Bounds.Lasting fun b (item : Host.Item) => item.Known b :=
  fun _ _ _ below known => known.mono below

theorem makes_copy (slots : Nat) (item : Host.Item) :
    (item.copy slots).Makes slots fun b own => own.Known b := by
  cases item with
  | callable f => exact .pure fun _ => trivial
  | value v =>
    exact .bind Bounds.lasting_known (Value.makes_copy slots v) fun _ => .pure fun _ => id

end Host.Item

/-- The item that an attribute holds, if it can be read, is known. -/
def Host.Attribute.Known (b : Bounds) : Host.Attribute → Prop
  | .item i => i.Known b
  | .failing _ => True

namespace Host.Attribute

theorem lasting_known : Bounds.Lasting fun b (own : Host.Attribute) => own.Known b := by
  intro b c own below known
  cases own with
  | item i => exact Host.Item.Known.mono below known
  | failing reason => trivial

theorem makes_copy (slots : Nat) (own : Host.Attribute) :
    (own.copy slots).Makes slots fun b copied => copied.Known b := by
  cases own with
  | item i =>
    exact .bind Host.Item.lasting_known (i.makes_copy slots) fun _ => .pure fun _ => id
  | failing reason => exact .pure fun _ => trivial

end Host.Attribute

namespace Machine

variable {permit : Permit} {m : Machine}

theorem moves_importItem (name : String) {item : Host.Item} (known : item.Known m.bounds) :
    Moves permit m (m.importItem name item).machine := by
  unfold importItem
  split
  · next v =>
    refine moves_install _ fun w same => ?_
    cases same
    exact known
  · next f =>
    split
    · next entry after made =>
      obtain ⟨arity, _, made⟩ := exists_of_bind_ok made
      cases made
      exact moves_install _ nofun
    · split
      · exact moves_note ..
      · exact .refl

theorem moves_importItems (items : List (String × Host.Item)) (m : Machine)
    (known : ∀ pair ∈ items, pair.2.Known m.bounds) :
    Moves permit m (importItems items m).machine := by
  induction items generalizing m with
  | nil => exact .refl
  | cons pair rest ih =>
    rw [List.forall_mem_cons] at known
    have first : Moves permit m (m.importItem pair.1 pair.2).machine :=
      moves_importItem pair.1 known.1
    rw [importItems]
    cases ends : m.importItem pair.1 pair.2 with
    | failed fault after =>
      rw [ends] at first
      exact first
    | done entry after =>
      rw [ends] at first
      rw [Outcome.bind_done, Outcome.machine_map]
      exact first.trans (ih _ fun other inside =>
        (known.2 other inside).mono (Moves.bounds_le first))

theorem moves_importWords {items : List (Value × Host.Item)}
    (known : ∀ pair ∈ items, pair.2.Known m.bounds) :
    Moves permit m (m.importWords items).machine := by
  unfold importWords
  split
  · exact .refl
  · next named checked =>
    exact moves_importItems named m fun pair inside =>
      (forall_mem_checkNames known checked pair inside).2

theorem moves_importObject {attributes : List (String × Host.Attribute)}
    (known : ∀ own ∈ attributes, own.2.Known m.bounds) :
    Moves permit m (m.importObject attributes).machine := by
  unfold importObject
  split
  · exact .refl
  · next items read =>
    refine moves_importWords (Host.forall_mem_objectItems (fun own inside item same => ?_) read)
    have held := known own inside
    rw [same] at held
    exact held

theorem moves_defineNative (name : Value) (item : Host.Item) (options : Host.Options)
    (m : Machine) : Moves permit m (m.defineNative name item options).machine := by
  unfold defineNative
  split
  · exact .refl
  · split
    · exact .refl
    · split
      · next made =>
        obtain ⟨arity, _, made⟩ := exists_of_bind_ok made
        cases made
        exact moves_install _ nofun
      · exact .refl

theorem moves_defineConstant (name : Value) {v : Value} (known : v.Known m.bounds) :
    Moves permit m (m.defineConstant name v).machine := by
  unfold defineConstant
  split
  · exact .refl
  · refine moves_install _ fun w same => ?_
    cases same
    exact known

theorem moves_ofStore {α : Type} {work : Except Fault (α × Store)}
    (reckons : ∀ a s, work = .ok (a, s) → m.toStore.Reckons s) :
    Moves permit m (Outcome.ofStore m work).machine := by
  cases ends : work with
  | ok result => exact moves_reckons (reckons result.1 result.2 ends)
  | error f => exact .refl

theorem moves_whole {α : Type} {r : Routine Store α} {work : Store → Except Fault (α × Store)}
    (same : r = .whole work) (reckons : ∀ a s, work m.toStore = .ok (a, s) → m.toStore.Reckons s) :
    Moves permit m (Session.onStore r m).machine := by
  rw [Session.onStore_whole same]
  exact moves_ofStore reckons

theorem moves_change {r : Routine Store Unit} {work : Store → Except Fault Store}
    (same : r = .change work) (reckons : ∀ s, work m.toStore = .ok s → m.toStore.Reckons s) :
    Moves permit m (Session.onStore r m).machine := by
  refine moves_whole same fun a s made => ?_
  obtain ⟨t, ends, made⟩ := exists_of_map_ok made
  cases made
  exact reckons s ends

theorem machine_ofExcept {α : Type} (work : Except Fault α) :
    (Outcome.ofExcept m work).machine = m := by
  cases work with
  | ok a => rfl
  | error f => rfl

end Machine

namespace Session

open Machine

/-- The values that come with the operation are known. -/
def Operation.Known (b : Bounds) : Operation → Prop
  | run tokens => ∀ token ∈ tokens, token.Known b
  | interpret token => token.Known b
  | define name tokens => name.Known b ∧ ∀ token ∈ tokens, token.Known b
  | feed values | push values | appendCell values => ∀ v ∈ values, v.Known b
  | defineConstant _ value => value.Known b
  | importMapping pairs => ∀ pair ∈ pairs, pair.2.Known b
  | importObject attributes => ∀ pair ∈ attributes, pair.2.Known b
  | _ => True

theorem Operation.makes_copyOptions (slots : Nat) (options : Host.Options) :
    (options.copy slots).Makes slots fun _ _ => True := by
  unfold Host.Options.copy
  split
  · exact .pure fun _ => trivial
  · next v _ => exact .andThen (v.makes_copy slots) fun _ => .pure fun _ => trivial

theorem Operation.makes_copyPair (slots : Nat) (name : Value) (item : Host.Item) :
    (Host.copyPair slots name item).Makes slots fun b own => own.2.Known b := by
  refine .andThen (name.makes_copy slots) fun ownName => ?_
  refine .bind Host.Item.lasting_known (item.makes_copy slots) fun ownItem => ?_
  split
  · exact .pure fun _ => id
  · exact .throw

/-- The values of an operation are known when they have been copied. -/
theorem Operation.makes_copy (slots : Nat) (operation : Operation) :
    (operation.copy slots).Makes slots fun b own => own.Known b := by
  have tokens := fun ts => Value.Marking.Makes.mapM ts Token.lasting_known (Token.makes_copy slots)
  have pairs : ∀ {α : Type}, Bounds.Lasting fun b (pair : α × Host.Item) => pair.2.Known b :=
    fun _ _ _ below known => known.mono below
  have owned : Bounds.Lasting fun b (own : String × Host.Attribute) => own.2.Known b :=
    fun _ _ own below known => Host.Attribute.lasting_known _ _ own.2 below known
  cases operation with
  | run ts => exact .bind Token.lasting_known.all (tokens ts) fun _ => .pure fun _ => id
  | interpret token =>
    exact .bind Token.lasting_known (token.makes_copy slots) fun _ => .pure fun _ => id
  | define name ts =>
    refine .bind Bounds.lasting_known (name.makes_copy slots) fun own => ?_
    exact .bind Token.lasting_known.all (tokens ts) fun _ => .pure fun _ all known => ⟨known, all⟩
  | feed values | push values | appendCell values =>
    exact .bind Bounds.lasting_known.all (Value.makes_copyAll slots values)
      fun _ => .pure fun _ => id
  | pop v | gather v | pluck v | pick v | lookup v | executeAddress v =>
    exact .andThen (v.makes_copy slots) fun _ => .pure fun _ => trivial
  | defineNative name item options =>
    refine .andThen (name.makes_copy slots) fun _ => .andThen (item.makes_copy slots) fun _ => ?_
    exact .andThen (makes_copyOptions slots options) fun _ => .pure fun _ => trivial
  | defineConstant name v =>
    refine .andThen (name.makes_copy slots) fun _ => ?_
    exact .bind Bounds.lasting_known (v.makes_copy slots) fun _ => .pure fun _ => id
  | importMapping items =>
    refine .bind pairs.all (.mapM items pairs fun pair => ?_) fun _ => .pure fun _ => id
    exact makes_copyPair slots pair.1 pair.2
  | importObject attributes =>
    refine .bind owned.all (.mapM attributes owned fun own => ?_) fun _ => .pure fun _ => id
    exact .bind Host.Attribute.lasting_known (own.2.makes_copy slots) fun _ => .pure fun _ => id
  | _ => exact .pure fun _ => trivial

/-- What an operation starts comes with the values of the operation. -/
theorem Operation.known_activity {operation : Operation} {activity : Activity} {b : Bounds}
    (amounts : operation.activity? = some activity) (known : operation.Known b) :
    activity.Known b := by
  cases operation with
  | run tokens => exact Option.some.inj amounts ▸ known
  | interpret token => exact Option.some.inj amounts ▸ known
  | define name tokens =>
    rw [← Option.some.inj amounts]
    intro token inside
    simp only [List.cons_append, List.mem_cons, List.mem_append, List.not_mem_nil, or_false]
      at inside
    rcases inside with rfl | rfl | own | rfl
    · exact fun v inside => (List.mem_singleton.mp inside) ▸ known.1
    · trivial
    · exact known.2 token own
    · trivial
  | feed values =>
    simp only [activity?] at amounts
    split at amounts
    · cases amounts
    · rw [← Option.some.inj amounts]
      exact fun token inside => (List.mem_singleton.mp inside) ▸ known
  | execute source | executeWord name | executeAddress address | converse d inputs =>
    rw [← Option.some.inj amounts]
    trivial
  | _ => cases amounts

/-- An operation whose activity is allowed amounts to moves. -/
theorem Operation.moves_carryOut {permit : Permit} {allows : Nat → Activity → Machine → Prop}
    {operation : Operation} {m : Machine} (supervised : Supervised permit allows)
    (allowed : ∀ activity, operation.activity? = some activity → allows Host.maxDepth activity m)
    (tidy : m.Tidy) (known : operation.Known m.bounds) :
    Moves permit m (operation.carryOut m).machine := by
  have obeys := supervised.obeys_callHost Host.maxDepth
  cases operation with
  | execute source =>
    rw [carryOut, Result.ofSelf, Outcome.machine_map]
    exact supervised.moves_execute obeys (allowed _ rfl) tidy
  | run tokens =>
    rw [carryOut, Result.ofSelf, Outcome.machine_map]
    exact supervised.moves_run obeys tokens (allowed _ rfl) tidy known
  | interpret token =>
    rw [carryOut, Result.ofSelf, Outcome.machine_map]
    exact supervised.moves_interpret obeys (allowed _ rfl) tidy known
  | define name tokens =>
    rw [carryOut, Result.ofSelf, Outcome.machine_map]
    have amounts : (Operation.define name tokens).activity? = some (.tokens _) := rfl
    exact supervised.moves_run obeys _ (allowed _ amounts) tidy (known_activity amounts known)
  | feed values =>
    rw [carryOut, Result.ofSelf, Outcome.machine_map, Session.feed]
    split
    · exact .refl
    · next some_ =>
      have amounts : (Operation.feed values).activity? = some (.tokens [.batch values]) :=
        if_neg some_
      exact supervised.moves_run obeys _ (allowed _ amounts) tidy (known_activity amounts known)
  | push values => exact moves_pushAll tidy known
  | pop count =>
    rw [carryOut, Result.ofValue, Outcome.machine_map]
    exact moves_whole (Routine.pop_eq count) fun _ _ => tidy.pop
  | gather count =>
    rw [carryOut, Result.ofNothing, Outcome.machine_map]
    exact moves_change (Routine.gather_eq count) fun _ => tidy.gather
  | pluck index =>
    rw [carryOut, Result.ofValue, Outcome.machine_map]
    exact moves_whole (Routine.pluck_eq index) fun _ _ plucked => (tidy.pluck plucked).2
  | pick index =>
    rw [carryOut, Result.ofValue, Outcome.machine_map, Session.pick, machine_ofExcept]
  | peek => rw [carryOut, Result.ofValue, Outcome.machine_map, Session.peek, machine_ofExcept]
  | depth => exact .refl
  | clear => exact moves_reckons (Store.Tidy.reckons_stack nofun)
  | swap =>
    rw [carryOut, Result.ofNothing, Outcome.machine_map]
    exact moves_change Routine.swap_eq fun _ => tidy.swap
  | drop =>
    rw [carryOut, Result.ofNothing, Outcome.machine_map]
    exact moves_change Routine.drop_eq fun _ => tidy.drop
  | spread =>
    rw [carryOut, Result.ofNothing, Outcome.machine_map]
    exact moves_change Routine.spread_eq fun _ => tidy.spread
  | here => exact .refl
  | abort => exact m.moves_abort
  | lookup name =>
    rw [carryOut, Result.ofEntry, Outcome.machine_map]
    unfold Session.lookup
    split
    · rw [machine_ofExcept]
    · exact .refl
  | executeWord name =>
    rw [carryOut, Result.ofSelf, Outcome.machine_map]
    exact supervised.moves_executeWord obeys (allowed _ rfl) tidy
  | executeAddress address =>
    rw [carryOut, Result.ofSelf, Outcome.machine_map]
    exact supervised.moves_executeAddress obeys (allowed _ rfl) tidy
  | defineNative name item options =>
    rw [carryOut, Result.ofEntry, Outcome.machine_map]
    exact moves_defineNative name item options m
  | defineConstant name v =>
    rw [carryOut, Result.ofEntry, Outcome.machine_map]
    exact moves_defineConstant name known
  | importMapping pairs =>
    rw [carryOut, Result.ofEntries, Outcome.machine_map]
    exact moves_importWords (Host.forall_mem_collect known)
  | importObject attributes =>
    rw [carryOut, Result.ofEntries, Outcome.machine_map]
    exact moves_importObject known
  | setCompiling on => exact moves_books ⟨rfl, rfl, rfl, rfl, rfl, rfl, rfl⟩
  | appendCell items => exact .single (.append (Cell.known_ofItems known))
  | describe => exact .refl
  | converse d script =>
    rw [carryOut, Result.ofSelf, Outcome.machine_map]
    exact supervised.moves_dialogue (allowed _ rfl) tidy

/-- The values of an operation are copied before it begins. -/
theorem moves_ready (permit : Permit) {operation own : Operation} {m ready : Machine}
    (tidy : m.Tidy) (copied : m.marking (operation.copy m.slots.size) = .done own ready) :
    Moves permit m ready ∧ own.Known ready.bounds := by
  obtain ⟨taken, known⟩ := moves_marking permit tidy (operation.makes_copy m.slots.size)
  rw [copied] at taken
  exact ⟨taken, known own ready copied⟩

section

variable {permit : Permit} {session : List Operation} {start : Machine}

variable (supervised : Supervised permit (Begins session start)) (tidy : start.Tidy)

include supervised tidy

/-- The first operations of a session whose activities are supervised amount to moves. -/
theorem moves_play_of_append {before after : List Operation} (order : session = before ++ after) :
    Moves permit start (play before start) := by
  induction before using List.reverseRecOn generalizing after with
  | nil => exact .refl
  | append_singleton before operation ih =>
    have order : session = before ++ operation :: after := by simpa using order
    have passed := ih order
    have still := passed.tidy tidy
    have performed : Moves permit (play before start)
        (operation.perform (play before start)).machine := by
      refine moves_bind still (moves_marking permit still (operation.makes_copy _)).1 ?_
      intro own ready copied _ tidy
      refine own.moves_carryOut supervised (fun activity amounts => ?_) tidy
        (moves_ready permit still copied).2
      exact .operation order copied amounts
    simpa [play] using passed.trans performed

/-- A session whose activities are supervised amounts to moves. -/
theorem moves_play : Moves permit start (play session start) :=
  moves_play_of_append supervised tidy (List.append_nil session).symm

/-- Whatever begins in a session whose activities are supervised, only moves have been made
until then. -/
theorem Begins.moves {depth : Nat} {activity : Activity} {m : Machine}
    (begun : Begins session start depth activity m) :
    Moves permit start m ∧ activity.Known m.bounds := by
  induction begun with
  | operation order copied amounts =>
    have passed := moves_play_of_append supervised tidy order
    obtain ⟨taken, known⟩ := moves_ready permit (passed.tidy tidy) copied
    exact ⟨passed.trans taken, Operation.known_activity amounts known⟩
  | inner around starts ih =>
    obtain ⟨passed, known⟩ := ih
    obtain ⟨more, known⟩ := supervised.moves_starts around (passed.tidy tidy) known starts
    exact ⟨passed.trans more, known⟩

end

/-- Everything may be stored into, and every word may be given a behavior. -/
def anywhere : Permit := ⟨fun _ => True, fun _ => True⟩

theorem supervised_anywhere {allows : Nat → Activity → Machine → Prop}
    (starts : ∀ {depth depth' : Nat} {activity inner : Activity} {m m' : Machine},
      allows depth activity m → activity.Starts depth m depth' inner m' →
      allows depth' inner m') : Supervised anywhere allows :=
  ⟨starts, fun _ _ => trivial, fun _ _ => trivial⟩

/-- A machine that has only its built-in words is tidy. -/
theorem tidy_bare (capacity : Int) (verbose : Bool) : (Machine.bare capacity verbose).Tidy := by
  refine ⟨⟨nofun, fun v inside => absurd inside (Array.not_mem_empty v)⟩,
    fun cell inside => absurd inside (Array.not_mem_empty cell), fun entry w known => ?_⟩
  have builtin : ∀ w ∈ Builtin.words, w.body.Known (Machine.bare capacity verbose).bounds := by
    simp [Builtin.words, Builtin.stackWords, Builtin.compilingWords, Builtin.memoryWords,
      Builtin.definingWords, Builtin.valueWords, Builtin.outputWords, Builtin.plain,
      Builtin.passing, Builtin.ofPrimitive, Builtin.ofDirective, Body.Known]
  exact builtin w (List.mem_toArray.mp (Array.mem_of_getElem? known))

/-- A machine that is ready for use is tidy. -/
theorem tidy_fresh (capacity : Int) (withPrelude verbose : Bool) :
    (fresh capacity withPrelude verbose).Tidy := by
  have bare := tidy_bare capacity verbose
  have loaded : Moves anywhere (Machine.bare capacity verbose) (if withPrelude then
      ((Machine.bare capacity verbose).execute Host.caller Builtin.prelude).machine
      else Machine.bare capacity verbose) := by
    have supervised : Supervised anywhere fun _ _ _ => True :=
      supervised_anywhere fun _ _ => trivial
    split
    · exact supervised.moves_execute (supervised.obeys_callHost _) trivial bare
    · exact .refl
  exact Moves.tidy bare (loaded.trans (moves_note ..))

/-- Whatever a session does, it leaves a tidy machine. -/
theorem tidy_play (session : List Operation) {start : Machine} (tidy : start.Tidy) :
    (play session start).Tidy :=
  (moves_play (supervised_anywhere .inner) tidy).tidy tidy

end Session
end ThreadedForth
