import ThreadedForth.Proofs.Balance
import ThreadedForth.Proofs.Keeping
import ThreadedForth.Proofs.Prelude

/-!
# Constants stay constant

A word that `constant` has made still pushes its value after any session
(`Session.constant_stays`), under the conditions with which the cell of the word stays hidden.
When the word has been made its slot is a new one, so that nothing leads to it
(`Machine.Made.keeps`).  A session keeps it hidden (`Session.keeps_play`), and as long as it is
hidden the word does what it should (`Machine.Keeps.executeEntry`).

Two of the conditions are there because the statement fails without them
(`Session.constant_differs_leaked`).  A word that is run where there is no room for its call
leaves its cell on the data stack, from where the next operation can use it.  And whoever holds
the cell outside the machine can hand it in.
-/

namespace ThreadedForth

namespace Machine

/-! ## Making and running a constant -/

variable {c : Constant} {m after : Machine} {v : Value} {name : String} {address : Nat}

/-- The factory for constants, when it succeeds, has made a word. -/
theorem MakesConstants.made {call : Caller} {factory word : String} {entry : Nat}
    {immediate : Bool} (makes : m.MakesConstants address) (idle : m.compiling = false)
    (found : m.dictionary.find? factory = some entry)
    (known : m.dictionary.get? entry = some ⟨word, immediate, .colon address⟩)
    (valid : Text.allBlank name.toList = false)
    (done : m.run call [.batch [v, .text name], .word factory] = .done () after) :
    m.Made name v (address + 4 : Nat) after := by
  rw [run_batch_colon call _ idle found known] at done
  obtain ⟨notes, follows⟩ :=
    executeAddress_evaluates call address (m.toStore.pushAll [v, .text name]) m.returns
  have follows : m.Follows ((m.pushAll [v, .text name]).executeAddress call (.int address))
      (m.eval _ address ((m.toStore.renoted notes).pushAll [v, .text name])) := follows
  obtain ⟨notes', evaluated⟩ := makes.factory.eval (s := m.toStore.renoted notes) valid rfl _
  rw [evaluated] at follows
  obtain ⟨returns, ends⟩ := follows
  rw [ends] at done
  cases done
  exact ⟨returns, notes', rfl⟩

/-- A word that has just been made is kept: its slot is a new one, so that no value that there
was before leads to it. -/
theorem Made.keeps (tidy : m.Tidy) (makes : m.MakesConstants address) (known : v.Known m.bounds)
    (came : m.Made name v (address + 4 : Nat) after) :
    ∃ loader, after.Keeps ⟨name, v, m.dictionary.size, m.slots.size, address + 4, loader⟩ := by
  obtain ⟨returns, notes, rfl⟩ := came
  obtain ⟨loader, word, immediate, loads, known_loader⟩ := makes.loads
  refine ⟨loader, ⟨fun w inside => (tidy.stack w inside).avoids (Nat.le_refl _), ?_⟩, ?_,
    ⟨?_, ?_, ?_⟩, ⟨loads, makes.leaves, ?_⟩⟩
  · intro w inside
    rcases Array.mem_push.mp inside with old | rfl
    · exact (tidy.slots w old).avoids (Nat.le_refl _)
    · exact known.avoids (Nat.le_refl _)
  · exact Array.getElem?_push_size
  · exact ⟨false, m.dictionary.get?_push_size _⟩
  · refine ⟨word, immediate, ?_⟩
    exact (Dictionary.get?_push_of_lt _ (Dictionary.get?_eq_some_iff_lt.mp ⟨_, known_loader⟩)).trans
      known_loader
  · intro entry w found other
    rcases Dictionary.get?_push found with old | ⟨new, -⟩
    · exact (tidy.words entry w old).avoids (Nat.le_refl _)
    · exact absurd new other
  · exact fun cell inside => (tidy.code cell inside).avoids (Nat.le_refl _)

/-- A constant that is kept pushes its value. -/
theorem Keeps.executeEntry (keeps : m.Keeps c) (call : Caller) :
    ∃ returns notes, m.executeEntry call c.entry =
      .done () { m with stack := m.stack.push c.value, returns := returns, journal := notes } := by
  obtain ⟨immediate, word⟩ := keeps.dictionary.word
  rw [executeEntry_behavior call word]
  obtain ⟨notes, stale⟩ := discardStale_eq (m.pushAll [.cell c.slot])
  let returns : Stack Int := if m.ip = none then .empty else m.returns
  refine ⟨returns, notes, ?_⟩
  let before : Machine := { m with returns := returns, journal := notes }
  have ready : before.Keeps c := keeps.sameHoldings ⟨rfl, rfl, rfl, rfl, rfl, rfl, rfl⟩
  -- the cell is exchanged for the value, and then the behavior is left
  let loaded : Machine := (before.pushAll [c.value]).moved (c.address + 1)
  have exits : loaded.turn returns.depth = .halt { before.pushAll [c.value] with ip := none } := by
    have fetched : loaded.fetch (c.address + 1 : Nat) = .ok .exit :=
      fetch_eq_ok_iff.mpr ready.code.leaves
    rw [turn_of_fetched rfl fetched]
    exact stepExit_of_level rfl
  rcases executeAddress_cases call (.int c.address) (m.pushAll [.cell c.slot]) with
    ⟨f, missing, -⟩ | ⟨place, located, ends⟩
  · cases missing
  · cases located
    rw [stale] at ends
    rw [ends]
    show (loop call returns.depth maxEntries (entering c before)).adjust _ = _
    have one : m.stack.pushAll [c.value] = m.stack.push c.value := by
      ext
      rfl
    rw [loop_of_next call (ready.turn_entering returns.depth), loop_of_halt call exits, ← one]
    rfl

end Machine

namespace Session

open Machine

variable {session before : List Operation} {capacity : Int} {verbose : Bool} {m made : Machine}

/-- Whatever goes on in the session, no host callable is called, and the word is given no
behavior. -/
structure Respects (session : List Operation) (start : Machine) (entry : Nat) : Prop where
  hosts {depth : Nat} {f : Host.Callable} {arguments : List Value} {m : Machine} :
    ¬ Begins session start depth (.callable f arguments) m
  binds {depth base credit : Nat} {m : Machine} :
    Begins session start depth (.turns base credit) m → ¬ m.TurnBinds entry

/-- Wherever compiled code runs the word there is room for one more call. -/
def HasRoom (session : List Operation) (start : Machine) (entry : Nat) : Prop :=
  ∀ depth base credit m, Begins session start depth (.turns base credit) m →
    m.current? = some (.created entry) → m.returns.depth < m.capacity

/-- Running the word pushes the value, and that is all. -/
def Pushes (name : String) (v : Value) (m : Machine) : Prop :=
  ∃ ended returns notes,
    ended = { m with stack := m.stack.push v, returns := returns, journal := notes } ∧
    executeWord name m = .done () ended ∧
    (m.compiling = false → run [.word name] m = .done () ended)

/-- Constants stay constant.  Take any state that a session has reached, in which nothing is
being compiled and `constant` means the word of the prelude, and let it make a word from a value
and a name.  Then let a session of source texts and tokens go on from there.  Operations may
fail in it, but it is not handed the cell of the word, it respects the word, and there is room
for the calls of the word.  If the name still means the word, running it pushes the value. -/
theorem constant_stays {name : String} {v : Value}
    (reached : m = play before (fresh capacity true verbose)) (idle : m.compiling = false)
    (meant : m.dictionary.find? "constant" =
      (fresh capacity true verbose).dictionary.find? "constant")
    (valid : Text.allBlank name.toList = false) (known : v.Known m.bounds)
    (done : run [.batch [v, .text name], .word "constant"] m = .done () made)
    (feeds : ∀ operation ∈ session, operation.FeedsWithout m.slots.size)
    (respects : Respects session made m.dictionary.size)
    (room : HasRoom session made m.dictionary.size)
    (stays : (play session made).dictionary.find? name = some m.dictionary.size) :
    Pushes name v (play session made) := by
  obtain ⟨entry, address, immediate, found, word, makes⟩ :=
    makesConstants_play before capacity verbose
  rw [← reached] at word makes
  have tidy : m.Tidy := reached ▸ tidy_play before (tidy_fresh capacity true verbose)
  have came := makes.made idle (meant.trans found) word valid done
  obtain ⟨loader, keeps⟩ := came.keeps tidy makes known
  have guarded : Guarded ⟨name, v, m.dictionary.size, m.slots.size, address + 4, loader⟩
      (Begins session made) := ⟨.inner, respects.hosts, respects.binds, room _ _ _ _⟩
  have kept := keeps_play guarded feeds keeps (List.append_nil session).symm
  obtain ⟨returns, notes, pushed⟩ := kept.executeEntry Host.caller
  refine ⟨_, returns, notes, rfl, ?_, fun still => ?_⟩
  · have looked : (play session made).lookup name = .ok m.dictionary.size := by
      rw [Store.lookup, stays]
    rw [executeWord, Machine.executeWord, looked]
    exact pushed
  · obtain ⟨marked, word⟩ := kept.dictionary.word
    rw [run, Machine.run, Machine.interpret, interpretToken,
      interpretName_of_idle _ still stays word, pushed]
    rfl

/-- What a machine with room for one call holds when it has read the prelude. -/
def preluded : Machine :=
  { Machine.bare 1 false with
    dictionary := [⟨"dup", false, .colon 0⟩, ⟨"over", false, .colon 3⟩,
      ⟨"variable", false, .colon 6⟩, ⟨"constant", false, .colon 9⟩].foldl .push
        (Machine.bare 1 false).dictionary
    lastDefined := some 43
    barrier := 13
    code := #[.literal [.int 0], .native 5, .exit, .literal [.int 1], .native 5, .exit,
      .native 18, .native 15, .exit, .native 18, .native 15, .does 13, .exit, .native 14, .exit] }

theorem fresh_one : fresh 1 true false = preluded := by
  have read : (Machine.bare 1 false).execute Host.caller Builtin.prelude =
      (Machine.bare 1 false).run Host.caller (Builtin.preludeTokens ++ Builtin.constantTokens) := by
    rw [Machine.execute, Builtin.tokenize_prelude]
  have ran : ((Machine.bare 1 false).run Host.caller
      (Builtin.preludeTokens ++ Builtin.constantTokens)).machine = preluded := by decide +kernel
  rw [fresh, if_pos rfl, read, ran]
  rfl

/-- The machine with the constant `n`. -/
def withFive : Machine :=
  { preluded with
    slots := #[.int 5]
    dictionary := preluded.dictionary.push ⟨"n", false, .created 0 (.int 13)⟩
    lastCreated := some 44
    lastDefined := some 44 }

theorem run_withFive :
    run [.batch [.int 5, .text "n"], .word "constant"] preluded = .done () withFive := by
  have found : preluded.dictionary.find? "constant" = some 43 := by decide +kernel
  have ended := executeAddress_of_halt Host.caller 3 (9 : Nat)
    (preluded.pushAll [.int 5, .text "n"]) { withFive with ip := none } rfl
  rw [run, run_batch_colon Host.caller _ rfl found rfl, ended]
  rfl

/-- A session that runs the constant, and takes its value for a cell. -/
def misusing : List Operation := [.run [.word "n", .word "+"]]

/-- The machine after the first token. -/
def pushedFive : Machine := { withFive with stack := Stack.empty.push (.int 5) }

theorem interpret_n (call : Caller) :
    withFive.interpret call (.word "n") = .done () pushedFive := by
  have found : withFive.dictionary.find? "n" = some 44 := by decide +kernel
  have known : withFive.dictionary.get? 44 = some ⟨"n", false, .created 0 (.int 13)⟩ := rfl
  have ended := executeAddress_of_halt call 1 13 (withFive.pushAll [.cell 0])
    { pushedFive with ip := none } rfl
  rw [Machine.interpret, interpretToken, interpretName_of_idle call rfl found known,
    executeEntry_behavior call known, ended]
  rfl

theorem interpret_plus (call : Caller) :
    ∃ f, pushedFive.interpret call (.word "+") = .failed f pushedFive := by
  refine ⟨.short 2 1 (some "+"), ?_⟩
  show Outcome.onFault abandonIfCompiling (.failed (.short 2 1 (some "+")) pushedFive) = _
  rw [Outcome.onFault, Fault.isInterrupt_short]
  rfl

/-- What goes on in that session. -/
inductive Misused : Activity → Machine → Prop where
  | tokens : Misused (.tokens [.word "n", .word "+"]) withFive
  | n : Misused (.token (.word "n")) withFive
  | created : Misused (.entry 44) withFive
  | behavior : Misused (.code (.int 13)) (withFive.pushAll [.cell 0])
  | entering (credit : Nat) :
      Misused (.turns 0 credit) ((withFive.pushAll [.cell 0]).moved 13)
  | leaving (credit : Nat) : Misused (.turns 0 credit) (pushedFive.moved 14)
  | rest : Misused (.tokens [.word "+"]) pushedFive
  | plus : Misused (.token (.word "+")) pushedFive
  | native : Misused (.entry 22) pushedFive
  | called : Misused (.native "+" ⟨.primitive .add, 2, false⟩) pushedFive

/-- After a turn that goes on, the run goes on with it and nothing else begins. -/
theorem starts_of_next {depth depth' base credit : Nat} {activity : Activity}
    {m m' after : Machine} (turned : m.turn base = .next after)
    (starts : Activity.Starts depth (.turns base credit) m depth' activity m') :
    activity = .turns base credit ∧ m' = after := by
  cases starts with
  | turn next =>
    cases turned.symm.trans next
    exact ⟨rfl, rfl⟩
  | enter next => cases turned.symm.trans next
  | afterEntry next _ => cases turned.symm.trans next

/-- After a turn that ends the run nothing begins in it. -/
theorem not_starts_of_halt {depth depth' base credit : Nat} {activity : Activity}
    {m m' after : Machine} (turned : m.turn base = .halt after) :
    ¬ Activity.Starts depth (.turns base credit) m depth' activity m' := by
  intro starts
  cases starts with
  | turn next => cases turned.symm.trans next
  | enter next => cases turned.symm.trans next
  | afterEntry next _ => cases turned.symm.trans next

theorem Misused.starts {depth depth' : Nat} {outer activity : Activity} {m m' : Machine}
    (around : Misused outer m) (starts : outer.Starts depth m depth' activity m') :
    Misused activity m' := by
  cases around with
  | tokens =>
    cases starts with
    | firstToken => exact .n
    | afterToken fed =>
      rw [interpret_n] at fed
      cases fed
      exact .rest
  | n =>
    cases starts with
    | name _ found _ _ =>
      have looked : withFive.lookup "n" = .ok 44 := by decide +kernel
      rw [looked] at found
      cases found
      exact .created
  | created =>
    cases starts with
    | native known => cases known
    | colon known => cases known
    | behavior known given =>
      cases known
      exact .behavior
  | behavior =>
    cases starts with
    | run located =>
      cases located
      exact .entering _
  | entering credit =>
    have turned : ((withFive.pushAll [.cell 0]).moved 13).turn 0 = .next (pushedFive.moved 14) :=
      rfl
    obtain ⟨rfl, rfl⟩ := starts_of_next turned starts
    exact .leaving credit
  | leaving credit =>
    have turned : (pushedFive.moved 14).turn 0 = .halt { pushedFive with ip := none } := rfl
    exact absurd starts (not_starts_of_halt turned)
  | rest =>
    cases starts with
    | firstToken => exact .plus
    | afterToken fed =>
      obtain ⟨f, failed⟩ := interpret_plus (Host.callHost depth)
      rw [failed] at fed
      cases fed
  | plus =>
    cases starts with
    | name _ found _ _ =>
      have looked : pushedFive.lookup "+" = .ok 22 := by decide +kernel
      rw [looked] at found
      cases found
      exact .native
  | native =>
    cases starts with
    | native known =>
      cases known
      exact .called
    | colon known => cases known
    | behavior known given => cases known
  | called =>
    cases starts with
    | host kind _ => cases kind

theorem misused_of_begins {depth : Nat} {activity : Activity} {m : Machine}
    (begun : Begins misusing withFive depth activity m) : Misused activity m := by
  induction begun with
  | @operation before after operation own ready activity order copied amounts =>
    cases before with
    | cons _ rest => simp [misusing] at order
    | nil =>
      cases order
      cases copied
      cases amounts
      exact .tokens
  | inner around starts ih => exact ih.starts starts

theorem play_misusing : play misusing withFive = pushedFive := by
  obtain ⟨f, failed⟩ := interpret_plus Host.caller
  show (Result.ofSelf (run [.word "n", .word "+"] withFive)).machine = pushedFive
  rw [run, Machine.run, interpret_n, Outcome.bind_done, Machine.run, failed]
  rfl

theorem constant_stays_misused :
    preluded = fresh 1 true false ∧
      run [.batch [.int 5, .text "n"], .word "constant"] preluded = .done () withFive ∧
      play misusing withFive = pushedFive ∧ Pushes "n" (.int 5) (play misusing withFive) := by
  have meant : preluded.dictionary.find? "constant" =
      (fresh 1 true false).dictionary.find? "constant" := by rw [fresh_one]
  refine ⟨fresh_one.symm, run_withFive, play_misusing, ?_⟩
  have reached : preluded = play [] (fresh 1 true false) := fresh_one.symm
  refine constant_stays reached rfl meant (by decide) (Value.known_int 5)
    run_withFive ?_ ⟨?_, ?_⟩ ?_ ?_
  · simp [misusing, Operation.FeedsWithout, Token.Avoids]
  · intro depth f arguments m begun
    cases misused_of_begins begun
  · intro depth base credit m begun
    rintro ⟨cell, behavior, at_, gives, -⟩
    cases misused_of_begins begun <;> cases at_ <;> cases gives
  · intro depth base credit m begun at_
    cases misused_of_begins begun <;> cases at_
  · rw [play_misusing]
    decide +kernel

/-! ## What the conditions are for -/

/-- What begins in a session begins in one of its two parts. -/
theorem Begins.split {first rest : List Operation} {start : Machine} {depth : Nat}
    {activity : Activity} {m : Machine} (begun : Begins (first ++ rest) start depth activity m) :
    Begins first start depth activity m ∨ Begins rest (play first start) depth activity m := by
  induction begun with
  | @operation before after operation own ready activity order copied amounts =>
    rcases List.append_eq_append_iff.mp order with ⟨more, rfl, same⟩ | ⟨more, rfl, same⟩
    · rw [play_append] at copied
      exact .inr (.operation same copied amounts)
    · cases more with
      | nil =>
        have order : rest = [] ++ operation :: after := same.symm
        rw [List.append_nil]
        exact .inr (.operation order copied amounts)
      | cons _ more =>
        cases same
        exact .inl (.operation rfl copied amounts)
  | inner around starts ih => exact ih.imp (.inner · starts) (.inner · starts)

end Session

/-- A word that is not the newest created one never becomes it. -/
theorem Machine.Moves.lastCreated_ne {permit : Machine.Permit} {m after : Machine} {entry : Nat}
    (moved : Machine.Moves permit m after) (old : entry < m.dictionary.size)
    (other : m.lastCreated ≠ some entry) : after.lastCreated ≠ some entry := by
  have both : entry < after.dictionary.size ∧ after.lastCreated ≠ some entry := by
    induction moved with
    | refl => exact ⟨old, other⟩
    | tail _ step ih =>
      refine ⟨Nat.lt_of_lt_of_le ih.1 step.size_le, ?_⟩
      cases step with
      | books same => exact same.lastCreated ▸ ih.2
      | data reckons => exact reckons.books.lastCreated ▸ ih.2
      | create name =>
        rintro ⟨⟩
        exact Nat.lt_irrefl _ ih.1
      | _ => exact ih.2
  exact both.2

namespace Session

open Machine

/-- Values and a native word are being fed, or the word is being called. -/
inductive FeedsNative (m : Machine) (word : String) (entry : Nat) (name : String) (n : Native) :
    Activity → Machine → Prop where
  | tokens (values : List Value) :
      FeedsNative m word entry name n (.tokens [.batch values, .word word]) m
  | values (values : List Value) : FeedsNative m word entry name n (.token (.batch values)) m
  | rest (values : List Value) :
      FeedsNative m word entry name n (.tokens [.word word]) (m.pushAll values)
  | word (values : List Value) :
      FeedsNative m word entry name n (.token (.word word)) (m.pushAll values)
  | entry (values : List Value) : FeedsNative m word entry name n (.entry entry) (m.pushAll values)
  | native (values : List Value) :
      FeedsNative m word entry name n (.native name n) (m.pushAll values)
  | nothing (after : Machine) : FeedsNative m word entry name n (.tokens []) after

section

variable {m : Machine} {values : List Value} {word name : String} {entry : Nat} {immediate : Bool}
  {n : Native}

theorem FeedsNative.starts {depth depth' : Nat} {outer activity : Activity} {state state' : Machine}
    (idle : m.compiling = false) (found : m.dictionary.find? word = some entry)
    (known : m.dictionary.get? entry = some ⟨name, immediate, .native n⟩)
    (own : ∀ f, n.action ≠ .host f) (around : FeedsNative m word entry name n outer state)
    (starts : outer.Starts depth state depth' activity state') :
    FeedsNative m word entry name n activity state' := by
  cases around with
  | tokens values =>
    cases starts with
    | firstToken => exact .values values
    | afterToken fed =>
      rw [interpret_batch_of_idle _ values idle] at fed
      cases fed
      exact .rest values
  | values values => cases starts
  | rest values =>
    cases starts with
    | firstToken => exact .word values
    | afterToken _ => exact .nothing _
  | word values =>
    cases starts with
    | name _ looked _ _ =>
      have found : (m.pushAll values).lookup word = .ok entry := by
        show Store.lookup word m.toStore = .ok entry
        rw [Store.lookup, found]
      cases found.symm.trans looked
      exact .entry values
  | entry values =>
    cases starts with
    | native known' =>
      cases known.symm.trans known'
      exact .native values
    | colon known' => cases known.symm.trans known'
    | behavior known' _ => cases known.symm.trans known'
  | native values =>
    cases starts with
    | host kind _ => exact absurd kind (own _)
  | nothing after => cases starts

/-- When values and a native word are fed, nothing else goes on. -/
theorem Begins.feedsNative {depth : Nat} {activity : Activity} {state : Machine}
    (begun : Begins [.run [.batch values, .word word]] m depth activity state)
    (idle : m.compiling = false) (found : m.dictionary.find? word = some entry)
    (known : m.dictionary.get? entry = some ⟨name, immediate, .native n⟩)
    (own : ∀ f, n.action ≠ .host f) :
    ∃ next, FeedsNative { m with nextMark := next } word entry name n activity state := by
  induction begun with
  | @operation before after operation own ready activity order copied amounts =>
    cases before with
    | cons _ rest => simp at order
    | nil =>
      cases order
      have shape : Value.Marking.Makes m.slots.size
          (fun _ own => ∃ values, own = Operation.run [.batch values, .word word])
          ((Operation.run [.batch values, .word word]).copy m.slots.size) := by
        simp only [Operation.copy, List.mapM_cons, List.mapM_nil, Token.copy, pure_bind, bind_assoc]
        exact .andThen (Value.makes_copyAll m.slots.size values) fun given =>
          .pure fun _ => ⟨given, rfl⟩
      rcases marking_cases ((Operation.run [.batch values, .word word]).copy m.slots.size) m with
        ⟨own, next, marked⟩ | ⟨f, failed⟩
      · cases copied.symm.trans marked
        obtain ⟨given, rfl⟩ := makes_of_marking marked shape
        cases amounts
        exact ⟨next, .tokens given⟩
      · cases copied.symm.trans failed
  | inner around starts ih =>
    obtain ⟨next, around⟩ := ih
    exact ⟨next, around.starts idle found known own starts⟩

/-- Such a session respects every word, and leaves room for it. -/
theorem respects_native (values : List Value) (target : Nat) (idle : m.compiling = false)
    (found : m.dictionary.find? word = some entry)
    (known : m.dictionary.get? entry = some ⟨name, immediate, .native n⟩)
    (own : ∀ f, n.action ≠ .host f) :
    Respects [.run [.batch values, .word word]] m target ∧
      HasRoom [.run [.batch values, .word word]] m target := by
  refine ⟨⟨fun begun => ?_, fun begun => ?_⟩, fun depth base credit state begun => ?_⟩
  all_goals
    obtain ⟨next, fed⟩ := begun.feedsNative idle found known own
    cases fed

end

/-- No callable is called in a session in which none has been registered. -/
theorem Begins.not_callable {history session : List Operation} {capacity : Int}
    {withPrelude verbose : Bool} {depth : Nat} {f : Host.Callable} {arguments : List Value}
    {m : Machine}
    (within : ∀ operation ∈ history ++ session, operation.Within (registering fun _ => False)) :
    ¬ Begins session (play history (fresh capacity withPrelude verbose)) depth
      (.callable f arguments) m := by
  intro begun
  rw [List.forall_mem_append] at within
  have tame : ∀ f : Host.Callable, False → f.IsTame := fun _ => False.elim
  have spanning := Contract.balanced_spanning capacity tame
  have inv : (Contract.balanced capacity fun _ => False).inv (fresh capacity withPrelude verbose) :=
    spanning.inv_fresh (Contract.inv_balanced_bare capacity verbose)
  exact (begun.balanced tame within.2 (spanning.inv_play within.1 inv)).2

/-- The operations that make the constant. -/
def founding : List Operation := [.run [.batch [.int 5, .text "n"], .word "constant"]]

theorem play_founding : play founding (fresh 1 true false) = withFive := by
  rw [fresh_one]
  show (Result.ofSelf (run [.batch [.int 5, .text "n"], .word "constant"] preluded)).machine = _
  rw [run_withFive]
  rfl

/-- A session that gets hold of the cell of the constant.  After another word has been created,
a word is defined that runs the constant, and another one that runs this word.  There is no room
for the call of the constant then, so that it stays at its cell. -/
def leaking : List Operation :=
  [.run [.batch [.text "x"], .word "create"],
    .run [.batch [.text "get"], .word "define", .word "n", .word "return",
      .batch [.text "leak"], .word "define", .word "get", .word "return"],
    .run [.word "leak"],
    .run [.batch [.int 9], .word "swap", .word "store"]]

/-- The machine with the two words defined. -/
def armed : Machine :=
  { withFive with
    stack := Stack.empty.push (.cell 1)
    slots := #[.int 5, .none]
    dictionary := ((withFive.dictionary.push ⟨"x", false, .created 1 .none⟩).push
      ⟨"get", false, .colon 15⟩).push ⟨"leak", false, .colon 17⟩
    lastCreated := some 45
    lastDefined := some 47
    barrier := 17
    code := withFive.code ++ #[.created 44, .exit, .call 15 "get", .exit] }

/-- The machine when the session is over. -/
def leaked : Machine :=
  { armed with slots := #[.int 9, .none], returns := Stack.empty.push 18 }

theorem play_leaking : play leaking withFive = leaked := by
  have begun : play (leaking.take 2) withFive = armed := by decide +kernel
  let failed : Machine := { armed with
    stack := (Stack.empty.push (.cell 1)).push (.cell 0)
    returns := Stack.empty.push 18 }
  have ended := executeAddress_of_fault Host.caller 1 (17 : Nat) armed (.full 1)
    { failed with ip := some 16 } rfl
  rw [Fault.full_of_lt (by decide +kernel)] at ended
  have found : armed.dictionary.find? "leak" = some 47 := by decide +kernel
  have known : armed.dictionary.get? 47 = some ⟨"leak", false, .colon 17⟩ := rfl
  have ran : run [.word "leak"] armed = .failed (.returnOverflow 1) failed := by
    rw [run, Machine.run, Machine.interpret, interpretToken,
      interpretName_of_idle _ rfl found known, executeEntry_colon _ known, ended]
    rfl
  have third : play [.run [.word "leak"]] armed = failed := by
    show (Result.ofSelf (run [.word "leak"] armed)).machine = failed
    rw [ran]
    rfl
  have last : play (leaking.drop 3) failed = leaked := by decide +kernel
  have order : leaking = leaking.take 2 ++ [.run [.word "leak"]] ++ leaking.drop 3 := rfl
  rw [order, play_append, play_append, begun, third, last]

theorem respects_leaking : Respects leaking withFive 44 := by
  have fed : ∀ operation ∈ founding ++ leaking,
      operation.Within (registering fun _ => False) := by
    simp [founding, leaking, Operation.Within]
  have tidy : withFive.Tidy := play_founding ▸ tidy_play founding (tidy_fresh 1 true false)
  have found : withFive.dictionary.find? "create" = some 18 := by decide +kernel
  refine ⟨fun begun => ?_, fun begun => ?_⟩
  · rw [← play_founding] at begun
    exact begun.not_callable fed
  · have begun : Begins (leaking.take 1 ++ leaking.drop 1) withFive _ _ _ := begun
    rcases begun.split with first | rest
    · exact (respects_native [.text "x"] 44 rfl found rfl (by simp)).1.binds first
    -- the word `x` is the newest created one now
    · obtain ⟨moved, -⟩ := rest.moves (supervised_anywhere .inner) (tidy_play _ tidy)
      rintro ⟨cell, behavior, -, -, last⟩
      exact moved.lastCreated_ne (by decide +kernel) (by decide +kernel) last

/-- A session that hands the cell of the constant in. -/
def handing : List Operation := [.run [.batch [.int 9, .cell 0], .word "store"]]

/-- The machine when that session is over. -/
def handed : Machine := { withFive with slots := #[.int 9] }

theorem play_handing : play handing withFive = handed := by decide +kernel

/-- What running a word with a behavior leaves on the stack tells whether it pushes a value. -/
theorem not_pushes {m after : Machine} {name : String} {entry slot : Nat} {immediate : Bool}
    {target : Int} {v : Value} (found : m.dictionary.find? name = some entry)
    (known : m.dictionary.get? entry = some ⟨name, immediate, .created slot (.int target)⟩)
    (ended : (m.pushAll [.cell slot]).executeAddress Host.caller (.int target) = .done () after)
    (other : after.stack ≠ m.stack.push v) : ¬ Pushes name v m := by
  rintro ⟨ended', returns, notes, rfl, ran, -⟩
  have looked : m.lookup name = .ok entry := by
    rw [Store.lookup, found]
  rw [executeWord, Machine.executeWord, looked] at ran
  have ran := (executeEntry_behavior Host.caller known).symm.trans ran
  cases ended.symm.trans ran
  exact other rfl

/-- A session that respects the constant can still change it: if there is no room for its call
it can get hold of its cell, and if it is handed the cell it need not even do that. -/
theorem constant_differs_leaked :
    preluded = fresh 1 true false ∧
      run [.batch [.int 5, .text "n"], .word "constant"] preluded = .done () withFive ∧
      (∀ operation ∈ leaking, operation.FeedsWithout 0) ∧ Respects leaking withFive 44 ∧
      (play leaking withFive).dictionary.find? "n" = some 44 ∧
      ¬ Pushes "n" (.int 5) (play leaking withFive) ∧
      Respects handing withFive 44 ∧ HasRoom handing withFive 44 ∧
      (play handing withFive).dictionary.find? "n" = some 44 ∧
      ¬ Pushes "n" (.int 5) (play handing withFive) := by
  have found : withFive.dictionary.find? "store" = some 15 := by decide +kernel
  have leaked_n : leaked.dictionary.find? "n" = some 44 := by decide +kernel
  have handed_n : handed.dictionary.find? "n" = some 44 := by decide +kernel
  obtain ⟨respects, room⟩ := respects_native [.int 9, .cell 0] 44 rfl found rfl nofun
  rw [play_leaking, play_handing]
  refine ⟨fresh_one.symm, run_withFive, ?_, respects_leaking, leaked_n, ?_, respects, room,
    handed_n, ?_⟩
  · simp [leaking, Operation.FeedsWithout, Token.Avoids]
  · have ended := executeAddress_of_halt Host.caller 1 13 (leaked.pushAll [.cell 0])
      { leaked with stack := leaked.stack.push (.int 9), returns := .empty } rfl
    exact not_pushes leaked_n rfl ended (by decide +kernel)
  · have ended := executeAddress_of_halt Host.caller 1 13 (handed.pushAll [.cell 0])
      { handed with stack := handed.stack.push (.int 9) } rfl
    exact not_pushes handed_n rfl ended (by decide +kernel)

end Session
end ThreadedForth
