import ThreadedForth.Proofs.Companion.Running
import ThreadedForth.Proofs.Contract.Invariant
import ThreadedForth.Proofs.Prelude
import ThreadedForth.Proofs.Reentry

/-!
# The console recovers

A dialogue goes on whatever a line does.  At each of its prompts nothing is running, the return
stack is empty, and the machine compiles exactly if a definition is open, which is what the
prompt tells (`Machine.AtPrompt`).

A line that succeeds leaves that so by itself: it runs each of its words from an empty return
stack, and a run that succeeds puts the return stack back.  A line that fails may leave return
addresses, an open definition, or both; the console drops them, and nothing else.  The state in
which the line has failed is singled out for this (`Machine.lineAtFault?`), before the open
definition is given up, and `Machine.Recovered` compares the state at the next prompt with it.

The prompts of a dialogue are the activities `prompts` that it involves, and each of them carries
the whole of the rest: what the dialogue comes to is what it comes to from there on
(`Activity.Involves.converse_eq`).  So it is enough to say how one prompt leads on, which
`Console.Leads` does with one constructor for each thing that can happen at a prompt.

A failure is recovered from once it has been reported, and a report can only be made where the
console shows its text.  `Session.dialogue_recovers` asks that the console can show the reports
that the dialogue makes (`Session.ShowsReports`).  Where it cannot, the dialogue ends with the
failure of the report, and the console drops nothing.

* `Activity.Involves.atPrompt`: every prompt is asked by a machine that is at a prompt;
* `Activity.Involves.exists_converse`: a dialogue comes to its end, and leaves such a machine;
* `Activity.Involves.leads`: from each prompt the dialogue goes on as it should;
* `Console.recovered_of_failed`: what a line that fails leaves is what there was when it failed;
* `Console.converse_farewell`: the lines after the first farewell have no effect;
* `Session.dialogue_recovers`: all of this at every prompt of every dialogue;
* `Session.exists_converse_iff`: only a report that cannot be shown keeps a dialogue from its end.
-/

namespace ThreadedForth

/-! ## The mode tells whether a definition is open -/

namespace Machine

/-- The machine compiles exactly if a definition is open. -/
def InMode (m : Machine) : Prop := m.compiling = m.draft.isSome

variable {m after : Machine}

theorem InMode.edit (mode : m.InMode) (changed : Edit m after) : after.InMode := by
  unfold InMode at mode ⊢
  cases changed with
  | data same => rw [same.compiling, same.draft, mode]
  | markDraft open_ =>
    rw [open_] at mode
    exact mode
  | openDraft | dropDraft | finish | close => rfl
  | markEntry | create | append | join | does => exact mode

end Machine

namespace Contract

theorem placeless_inMode (P : Host.Callable → Prop) :
    Placeless (fun m => m.Plain P ∧ m.InMode) P where
  edit inv changed := ⟨inv.1.edit changed, inv.2.edit changed⟩
  placed _ _ inv := ⟨inv.1.congr rfl rfl, inv.2⟩
  bound {m cell behavior entry} inv inside gives _ := by
    cases gives with
    | does target => exact ⟨inv.1.setBehavior entry target, inv.2⟩
    | row behavior rest => exact (inv.1.cells _ inside).elim
  hosts inv := (plain_kept P).hosts inv.1
  spelled inv := (plain_kept P).spelled inv.1

/-- Between tokens nothing is running, and the mode tells whether a definition is open.  What
succeeds on an empty return stack leaves it empty.  There are no host callables. -/
def betweenTokens (capacity : Int) : Contract where
  inv m := (balanced capacity fun _ => False).inv m ∧ m.InMode ∧ m.ip = none
  done m after := m.returns = .empty → after.returns = .empty
  failed _ _ := True
  admits _ := True

variable {capacity : Int}

theorem betweenTokens_kept : (betweenTokens capacity).Kept fun _ => False where
  refl _ := id
  trans first second := second ∘ first
  weaken _ := trivial
  before _ _ := trivial
  after _ _ := trivial
  edit inv changed := by
    have point := changed.samePoint
    have kept := (balanced_kept capacity _).edit inv.1 changed
    refine ⟨⟨kept.1, inv.2.1.edit changed, point.ip.trans inv.2.2⟩, fun empty => ?_⟩
    exact point.returns.trans empty
  calm _ := trivial
  hosts inv := (balanced_kept capacity _).hosts inv.1
  spelled inv := (balanced_kept capacity _).spelled inv.1

theorem betweenTokens_sustained : (betweenTokens capacity).Sustained fun _ => False where
  toKept := betweenTokens_kept
  enter {call m address} _ inv _ := by
    have nobody : ∀ K : Contract, K.Obeys (fun _ => False) call := fun _ _ _ _ => False.elim
    obtain ⟨held, left⟩ := Machine.executeAddress_balanced (nobody _) address inv.1
    have mode := (placeless_inMode fun _ => False).executeAddress (nobody _) address
      ⟨inv.1.1, inv.2.1⟩
    have ip := Machine.ip_executeAddress call address m
    cases ends : m.executeAddress call address with
    | done _ after =>
      rw [ends] at held mode ip
      refine ⟨⟨held.1, mode.2, ip.trans inv.2.2⟩, fun _ => ?_⟩
      rw [left after ends, if_pos inv.2.2]
    | failed f after =>
      rw [ends] at held mode ip
      exact ⟨⟨held.1, mode.2, ip.trans inv.2.2⟩, trivial, trivial⟩
  raises allowed _ := allowed.elim
  invade _ allowed _ _ _ := allowed.elim
  handle allowed _ := allowed.elim

end Contract

/-! ## At a prompt -/

namespace Machine

/-- A machine that can ask for a line: all of its words are built in or defined by users,
nothing is running, the return stack is empty, and the mode tells whether a definition is
open. -/
structure AtPrompt (m : Machine) : Prop where
  plain : m.Plain fun _ => False
  mode : m.InMode
  idle : m.ip = none
  clear : m.returns = .empty

/-- The state in which the feeding of tokens fails, before the open definition is given up. -/
def atFault? (call : Caller) : List Token → Machine → Option Machine
  | [], _ => none
  | token :: rest, m =>
    match m.interpretToken call token with
    | .done () after => atFault? call rest after
    | .failed _ after => some after

/-- The state in which a line fails, before the open definition is given up.  A line that cannot
be read fails before anything is done. -/
def lineAtFault? (call : Caller) (line : String) (m : Machine) : Option Machine :=
  match Token.tokenize line with
  | .ok tokens => m.atFault? call tokens
  | .error _ => some m

/-- The machine has come to rest after a fault: no definition is open, nothing is running, and
what there was in the state `broken`, in which the fault occurred, is there as it was.  The
fault has been reported. -/
structure Recovered (broken : Machine) (fault : Fault) (m : Machine) : Prop where
  compiling : m.compiling = false
  draft : m.draft = none
  idle : m.ip = none
  clear : m.returns = .empty
  stack : m.stack = broken.stack
  slots : m.slots = broken.slots
  dictionary : m.dictionary = broken.dictionary
  code : m.code = broken.code
  reported : m.transcript = .said (Console.reply fault) :: broken.transcript

variable {call : Caller} {m after : Machine}

theorem AtPrompt.inv (ready : m.AtPrompt) : (Contract.betweenTokens m.capacity).inv m := by
  refine ⟨⟨ready.plain, rfl, ?_⟩, ready.mode, ready.idle⟩
  rw [ready.clear]
  exact Int.le_max_right m.capacity 0

theorem abandonIfCompiling_eq (m : Machine) :
    ∃ notes compiling draft, m.abandonIfCompiling =
      { m with journal := notes, compiling := compiling, draft := draft } := by
  unfold abandonIfCompiling
  split
  · obtain ⟨notes, abandoned⟩ := m.toStore.abandon_eq
    exact ⟨notes, false, none, congrArg (fun s => { m with toStore := s }) abandoned⟩
  · exact ⟨m.journal, m.compiling, m.draft, rfl⟩

/-- Tokens that fail have failed somewhere, and since then at most the open definition has been
given up. -/
theorem exists_atFault {tokens : List Token} {f : Fault}
    (fails : m.run call tokens = .failed f after) :
    ∃ broken notes compiling draft, m.atFault? call tokens = some broken ∧
      after = { broken with journal := notes, compiling := compiling, draft := draft } := by
  induction tokens generalizing m with
  | nil => cases fails
  | cons token rest ih =>
    rw [run, interpret] at fails
    rw [atFault?]
    cases ends : m.interpretToken call token with
    | done _ middle =>
      rw [ends] at fails
      exact ih fails
    | failed g broken =>
      rw [ends] at fails
      cases fails
      by_cases interrupted : f.isInterrupt = true
      · rw [if_pos interrupted]
        exact ⟨broken, broken.journal, broken.compiling, broken.draft, rfl, rfl⟩
      · obtain ⟨notes, compiling, draft, given⟩ := broken.abandonIfCompiling_eq
        rw [if_neg interrupted]
        exact ⟨broken, notes, compiling, draft, rfl, given⟩

theorem exists_lineAtFault {line : String} {f : Fault}
    (fails : m.execute call line = .failed f after) :
    ∃ broken notes compiling draft, m.lineAtFault? call line = some broken ∧
      after = { broken with journal := notes, compiling := compiling, draft := draft } := by
  unfold execute at fails
  unfold lineAtFault?
  cases read : Token.tokenize line with
  | ok tokens =>
    rw [read] at fails
    exact exists_atFault fails
  | error g =>
    rw [read] at fails
    cases fails
    exact ⟨m, m.journal, m.compiling, m.draft, rfl, rfl⟩

/-- A line that succeeds leaves a machine that can ask for the next one. -/
theorem AtPrompt.execute (ready : m.AtPrompt) {line : String}
    (succeeds : m.execute Host.caller line = .done () after) : after.AtPrompt := by
  have sustained : (Contract.betweenTokens m.capacity).Sustained fun _ => False :=
    Contract.betweenTokens_sustained
  have held := sustained.holds_execute sustained.obeys_caller line ready.inv
  rw [succeeds] at held
  obtain ⟨⟨plain, mode, idle⟩, cleared⟩ := held
  exact ⟨plain.1, mode, idle, cleared ready.clear⟩

/-- A machine that is ready for use can ask for a line. -/
theorem atPrompt_fresh (capacity : Int) (withPrelude verbose : Bool) :
    (fresh capacity withPrelude verbose).AtPrompt := by
  have ready : (bare capacity verbose).AtPrompt := ⟨plain_bare capacity verbose, rfl, rfl, rfl⟩
  have noted : ∀ {m : Machine} (text : String), m.AtPrompt →
      (m.note .debug .repl text).AtPrompt := by
    intro m text ready
    obtain ⟨notes, noted⟩ := m.toStore.note_eq .debug .repl text
    rw [note, noted]
    exact ⟨ready.plain.congr rfl rfl, ready.mode, ready.idle, ready.clear⟩
  unfold fresh
  cases withPrelude with
  | false => exact noted _ ready
  | true =>
    obtain ⟨after, ran, -⟩ := loads_prelude capacity verbose
    simp only [if_true, ran]
    exact noted _ (ready.execute ran)

end Machine

namespace Console

open Machine

variable {d : Display} {m after : Machine} {line : String} {fault : Fault}

/-! ## What becomes of a line -/

theorem feed_of_done (succeeds : m.execute Host.caller line = .done () after) :
    feed d line m = .done () after := by
  rw [feed, succeeds]

theorem feed_of_shown (fails : m.execute Host.caller line = .failed fault after)
    (shown : d.showsText (reply fault) = true) :
    feed d line m = .done () (recover fault after) := by
  rw [feed, fails]
  exact report_of_shown shown after

theorem feed_of_not_shown (fails : m.execute Host.caller line = .failed fault after)
    (unshown : d.showsText (reply fault) = false) :
    feed d line m = .failed (.unencodable (d.refusal (reply fault))) after := by
  rw [feed, fails]
  exact report_of_not_shown unshown after

theorem recovered_recover (fault : Fault) (m : Machine) :
    m.Recovered fault (recover fault m) := by
  obtain ⟨notes, aborted⟩ := (m.tell (.said (reply fault))).abort_eq
  rw [recover, aborted]
  exact ⟨rfl, rfl, rfl, rfl, rfl, rfl, rfl, rfl, rfl⟩

/-- What a line that fails leaves is what there was when it failed. -/
theorem recovered_of_failed (fails : m.execute Host.caller line = .failed fault after) :
    ∃ broken, m.lineAtFault? Host.caller line = some broken ∧
      broken.Recovered fault (recover fault after) := by
  obtain ⟨broken, notes, compiling, draft, there, rfl⟩ := exists_lineAtFault fails
  have recovered := recovered_recover fault
    { broken with journal := notes, compiling := compiling, draft := draft }
  exact ⟨broken, there, recovered.compiling, recovered.draft, recovered.idle, recovered.clear,
    recovered.stack, recovered.slots, recovered.dictionary, recovered.code, recovered.reported⟩

theorem atPrompt_recover (fault : Fault) (plain : m.Plain fun _ => False) :
    (recover fault m).AtPrompt := by
  obtain ⟨compiling, draft, idle, clear, -, -, dictionary, code, -⟩ := recovered_recover fault m
  refine ⟨plain.congr code dictionary, ?_, idle, clear⟩
  rw [InMode, compiling, draft]
  rfl

theorem atPrompt_tell (u : Utterance) (ready : m.AtPrompt) : (m.tell u).AtPrompt :=
  ⟨ready.plain.congr rfl rfl, ready.mode, ready.idle, ready.clear⟩

/-- After a line, failed or not, the machine is ready for the next prompt. -/
theorem atPrompt_of_feed (ready : m.AtPrompt) (fed : feed d line m = .done () after) :
    after.AtPrompt := by
  have sustained : (Contract.betweenTokens m.capacity).Sustained fun _ => False :=
    Contract.betweenTokens_sustained
  have held := sustained.holds_execute sustained.obeys_caller line ready.inv
  cases ends : m.execute Host.caller line with
  | done _ ended =>
    rw [feed_of_done ends] at fed
    cases fed
    exact ready.execute ends
  | failed fault broken =>
    rw [ends] at held
    cases shown : d.showsText (reply fault) with
    | true =>
      rw [feed_of_shown ends shown] at fed
      cases fed
      exact atPrompt_recover fault held.1.1.1
    | false =>
      rw [feed_of_not_shown ends shown] at fed
      cases fed

/-! ## From prompt to prompt -/

theorem converse_of_stays (stays : isFarewell line = false) (rest : List Input) (m : Machine) :
    converse d (.line line :: rest) m =
      (feed d line (m.tell (.prompted (prompt m)))).bind fun () => converse d rest := by
  rw [converse]
  exact if_neg (Bool.eq_false_iff.mp stays)

theorem converse_of_farewell (farewell : isFarewell line = true) (rest : List Input)
    (m : Machine) :
    converse d (.line line :: rest) m = .done () (m.tell (.prompted (prompt m))) := by
  rw [converse]
  exact if_pos farewell

theorem converse_interrupt (rest : List Input) (m : Machine) :
    converse d (.interrupt :: rest) m =
      converse d rest (recover (.interrupted "") (m.tell (.prompted (prompt m)))) := by
  rw [converse]
  simp only [report_interrupted]
  rfl

/-- The lines after the first farewell have no effect. -/
theorem converse_farewell {bye : String} (farewell : isFarewell bye = true)
    (before rest : List Input) (m : Machine) :
    converse d (before ++ .line bye :: rest) m = converse d (before ++ [.line bye]) m := by
  induction before generalizing m with
  | nil =>
    rw [List.nil_append, List.nil_append, converse_of_farewell farewell,
      converse_of_farewell farewell]
  | cons input before ih =>
    rw [List.cons_append, List.cons_append]
    cases input with
    | interrupt => rw [converse_interrupt, converse_interrupt, ih]
    | line text =>
      by_cases bye : isFarewell text = true
      · rw [converse_of_farewell bye, converse_of_farewell bye]
      · have stays := Bool.eq_false_iff.mpr bye
        rw [converse_of_stays stays, converse_of_stays stays]
        exact congrArg _ (funext fun _ => funext ih)

theorem prompt_eq_iff (mode : m.InMode) : prompt m = "...> " ↔ m.draft ≠ none := by
  rw [prompt, mode]
  cases m.draft with
  | none => decide
  | some draft => simp

/-- How a prompt leads to the end of the dialogue.  The prompt is shown in the state `asked`,
and `ended` is what the dialogue comes to. -/
inductive Leads (d : Display) (asked : Machine) (ended : Outcome Unit) : List Input → Prop where
  | finished (stops : ended = .done () asked) : Leads d asked ended []
  | farewell {line : String} {rest : List Input} (bye : isFarewell line = true)
      (stops : ended = .done () asked) : Leads d asked ended (.line line :: rest)
  | fed {line : String} {rest : List Input} {after : Machine} (stays : isFarewell line = false)
      (succeeds : asked.execute Host.caller line = .done () after)
      (goesOn : ended = converse d rest after) : Leads d asked ended (.line line :: rest)
  | recovered {line : String} {rest : List Input} {fault : Fault} {failed broken after : Machine}
      (stays : isFarewell line = false)
      (fails : asked.execute Host.caller line = .failed fault failed)
      (there : asked.lineAtFault? Host.caller line = some broken)
      (still : broken.Recovered fault after)
      (goesOn : ended = converse d rest after) : Leads d asked ended (.line line :: rest)
  | interrupted {rest : List Input} {after : Machine}
      (still : asked.Recovered (.interrupted "") after)
      (goesOn : ended = converse d rest after) : Leads d asked ended (.interrupt :: rest)

end Console

namespace Activity

open Console

variable {depth depth' : Nat} {inner : Activity} {d : Display} {script : List Input}
  {m m' : Machine}

/-- Every prompt of a dialogue is asked by a machine that is at a prompt. -/
theorem Involves.atPrompt (ready : m.AtPrompt)
    (involved : (dialogue d script).Involves depth m depth' inner m')
    (console : ∃ d' inputs, inner = .dialogue d' inputs ∨ inner = .prompts d' inputs) :
    m'.AtPrompt := by
  induction involved with
  | itself => exact ready
  | inner around starts ih =>
    obtain ⟨d', inputs, rfl | rfl⟩ := console
    · cases starts
    · cases starts with
      | greeting => exact atPrompt_tell _ (ih ⟨_, _, .inl rfl⟩)
      | afterLine stays fed => exact atPrompt_of_feed (atPrompt_tell _ (ih ⟨_, _, .inr rfl⟩)) fed
      | afterInterrupt =>
        exact atPrompt_recover _ (atPrompt_tell _ (ih ⟨_, _, .inr rfl⟩)).plain

theorem Involves.perform_eq (involved : (dialogue d script).Involves depth m depth' inner m')
    (console : ∃ d' inputs, inner = .dialogue d' inputs ∨ inner = .prompts d' inputs) :
    inner.perform depth' m' = Console.dialogue d script m := by
  induction involved with
  | itself => rfl
  | inner around starts ih =>
    obtain ⟨d', inputs, rfl | rfl⟩ := console
    · cases starts
    · cases starts with
      | greeting =>
        rw [← ih ⟨_, _, .inl rfl⟩]
        exact (dialogue_eq d' inputs _).symm
      | afterLine stays fed =>
        rw [← ih ⟨_, _, .inr rfl⟩]
        refine ((converse_of_stays stays inputs _).trans ?_).symm
        rw [fed]
        rfl
      | afterInterrupt =>
        rw [← ih ⟨_, _, .inr rfl⟩]
        exact (converse_interrupt inputs _).symm

/-- What a dialogue comes to is what it comes to from any of its prompts on. -/
theorem Involves.converse_eq {inputs : List Input}
    (involved : (dialogue d script).Involves depth m depth' (.prompts d inputs) m') :
    Session.converse d script m = converse d inputs m' :=
  (involved.perform_eq ⟨d, inputs, .inr rfl⟩).symm

end Activity

/-- Every report that a dialogue makes can be shown on its console. -/
def Session.ShowsReports (d : Console.Display) (script : List Console.Input) (m : Machine) :
    Prop :=
  ∀ (depth : Nat) (line : String) (rest : List Console.Input) (m' : Machine) (fault : Fault)
    (after : Machine),
    (Activity.dialogue d script).Involves Host.maxDepth m depth (.prompts d (.line line :: rest))
      m' →
    Console.isFarewell line = false →
    (m'.tell (.prompted (Console.prompt m'))).execute Host.caller line = .failed fault after →
    d.showsText (Console.reply fault) = true

namespace Activity

open Console

variable {depth : Nat} {d : Display} {script : List Input} {m m' : Machine}

/-- A line whose failure the console cannot report ends the dialogue, with the failure of the
report.  The state is the one in which the line has failed: nothing is dropped. -/
theorem Involves.converse_of_not_shown {line : String} {rest : List Input} {after : Machine}
    {fault : Fault}
    (involved : (dialogue d script).Involves Host.maxDepth m depth
      (.prompts d (.line line :: rest)) m') (stays : isFarewell line = false)
    (fails : (m'.tell (.prompted (prompt m'))).execute Host.caller line = .failed fault after)
    (unshown : d.showsText (reply fault) = false) :
    Session.converse d script m = .failed (.unencodable (d.refusal (reply fault))) after := by
  rw [involved.converse_eq, converse_of_stays stays, feed_of_not_shown fails unshown]
  rfl

/-- A dialogue that can show its reports comes to its end from each of its prompts. -/
theorem Involves.exists_converse (shows : Session.ShowsReports d script m) (ready : m.AtPrompt)
    {inputs : List Input}
    (involved : (dialogue d script).Involves Host.maxDepth m depth (.prompts d inputs) m') :
    ∃ after, converse d inputs m' = .done () after ∧ after.AtPrompt := by
  induction inputs generalizing m' with
  | nil =>
    exact ⟨_, rfl, atPrompt_tell _ (involved.atPrompt ready ⟨d, [], .inr rfl⟩)⟩
  | cons input rest ih =>
    cases input with
    | interrupt =>
      rw [converse_interrupt]
      exact ih (.inner involved .afterInterrupt)
    | line text =>
      by_cases farewell : isFarewell text = true
      · have there := involved.atPrompt ready ⟨d, _, .inr rfl⟩
        exact ⟨_, converse_of_farewell farewell rest m', atPrompt_tell _ there⟩
      · have stays := Bool.eq_false_iff.mpr farewell
        have goesOn : ∃ after, feed d text (m'.tell (.prompted (prompt m'))) = .done () after := by
          cases ends : (m'.tell (.prompted (prompt m'))).execute Host.caller text with
          | done _ after => exact ⟨after, feed_of_done ends⟩
          | failed fault after =>
            exact ⟨_, feed_of_shown ends (shows _ _ _ _ _ _ involved stays ends)⟩
        obtain ⟨after, fed⟩ := goesOn
        rw [converse_of_stays stays, fed]
        exact ih (.inner involved (.afterLine stays fed))

/-- From each of its prompts, a dialogue that can show its reports goes on as it should. -/
theorem Involves.leads (shows : Session.ShowsReports d script m) {inputs : List Input}
    (involved : (dialogue d script).Involves Host.maxDepth m depth (.prompts d inputs) m') :
    Leads d (m'.tell (.prompted (prompt m'))) (Session.converse d script m) inputs := by
  rw [involved.converse_eq]
  cases inputs with
  | nil => exact .finished rfl
  | cons input rest =>
    cases input with
    | interrupt => exact .interrupted (recovered_recover _ _) (converse_interrupt rest m')
    | line text =>
      by_cases farewell : isFarewell text = true
      · exact .farewell farewell (converse_of_farewell farewell rest m')
      · have stays := Bool.eq_false_iff.mpr farewell
        have goesOn := converse_of_stays (d := d) stays rest m'
        cases ends : (m'.tell (.prompted (prompt m'))).execute Host.caller text with
        | done _ after =>
          rw [feed_of_done ends, Outcome.bind_done] at goesOn
          exact .fed stays ends goesOn
        | failed fault failed =>
          rw [feed_of_shown ends (shows _ _ _ _ _ _ involved stays ends),
            Outcome.bind_done] at goesOn
          obtain ⟨broken, there, still⟩ := recovered_of_failed ends
          exact .recovered stays ends there still goesOn

end Activity

namespace Session

open Console (Display Input prompt isFarewell reply)

variable {m : Machine} {d : Display} {script : List Input}

/-- A console that shows every report shows those of the dialogue. -/
theorem showsReports_of_forall (shown : ∀ fault, d.showsText (reply fault) = true) :
    ShowsReports d script m := by
  intro depth line rest m' fault after involved stays fails
  exact shown fault

/-- Where a dialogue begins. -/
theorem involves_script (d : Display) (script : List Input) (m : Machine) :
    (Activity.dialogue d script).Involves Host.maxDepth m Host.maxDepth (.prompts d script)
      (m.tell (.said Console.banner)) := .inner .itself .greeting

/-- A dialogue in which a line fails inside a definition that an earlier line has opened. -/
def unfinished : List Input :=
  [.line ": half 2", .line "nosuch", .interrupt, .line " Bye ", .line "9 print"]

/-- The machine at the first prompt of this dialogue, when the prompt is shown. -/
def greeting : Machine :=
  let greeted := (Machine.fresh 8 false false).tell (.said Console.banner)
  greeted.tell (.prompted (prompt greeted))

theorem hasName_half : Text.allBlank "half".toList = false := by decide

/-- The machine at the second prompt of this dialogue. -/
def compilingHalf : Machine :=
  { greeting with
    compiling := true
    draft := some ⟨"half", 0, false, hasName_half⟩
    code := #[.literal [.int 2]] }

/-- The second line of the dialogue fails. -/
theorem execute_nosuch (u : Utterance) :
    (compilingHalf.tell u).execute Host.caller "nosuch" =
      .failed (.undefinedWord "nosuch") (compilingHalf.tell u).abandonIfCompiling := by
  have read : Token.tokenize "nosuch" = .ok [.word "nosuch"] := by decide +kernel
  have foreign : compilingHalf.ownAddress? "nosuch" = none := by decide +kernel
  have unknown : compilingHalf.dictionary.find? "nosuch" = none := by decide +kernel
  have missing : (compilingHalf.tell u).lookup "nosuch" = .error (.undefinedWord "nosuch") := by
    have unknown_ : (compilingHalf.tell u).dictionary.find? "nosuch" = none := unknown
    rw [Store.lookup, unknown_]
  have named : (compilingHalf.tell u).interpretName Host.caller "nosuch" =
      .failed (.undefinedWord "nosuch") (compilingHalf.tell u) := by
    unfold Machine.interpretName
    rw [show (compilingHalf.tell u).ownAddress? "nosuch" = none from foreign, missing]
  rw [Machine.execute, read]
  simp only [Machine.run, Machine.interpret, Machine.interpretToken, named]
  rfl

/-- The second prompt of the dialogue, on any console. -/
theorem involves_compilingHalf (d : Display) :
    (Activity.dialogue d unfinished).Involves Host.maxDepth (Machine.fresh 8 false false)
      Host.maxDepth (.prompts d (unfinished.drop 1)) compilingHalf := by
  have opens : greeting.execute Host.caller ": half 2" = .done () compilingHalf := by
    have read : Token.tokenize ": half 2" =
        .ok [.batch [.text "half"], .word "define", .datum (.int 2)] := by decide +kernel
    rw [Machine.execute, read]
    rfl
  exact .inner (involves_script ..) (.afterLine (by decide +kernel) (Console.feed_of_done opens))

/-- A dialogue comes to its end exactly if the console can show its reports. -/
theorem exists_converse_iff (ready : m.AtPrompt) :
    (∃ after, converse d script m = .done () after) ↔ ShowsReports d script m := by
  constructor
  · rintro ⟨ended, ends⟩ depth line rest m' fault after involved stays fails
    refine Bool.of_not_eq_false fun unshown => ?_
    rw [involved.converse_of_not_shown stays fails unshown] at ends
    cases ends
  · intro shows
    have first := involves_script d script m
    rw [first.converse_eq]
    obtain ⟨after, ends, -⟩ := first.exists_converse shows ready
    exact ⟨after, ends⟩

/-- A console that shows the plain characters alone. -/
def plainDisplay : Display := ⟨fun c => c.toNat < 128, id, fun _ plain => decide_eq_true plain⟩

/-- The first line of a dialogue on such a console fails, and its failure cannot be reported. -/
theorem converse_of_not_shown_plain :
    ∃ after, converse plainDisplay [.line "é", .line "9 print"] (Machine.fresh 8 false false) =
      .failed (.unencodable "Error: undefined word 'é'") after := by
  have read : Token.tokenize "é" = .ok [.word "é"] := by decide +kernel
  have fails : ∃ after, greeting.execute Host.caller "é" = .failed (.undefinedWord "é") after := by
    rw [Machine.execute, read]
    exact ⟨_, rfl⟩
  obtain ⟨after, fails⟩ := fails
  refine ⟨after, ?_⟩
  have unshown : plainDisplay.showsText (reply (.undefinedWord "é")) = false := by decide +kernel
  exact (involves_script ..).converse_of_not_shown (by decide +kernel) fails unshown

end Session
end ThreadedForth
