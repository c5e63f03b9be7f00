import ThreadedForth.Proofs.Evaluation
import ThreadedForth.Proofs.Twin

/-!
# Laying code

While a definition is open, tokens become cells at the end of the code.  `Machine.cellOf?`
is the cell that a token stands for.  Not every token gets a cell of its own, because
literals that follow each other share one, so the code that a definition leaves is not the
list of its tokens' cells.  But it does the same: joined literals do what they do one after
the other (`Cell.act_joined`).  `Machine.Laid` keeps track of this while the code grows.

* `Machine.eval_of_body`: the code of a body does what its cells do in turn;
* `Machine.run_define`: tokens that stand for cells can be made into a word, and what is
  there afterwards is described by `Machine.Defined`.
-/

namespace ThreadedForth

/-! ## Cells in a row -/

namespace Evaluation

@[simp] theorem bind_pure (e : Evaluation) : e.bind done = e := by
  cases e with
  | done s => rfl
  | failed f s => rfl
  | stuck => rfl

theorem bind_assoc (e : Evaluation) (second third : Store → Evaluation) :
    (e.bind second).bind third = e.bind fun s => (second s).bind third := by
  cases e with
  | done s => rfl
  | failed f s => rfl
  | stuck => rfl

end Evaluation

theorem Store.pushAll_append (first second : List Value) (s : Store) :
    s.pushAll (first ++ second) = (s.pushAll first).pushAll second := by
  unfold pushAll
  refine congrArg (fun stack => { s with stack := stack }) (Stack.ext ?_)
  simp

namespace Cell

/-- Does what the cells say, one after the other. -/
def actAll (m : Machine) (enter : Int → Store → Evaluation) : List Cell → Store → Evaluation
  | [], s => .done s
  | cell :: rest, s => (cell.act m enter s).bind (actAll m enter rest)

variable {m : Machine} {enter : Int → Store → Evaluation}

theorem actAll_append (first second : List Cell) (s : Store) :
    actAll m enter (first ++ second) s =
      (actAll m enter first s).bind (actAll m enter second) := by
  induction first generalizing s with
  | nil => rfl
  | cons cell rest ih =>
    rw [List.cons_append, actAll, actAll, Evaluation.bind_assoc]
    exact congrArg _ (funext ih)

theorem actAll_singleton (cell : Cell) (s : Store) :
    actAll m enter [cell] s = cell.act m enter s :=
  Evaluation.bind_pure _

/-- Joined literals do what the literals do one after the other. -/
theorem act_joined (old new : List Value) (s : Store) :
    (literal (old ++ new)).act m enter s =
      ((literal old).act m enter s).bind ((literal new).act m enter) := by
  show Evaluation.done (s.pushAll (old ++ new)) = .done ((s.pushAll old).pushAll new)
  rw [s.pushAll_append]

/-- The cell neither leaves a body nor fails to spell an instruction. -/
def IsInner : Cell → Prop
  | .exit | .foreign _ => False
  | _ => True

end Cell

namespace Machine

variable {m : Machine}

/-- The code of a body does what its cells do in turn. -/
theorem eval_of_body (depth : Nat) {body : List Cell} (inner : ∀ cell ∈ body, cell.IsInner) :
    ∀ {before rest : List Cell} {s : Store}, m.code.toList = before ++ body ++ .exit :: rest →
      m.eval depth before.length s = Cell.actAll m (m.evalCall depth) body s := by
  have fetched : ∀ {before after : List Cell} {cell : Cell} {s : Store},
      m.code.toList = before ++ cell :: after →
      fetch before.length { m with toStore := s } = .ok cell := by
    intro before after cell s laid
    refine fetch_eq_ok_iff.mpr ?_
    show m.code[before.length]? = some cell
    rw [← Array.getElem?_toList, laid, List.getElem?_append_right (Nat.le_refl _), Nat.sub_self]
    rfl
  induction body with
  | nil =>
    intro before rest s laid
    rw [List.append_nil] at laid
    exact eval_of_exit (fetched laid)
  | cons cell others ih =>
    intro before rest s laid
    have here : cell ≠ .exit := by
      rintro rfl
      exact inner _ List.mem_cons_self
    have next : m.code.toList = (before ++ [cell]) ++ others ++ .exit :: rest := by
      rw [laid]
      simp
    rw [List.append_assoc, List.cons_append] at laid
    rw [eval_of_cell (fetched laid) here, Cell.actAll]
    refine congrArg _ (funext fun t => ?_)
    have further := ih (fun c inside => inner c (List.mem_cons_of_mem cell inside)) (s := t) next
    rw [List.length_append, List.length_singleton] at further
    exact further

/-! ## Laying cells -/

/-- The cell that a token stands for: literals, or the cell of a word that is not
immediate. -/
def cellOf? (m : Machine) : Token → Option Cell
  | .datum v => some (.literal [v])
  | .batch values => some (.literal values)
  | .word name => do
    let entry ← m.dictionary.find? name
    let w ← m.dictionary.get? entry
    if w.immediate then none else some (cellOf entry w)
  | .malformed _ => none

theorem cellOf?_word {name : String} {cell : Cell} (h : m.cellOf? (.word name) = some cell) :
    ∃ entry w, m.dictionary.find? name = some entry ∧ m.dictionary.get? entry = some w ∧
      w.immediate = false ∧ cell = cellOf entry w := by
  obtain ⟨entry, found, h⟩ := Option.bind_eq_some_iff.mp h
  obtain ⟨w, known, h⟩ := Option.bind_eq_some_iff.mp h
  by_cases marked : w.immediate = true
  · rw [if_pos marked] at h
    cases h
  · rw [if_neg marked] at h
    cases h
    exact ⟨entry, w, found, known, by simpa using marked, rfl⟩

theorem cellOf?_of_find {name : String} {entry : Nat} {w : Word}
    (found : m.dictionary.find? name = some entry) (known : m.dictionary.get? entry = some w)
    (open_ : w.immediate = false) : m.cellOf? (.word name) = some (cellOf entry w) := by
  simp [cellOf?, found, known, open_]

theorem isInner_cellOf (entry : Nat) (w : Word) : (cellOf entry w).IsInner := by
  obtain ⟨name, immediate, body⟩ := w
  cases body with
  | _ => trivial

/-- The machine `m` in the middle of a definition, with other code.  Nothing is joined to the
code of `m` itself. -/
def drafting (m : Machine) (draft : Draft) (code : Array Cell) : Machine :=
  { m with compiling := true, draft := some draft, barrier := m.code.size, code := code }

/-- The machine `m` in the middle of a definition, with other code and another barrier. -/
def midway (m : Machine) (draft : Draft) (code : Array Cell) (barrier : Nat) : Machine :=
  { m.drafting draft code with barrier := barrier }

/-- The code is that of `m` with a body behind it that does what the cells do. -/
structure Laid (m : Machine) (cells : List Cell) (code : Array Cell) (body : List Cell) :
    Prop where
  code : code.toList = m.code.toList ++ body
  inner : ∀ cell ∈ body, cell.IsInner
  acts : ∀ (m' : Machine) (enter : Int → Store → Evaluation) (s : Store),
    Cell.actAll m' enter body s = Cell.actAll m' enter cells s

variable {cells body : List Cell} {code : Array Cell}

theorem laid_nil (m : Machine) : m.Laid [] m.code [] :=
  ⟨(List.append_nil _).symm, nofun, fun _ _ _ => rfl⟩

/-- A cell can be laid behind the others. -/
theorem Laid.push {cell : Cell} (laid : m.Laid cells code body) (inner : cell.IsInner) :
    m.Laid (cells ++ [cell]) (code.push cell) (body ++ [cell]) where
  code := by rw [Array.toList_push, laid.code, List.append_assoc]
  inner other inside := by
    rcases List.mem_append.mp inside with old | new
    · exact laid.inner other old
    · rw [List.mem_singleton.mp new]
      exact inner
  acts m' enter s := by
    rw [Cell.actAll_append, Cell.actAll_append, laid.acts]

/-- Values can be joined to literals that were laid last. -/
theorem Laid.join {old : List Value} (new : List Value)
    (laid : m.Laid cells code (body ++ [.literal old])) :
    m.Laid (cells ++ [.literal new]) (code.pop.push (.literal (old ++ new)))
      (body ++ [.literal (old ++ new)]) where
  code := by
    rw [Array.toList_push, Array.toList_pop, laid.code, ← List.append_assoc,
      List.dropLast_concat, List.append_assoc]
  inner other inside := by
    rcases List.mem_append.mp inside with before | last
    · exact laid.inner other (List.mem_append_left _ before)
    · rw [List.mem_singleton.mp last]
      trivial
  acts m' enter s := by
    rw [Cell.actAll_append cells, ← laid.acts, Cell.actAll_append, Cell.actAll_append,
      Evaluation.bind_assoc]
    refine congrArg _ (funext fun t => ?_)
    rw [Cell.actAll_singleton, Cell.act_joined, Cell.actAll_singleton]
    exact congrArg _ (funext fun u => (Cell.actAll_singleton _ u).symm)

/-- Nothing is joined to the code that was there before the definition. -/
theorem joinedLiterals_of_nil (draft : Draft) (values : List Value) (laid : m.Laid cells code []) :
    (m.drafting draft code).joinedLiterals values = .ok none := by
  have same : code.size = m.code.size := by
    have lengths := congrArg List.length laid.code
    rw [List.append_nil, Array.length_toList, Array.length_toList] at lengths
    exact lengths
  unfold joinedLiterals
  split
  · next cell last =>
    obtain ⟨earlier, grown⟩ := Array.back?_eq_some_iff.mp last
    have size : code.size = earlier.size + 1 := by
      have : code = earlier.push cell := grown
      rw [this, Array.size_push]
    -- the barrier stands at the end of the code
    have free : ¬ m.code.size ≤ code.size - 1 := by omega
    exact if_neg free
  · rfl

/-- What is joined to the last cell of the body depends on the cell. -/
theorem joinedLiterals_of_concat (draft : Draft) (values : List Value) {last : Cell}
    (laid : m.Laid cells code (body ++ [last])) :
    (m.drafting draft code).joinedLiterals values = last.openValues values := by
  have back : code.back? = some last := by
    rw [← Array.getLast?_toList, laid.code, ← List.append_assoc, List.getLast?_concat]
  have free : m.code.size ≤ code.size - 1 := by
    have lengths := congrArg List.length laid.code
    rw [Array.length_toList, List.length_append, Array.length_toList, List.length_append,
      List.length_singleton] at lengths
    omega
  unfold joinedLiterals
  have back : (m.drafting draft code).code.back? = some last := back
  rw [back]
  exact if_pos free

/-- Literals are joined to the last cell of the open body if that is a literal one, and else
get a cell of their own. -/
theorem interpretLiterals_drafting (draft : Draft) (values : List Value)
    (laid : m.Laid cells code body) :
    ∃ code' body', (m.drafting draft code).interpretLiterals values =
        .done () (m.drafting draft code') ∧ m.Laid (cells ++ [.literal values]) code' body' := by
  have written : ∀ {joined}, (m.drafting draft code).joinedLiterals values = .ok joined →
      (m.drafting draft code).interpretLiterals values =
        .done () ((m.drafting draft code).writeLiterals values joined) := by
    intro joined found
    have compiling : (m.drafting draft code).compiling = true := rfl
    unfold interpretLiterals
    rw [if_pos compiling, found]
  have appended (alone : (m.drafting draft code).joinedLiterals values = .ok none) :
      ∃ code' body', (m.drafting draft code).interpretLiterals values =
        .done () (m.drafting draft code') ∧ m.Laid (cells ++ [.literal values]) code' body' :=
    ⟨_, _, written alone, laid.push (show (Cell.literal values).IsInner from trivial)⟩
  rcases List.eq_nil_or_concat body with rfl | ⟨before, last, rfl⟩
  · exact appended (joinedLiterals_of_nil draft values laid)
  · rw [List.concat_eq_append] at laid
    have joined := joinedLiterals_of_concat draft values laid
    have inner := laid.inner last (List.mem_append_right _ List.mem_cons_self)
    cases last with
    | literal old => exact ⟨_, _, written joined, laid.join values⟩
    | exit | foreign => exact inner.elim
    | native | call | created | does => exact appended joined

/-- What becomes of a name that is not the one of the open definition. -/
theorem interpretName_of_find (call : Caller) {x : Machine} {name : String} {entry : Nat} {w : Word}
    (other : x.ownAddress? name = none) (found : x.dictionary.find? name = some entry)
    (known : x.dictionary.get? entry = some w) :
    x.interpretName call name =
      if x.compiling && !w.immediate then .done () (x.append (cellOf entry w))
      else x.executeEntry call entry := by
  have looked : x.lookup name = .ok entry := by
    unfold Store.lookup
    rw [found]
  unfold interpretName
  rw [other]
  simp only [looked, known]

theorem ownAddress?_midway {draft : Draft} {other : String} {barrier : Nat}
    (different : draft.name ≠ other) :
    (m.midway draft code barrier).ownAddress? other = none :=
  if_neg different

theorem ownAddress?_drafting {draft : Draft} {other : String} (different : draft.name ≠ other) :
    (m.drafting draft code).ownAddress? other = none :=
  ownAddress?_midway different

/-- A word that is not immediate is compiled. -/
theorem interpretName_compiled (call : Caller) {draft : Draft} {barrier : Nat} {name : String}
    {entry : Nat} {w : Word} (different : draft.name ≠ name)
    (found : m.dictionary.find? name = some entry) (known : m.dictionary.get? entry = some w)
    (open_ : w.immediate = false) :
    (m.midway draft code barrier).interpretName call name =
      .done () (m.midway draft (code.push (cellOf entry w)) barrier) := by
  have compiled : ((m.midway draft code barrier).compiling && !w.immediate) = true := by
    rw [open_]
    rfl
  rw [interpretName_of_find call (ownAddress?_midway different) found known, if_pos compiled]
  rfl

/-- The name of a word that is not immediate becomes its cell. -/
theorem interpretName_drafting (call : Caller) {draft : Draft} {other : String} {cell : Cell}
    (laid : m.Laid cells code body) (found : m.cellOf? (.word other) = some cell)
    (different : draft.name ≠ other) :
    (m.drafting draft code).interpretName call other =
        .done () (m.drafting draft (code.push cell)) ∧
      m.Laid (cells ++ [cell]) (code.push cell) (body ++ [cell]) := by
  obtain ⟨entry, w, meant, known, open_, rfl⟩ := cellOf?_word found
  exact ⟨interpretName_compiled call different meant known open_,
    laid.push (isInner_cellOf entry w)⟩

/-- Tokens that stand for cells are compiled one after the other. -/
theorem run_drafting (call : Caller) (draft : Draft) {tokens : List Token}
    (compiled : ∀ token ∈ tokens, (m.cellOf? token).isSome) (other : .word draft.name ∉ tokens) :
    ∀ {cells body : List Cell} {code : Array Cell}, m.Laid cells code body →
      ∃ code' body', (m.drafting draft code).run call tokens = .done () (m.drafting draft code') ∧
        m.Laid (cells ++ tokens.filterMap m.cellOf?) code' body' := by
  induction tokens with
  | nil =>
    intro cells body code laid
    refine ⟨code, body, rfl, ?_⟩
    rw [List.filterMap_nil, List.append_nil]
    exact laid
  | cons token rest ih =>
    intro cells body code laid
    obtain ⟨cell, found⟩ := Option.isSome_iff_exists.mp (compiled token List.mem_cons_self)
    -- each token lays its own cell, or joins its literals to the last one
    have step : ∃ code' body', (m.drafting draft code).interpretToken call token =
        .done () (m.drafting draft code') ∧ m.Laid (cells ++ [cell]) code' body' := by
      cases token with
      | datum v =>
        cases found
        exact interpretLiterals_drafting draft [v] laid
      | batch values =>
        cases found
        exact interpretLiterals_drafting draft values laid
      | word own =>
        have different : draft.name ≠ own := by
          rintro rfl
          exact other List.mem_cons_self
        exact ⟨_, _, interpretName_drafting call laid found different⟩
      | malformed content => cases found
    obtain ⟨code', body', ends, laid'⟩ := step
    obtain ⟨code'', body'', ends', laid''⟩ :=
      ih (fun t inside => compiled t (List.mem_cons_of_mem token inside))
        (fun inside => other (List.mem_cons_of_mem token inside)) laid'
    refine ⟨code'', body'', ?_, ?_⟩
    · rw [run, interpret, ends]
      exact ends'
    · rw [List.filterMap_cons_some found]
      rw [List.append_assoc] at laid''
      exact laid''

/-! ## Opening and finishing the definition -/

/-- The name means the word. -/
def Knows (m : Machine) (name : String) (w : Word) : Prop :=
  ∃ entry, m.dictionary.find? name = some entry ∧ m.dictionary.get? entry = some w

theorem ownAddress?_of_idle {name : String} (idle : m.compiling = false) :
    m.ownAddress? name = none := by
  unfold ownAddress?
  rw [idle]

/-- A word that is fed while nothing is compiled is run. -/
theorem interpretName_of_idle (call : Caller) {name : String} {entry : Nat} {w : Word}
    (idle : m.compiling = false) (found : m.dictionary.find? name = some entry)
    (known : m.dictionary.get? entry = some w) :
    m.interpretName call name = m.executeEntry call entry := by
  rw [interpretName_of_find call (ownAddress?_of_idle idle) found known, idle]
  rfl

theorem executeEntry_native (call : Caller) {entry : Nat} {name : String} {immediate : Bool}
    {n : Native} (known : m.dictionary.get? entry = some ⟨name, immediate, .native n⟩) :
    m.executeEntry call entry = m.callNative call name n := by
  unfold executeEntry
  rw [known]

/-- A fault leaves everything as it is when nothing is compiled. -/
theorem onFault_of_idle {f : Fault} (idle : m.compiling = false) :
    (.failed f m : Outcome Unit).onFault abandonIfCompiling = .failed f m := by
  have same : m.abandonIfCompiling = m := by
    unfold abandonIfCompiling
    rw [idle]
    rfl
  simp only [Outcome.onFault, same, ite_self]

/-- What becomes of a value on the stack and `define` is up to the value. -/
theorem run_opening (call : Caller) (name : Value) (idle : m.compiling = false)
    (define : m.Knows "define" (Builtin.plain "define" .define)) :
    m.run call [.batch [name], .word "define"] =
      match m.toStore.define m.code.size name with
      | .ok s => .done () { m with toStore := s }
      | .error f => .failed f (if f.isInterrupt then m else m.pushAll [name]) := by
  obtain ⟨entry, found, known⟩ := define
  have pushed : m.interpret call (.batch [name]) = .done () (m.pushAll [name]) := by
    unfold interpret interpretToken interpretLiterals
    rw [idle]
    rfl
  have executed : (m.pushAll [name]).interpretName call "define" =
      (m.pushAll [name]).callNative call "define" ⟨.primitive .define, 1, false⟩ := by
    have idle : (m.pushAll [name]).compiling = false := idle
    rw [interpretName_of_idle call idle found known]
    exact executeEntry_native call known
  have taken : (m.pushAll [name]).toStore.take 1 = ([name], m.toStore) :=
    m.toStore.take_pushAll [name]
  have enough : ¬ (m.pushAll [name]).stack.depth < 1 := by
    show ¬ 1 + m.stack.depth < 1
    omega
  rw [run, pushed, Outcome.bind_done, run, interpret, interpretToken, executed, callNative,
    callWith, if_neg enough, taken]
  simp only [Action.perform, Primitive.perform_eq, Primitive.apply, here]
  rw [show (m.pushAll [name]).code = m.code from rfl]
  cases m.toStore.define m.code.size name with
  | ok s => rfl
  | error f =>
    -- nothing is compiled, so there is nothing to drop
    have kept : (if f.isInterrupt then m else m.pushAll [name]).compiling = false := by
      split
      · exact idle
      · exact idle
    exact congrArg (fun o => o.bind fun () after => run call [] after) (onFault_of_idle kept)

/-- A name on the stack and `define` open a definition. -/
theorem run_open (call : Caller) {name : String} (idle : m.compiling = false)
    (valid : Text.allBlank name.toList = false)
    (define : m.Knows "define" (Builtin.plain "define" .define)) :
    m.run call [.batch [.text name], .word "define"] =
      .done () (m.drafting ⟨name, m.code.size, false, valid⟩ m.code) := by
  have defined : m.toStore.define m.code.size (.text name) =
      .ok (m.toStore.openDraft ⟨name, valid⟩ m.code.size) :=
    Store.define_text m.code.size valid idle
  rw [run_opening call (.text name) idle define, defined]
  rfl

/-- A directive is performed in the middle of a definition. -/
theorem interpretName_directive (call : Caller) {draft : Draft} {code : Array Cell} {barrier : Nat}
    {name : String} {d : Directive} (different : draft.name ≠ name)
    (known : m.Knows name (Builtin.ofDirective name d)) :
    (m.midway draft code barrier).interpretName call name =
      (m.midway draft code barrier).callNative call name ⟨.directive d, d.arity, false⟩ := by
  obtain ⟨entry, found, known⟩ := known
  rw [interpretName_of_find call (ownAddress?_midway different) found known]
  exact executeEntry_native call known

/-- A directive takes its arguments off and does its work, and has no result. -/
theorem callNative_directive (call : Caller) (name : String) {d : Directive} (m : Machine)
    {after : Machine} (applied : d.apply [] m = .ok after) :
    m.callNative call name ⟨.directive d, 0, false⟩ = .done () after := by
  show ((d.perform [] m).onFault _).bind _ = _
  rw [Directive.perform_eq, applied]
  rfl

/-- The machine `m` between the last cell of a definition and its entry. -/
def closed (m : Machine) (code : Array Cell) (barrier : Nat) : Machine :=
  { m with compiling := false, draft := none, barrier := barrier, code := code.push .exit }

/-- `return`, or another word for the same, registers the word that is defined. -/
theorem interpretName_finish (call : Caller) (draft : Draft) (code : Array Cell) (barrier : Nat)
    {finish : String} (different : draft.name ≠ finish)
    (return_ : m.Knows finish (Builtin.ofDirective finish .finish)) :
    (m.midway draft code barrier).interpretName call finish =
      .done () ((m.closed code barrier).installDraft draft) := by
  rw [interpretName_directive call different return_]
  exact callNative_directive call finish _ rfl

/-- What there is after a definition has been finished. -/
theorem interpret_return (call : Caller) (code : Array Cell) (draft : Draft) {finish : String}
    (different : draft.name ≠ finish) (idle : m.compiling = false)
    (return_ : m.Knows finish (Builtin.ofDirective finish .finish)) :
    ∃ after, (m.drafting draft code).interpretName call finish = .done () after ∧
      after.code = code.push .exit ∧ after.capacity = m.capacity ∧ after.ip = m.ip ∧
      m.toStore.Twin ⟨draft.name, draft.immediate, .colon draft.address⟩ after.toStore := by
  let last := m.closed code m.code.size
  have installed :=
    last.toStore.twin_install ⟨draft.name, draft.immediate, .colon draft.address⟩
  refine ⟨_, interpretName_finish call draft code m.code.size different return_,
    rfl, rfl, rfl, ?_⟩
  have twin : m.toStore.Twin ⟨draft.name, draft.immediate, .colon draft.address⟩
      { last.toStore.install ⟨draft.name, draft.immediate, .colon draft.address⟩ with
        lastDefined := some last.dictionary.size } :=
    ⟨installed.stack, installed.slots, installed.nextMark, installed.transcript,
      installed.compiling.trans idle.symm, installed.lastCreated, installed.verbose,
      installed.dictionary⟩
  exact twin.note_right ..

theorem run_append (call : Caller) (first second : List Token) (m : Machine) :
    m.run call (first ++ second) =
      (m.run call first).bind fun () middle => middle.run call second := by
  induction first generalizing m with
  | nil => rfl
  | cons token rest ih =>
    rw [List.cons_append, run, run]
    cases m.interpret call token with
    | done a middle => exact ih middle
    | failed f middle => rfl

/-- What is there after a definition: behind the code of `m` there is a body that does what
the cells of the tokens do, and the dictionary has one more word. -/
structure Defined (m : Machine) (name : String) (tokens : List Token) (after : Machine) :
    Prop where
  code : ∃ body, after.code.toList = m.code.toList ++ body ++ [.exit] ∧
    (∀ cell ∈ body, cell.IsInner) ∧ ∀ enter s, Cell.actAll after enter body s =
      Cell.actAll after enter (tokens.filterMap m.cellOf?) s
  capacity : after.capacity = m.capacity
  ip : after.ip = m.ip
  twin : m.toStore.Twin ⟨name, false, .colon m.code.size⟩ after.toStore

/-- Tokens that stand for cells can be made into a word. -/
theorem run_define (call : Caller) {name finish : String} {tokens : List Token}
    (idle : m.compiling = false) (valid : Text.allBlank name.toList = false)
    (different : name ≠ finish) (define : m.Knows "define" (Builtin.plain "define" .define))
    (return_ : m.Knows finish (Builtin.ofDirective finish .finish))
    (compiled : ∀ token ∈ tokens, (m.cellOf? token).isSome) (other : .word name ∉ tokens) :
    ∃ after, m.run call (.batch [.text name] :: .word "define" :: tokens ++ [.word finish]) =
      .done () after ∧ m.Defined name tokens after := by
  obtain ⟨code, body, ran, laid⟩ :=
    run_drafting call ⟨name, m.code.size, false, valid⟩ compiled other m.laid_nil
  obtain ⟨after, finished, grown, capacity, ip, twin⟩ :=
    interpret_return call code ⟨name, m.code.size, false, valid⟩ different idle return_
  have whole : m.run call (.batch [.text name] :: .word "define" :: tokens ++ [.word finish]) =
      .done () after := by
    show m.run call ([.batch [.text name], .word "define"] ++ tokens ++ [.word finish]) = _
    rw [run_append, run_append, run_open call idle valid define, Outcome.bind_done, ran,
      Outcome.bind_done, run, interpret, interpretToken, finished]
    rfl
  refine ⟨after, whole, ⟨body, ?_, laid.inner, laid.acts after⟩, capacity, ip, twin⟩
  rw [grown, Array.toList_push, laid.code]

end Machine
end ThreadedForth
