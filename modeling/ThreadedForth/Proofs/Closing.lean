import ThreadedForth.Proofs.Compilation
import ThreadedForth.Proofs.Placement

/-!
# Whether a definition closes

`Session.define` feeds a name, `define`, the tokens of the body and `return`.  When none of the
tokens is immediate there are three things that can go wrong.  The name may be none, in which
case nothing is opened.  A token of the body may be unknown, in which case the open definition
is dropped.  In both cases nothing is being compiled afterwards, and the dictionary is as it was.

The third one is the name `return`.  The name of the open definition comes before all other words,
so `return` at the end of such a body does not close it; it becomes a call like the others.
Everything succeeds, and the definition is left open.

* `Machine.run_admitted`: the body of an open definition, which is compiled or dropped;
* `Session.define_closes`: how the definition ends, for all names and bodies;
* `Session.define_left_open`: the definition of `return`.
-/

namespace ThreadedForth
namespace Machine

variable {m : Machine}

/-- The token may be fed in a definition of `name`: it is a literal, the name itself, or it names
no immediate word. -/
def Admits (m : Machine) (name : Value) : Token → Prop
  | .datum _ | .batch _ => True
  | .word w => .text w = name ∨ ∀ v, m.Knows w v → v.immediate = false
  | .malformed _ => False

/-- The token stands for something in a definition of `own`: it is a literal, the name itself, or
a word that is known. -/
def Means (m : Machine) (own : String) : Token → Prop
  | .datum _ | .batch _ => True
  | .word w => w = own ∨ ∃ v, m.Knows w v
  | .malformed _ => False

/-- The machine compiles nothing, and its dictionary is that of `m`. -/
def Dropped (m after : Machine) : Prop := after.compiling = false ∧ after.dictionary = m.dictionary

/-! ## The body -/

variable {draft : Draft} {cells body : List Cell} {code : Array Cell}

/-- A token that stands for something is compiled. -/
theorem interpret_means (call : Caller) {token : Token} (laid : m.Laid cells code body)
    (admitted : m.Admits (.text draft.name) token) (means : m.Means draft.name token) :
    ∃ cells' code' body', (m.drafting draft code).interpret call token =
      .done () (m.drafting draft code') ∧ m.Laid cells' code' body' := by
  have literals : ∀ values, ∃ cells' code' body',
      ((m.drafting draft code).interpretLiterals values).onFault abandonIfCompiling =
        .done () (m.drafting draft code') ∧ m.Laid cells' code' body' := by
    intro values
    obtain ⟨code', body', ends, laid'⟩ := interpretLiterals_drafting draft values laid
    exact ⟨_, code', body', by rw [ends]; rfl, laid'⟩
  cases token with
  | datum v => exact literals [v]
  | batch values => exact literals values
  | malformed content => exact means.elim
  | word w =>
    by_cases own : w = draft.name
    · have inner : (Cell.call draft.address draft.name).IsInner := trivial
      refine ⟨_, _, _, ?_, laid.push inner⟩
      rw [interpret, interpretToken, own]
      exact congrArg (Outcome.onFault _) (interpretName_own call m draft code m.code.size)
    · obtain ⟨v, entry, found, known⟩ := means.resolve_left own
      have open_ : v.immediate = false :=
        (admitted.resolve_left fun same => own (Value.text.inj same)) v ⟨entry, found, known⟩
      have ends := interpretName_drafting call laid (cellOf?_of_find found known open_)
        (Ne.symm own)
      refine ⟨_, _, _, ?_, ends.2⟩
      rw [interpret, interpretToken, ends.1]
      rfl

theorem dropped_abandonIfCompiling (draft : Draft) (code : Array Cell) :
    m.Dropped (m.drafting draft code).abandonIfCompiling := by
  obtain ⟨notes, abandoned⟩ := (m.drafting draft code).toStore.abandon_eq
  have given_up : (m.drafting draft code).abandonIfCompiling =
      { m.drafting draft code with toStore := (m.drafting draft code).toStore.abandon } :=
    if_pos rfl
  rw [given_up, abandoned]
  exact ⟨rfl, rfl⟩

/-- A token that stands for nothing ends the definition. -/
theorem interpret_unknown (call : Caller) (code : Array Cell) {token : Token}
    (admitted : m.Admits (.text draft.name) token) (unknown : ¬ m.Means draft.name token) :
    ∃ f after, (m.drafting draft code).interpret call token = .failed f after ∧
      m.Dropped after := by
  cases token with
  | datum | batch => exact absurd trivial unknown
  | malformed content => exact admitted.elim
  | word w =>
    have missing : m.dictionary.find? w = none := by
      cases found : m.dictionary.find? w with
      | none => rfl
      | some entry =>
        obtain ⟨v, known, -⟩ := Dictionary.exists_get?_of_find? found
        exact absurd (.inr ⟨v, entry, found, known⟩) unknown
    have other : draft.name ≠ w := fun same => unknown (.inl same.symm)
    have looked : (m.drafting draft code).lookup w = .error (.undefinedWord w) := by
      unfold Store.lookup
      rw [show (m.drafting draft code).dictionary.find? w = none from missing]
    have ends : (m.drafting draft code).interpretName call w =
        .failed (.undefinedWord w) (m.drafting draft code) := by
      unfold interpretName
      rw [ownAddress?_drafting other]
      simp only [looked]
    refine ⟨.undefinedWord w, _, ?_, dropped_abandonIfCompiling draft code⟩
    rw [interpret, interpretToken, ends]
    rfl

/-- The body of an open definition is compiled if all its tokens stand for something, and else
the definition is dropped. -/
theorem run_admitted (call : Caller) (draft : Draft) {tokens : List Token}
    (admitted : ∀ token ∈ tokens, m.Admits (.text draft.name) token) :
    ∀ {cells body : List Cell} {code : Array Cell}, m.Laid cells code body →
      (∀ token ∈ tokens, m.Means draft.name token) ∧ (∃ cells' code' body',
        (m.drafting draft code).run call tokens = .done () (m.drafting draft code') ∧
          m.Laid cells' code' body') ∨
      (∃ token ∈ tokens, ¬ m.Means draft.name token) ∧ ∃ f after,
        (m.drafting draft code).run call tokens = .failed f after ∧ m.Dropped after := by
  induction tokens with
  | nil => exact fun laid => .inl ⟨nofun, _, _, _, rfl, laid⟩
  | cons token rest ih =>
    intro cells body code laid
    rw [List.forall_mem_cons] at admitted
    by_cases means : m.Means draft.name token
    · obtain ⟨cells', code', body', ends, laid'⟩ := interpret_means call laid admitted.1 means
      have step : (m.drafting draft code).run call (token :: rest) =
          (m.drafting draft code').run call rest := by
        rw [run, ends, Outcome.bind_done]
      rw [step]
      rcases ih admitted.2 laid' with ⟨others, ran⟩ | ⟨⟨other, inside, unknown⟩, fails⟩
      · exact .inl ⟨List.forall_mem_cons.mpr ⟨means, others⟩, ran⟩
      · exact .inr ⟨⟨other, List.mem_cons_of_mem token inside, unknown⟩, fails⟩
    · obtain ⟨f, after, ends, dropped⟩ :=
        interpret_unknown call code admitted.1 means
      refine .inr ⟨⟨token, List.mem_cons_self, means⟩, f, after, ?_, dropped⟩
      rw [run, ends, Outcome.bind_failed]

/-! ## Opening -/

/-- A value that is no name opens no definition. -/
theorem run_open_refused (call : Caller) {name : Value} (idle : m.compiling = false)
    (define : m.Knows "define" (Builtin.plain "define" .define))
    (refused : ∀ own, name = .text own → ¬ Text.IsName own) :
    ∃ f after, m.run call [.batch [name], .word "define"] = .failed f after ∧
      m.Dropped after := by
  obtain ⟨f, invalid⟩ : ∃ f, m.toStore.readName name = .error f := by
    cases read : m.toStore.readName name with
    | error f => exact ⟨f, rfl⟩
    | ok own =>
      exact absurd (Text.isName_iff.mpr own.2) (refused own.1 (Store.readName_eq_ok read))
  have refuses : m.toStore.define m.code.size name = .error f := by
    simp only [Store.define, invalid]
    rfl
  rw [run_opening call name idle define, refuses]
  refine ⟨f, _, rfl, ?_⟩
  split
  · exact ⟨idle, rfl⟩
  · exact ⟨idle, rfl⟩

/-! ## Closing -/

/-- `return` closes a definition of any other name. -/
theorem run_return (call : Caller) (code : Array Cell) {own : String}
    (valid : Text.allBlank own.toList = false) (idle : m.compiling = false)
    (return_ : m.Knows "return" (Builtin.ofDirective "return" .finish))
    (different : own ≠ "return") :
    ∃ after, (m.drafting ⟨own, m.code.size, false, valid⟩ code).run call [.word "return"] =
        .done () after ∧ after.compiling = false ∧
      after.dictionary = m.dictionary.push ⟨own, false, .colon m.code.size⟩ ∧
      after.Knows own ⟨own, false, .colon m.code.size⟩ := by
  obtain ⟨after, finished, -, -, -, twin⟩ :=
    interpret_return call code ⟨own, m.code.size, false, valid⟩ different idle return_
  have bound : after.dictionary = m.dictionary.push ⟨own, false, .colon m.code.size⟩ :=
    twin.dictionary
  refine ⟨after, run_word call finished, twin.compiling.trans idle, bound,
    m.dictionary.size, ?_, ?_⟩
  · rw [bound]
    exact m.dictionary.find?_push_self ⟨own, false, .colon m.code.size⟩
  · rw [bound, Dictionary.get?_push_size]

/-- `return` in a definition of that name is a call. -/
theorem run_return_own (call : Caller) (code : Array Cell) (start : Nat) :
    (m.drafting ⟨"return", start, false, by decide⟩ code).run call [.word "return"] =
      .done ()
        (m.drafting ⟨"return", start, false, by decide⟩ (code.push (.call start "return"))) :=
  run_word call (interpretName_own call m ⟨"return", start, false, by decide⟩ code m.code.size)

end Machine

namespace Session

open Machine

/-- The name is one, and all tokens stand for something in its definition. -/
def Definable (m : Machine) (name : Value) (tokens : List Token) : Prop :=
  ∃ own, name = .text own ∧ Text.IsName own ∧ ∀ token ∈ tokens, m.Means own token

/-- A definition from outside, of any value as a name and by any tokens that name no immediate
words, closes.  If the name is one and all tokens stand for something, the name is bound to a new
word; otherwise the call fails and the dictionary is as it was; and nothing is being compiled
afterwards in either case.  The name `return` alone makes an exception.  Its definition is
dropped, too, if some token stands for nothing, and else it stays open although the call
succeeds. -/
theorem define_closes {m : Machine} {name : Value} {tokens : List Token}
    (idle : m.compiling = false) (define : m.Knows "define" (Builtin.plain "define" .define))
    (return_ : m.Knows "return" (Builtin.ofDirective "return" .finish))
    (admitted : ∀ token ∈ tokens, m.Admits name token) :
    (Definable m name tokens → name ≠ .text "return" → ∃ own after, name = .text own ∧
        Session.define name tokens m = .done () after ∧ after.compiling = false ∧
        after.dictionary = m.dictionary.push ⟨own, false, .colon m.code.size⟩ ∧
        after.Knows own ⟨own, false, .colon m.code.size⟩) ∧
      (¬ Definable m name tokens → ∃ f after, Session.define name tokens m = .failed f after ∧
        after.compiling = false ∧ after.dictionary = m.dictionary) ∧
      (Definable m name tokens → name = .text "return" → ∃ after,
        Session.define name tokens m = .done () after ∧ after.compiling = true ∧
        after.draft = some ⟨"return", m.code.size, false, by decide⟩ ∧
        after.dictionary = m.dictionary) := by
  have whole : Session.define name tokens m =
      ((m.run Host.caller [.batch [name], .word "define"]).bind fun () opened =>
        opened.run Host.caller tokens).bind fun () middle =>
          middle.run Host.caller [.word "return"] := by
    rw [← run_append, ← run_append]
    rfl
  rw [whole]
  by_cases valid : ∃ own, name = .text own ∧ Text.IsName own
  · obtain ⟨own, rfl, named⟩ := valid
    rw [run_open Host.caller idle (Text.isName_iff.mp named) define, Outcome.bind_done]
    rcases run_admitted Host.caller ⟨own, m.code.size, false, Text.isName_iff.mp named⟩ admitted
      m.laid_nil with
      ⟨means, cells, code, body, ran, -⟩ | ⟨⟨token, inside, unknown⟩, f, after, fails, dropped⟩
    · have definable : Definable m (.text own) tokens := ⟨own, rfl, named, means⟩
      rw [ran, Outcome.bind_done]
      refine ⟨fun _ other => ?_, fun none_ => absurd definable none_, fun _ same => ?_⟩
      · obtain ⟨after, closed⟩ := run_return Host.caller code (Text.isName_iff.mp named) idle
          return_ fun same => other (congrArg Value.text same)
        exact ⟨own, after, rfl, closed⟩
      · cases same
        exact ⟨_, run_return_own Host.caller code m.code.size, rfl, rfl, rfl⟩
    · have none_ : ¬ Definable m (.text own) tokens := by
        rintro ⟨_, ⟨⟩, -, means⟩
        exact unknown (means token inside)
      rw [fails, Outcome.bind_failed]
      exact ⟨fun definable => absurd definable none_, fun _ => ⟨f, after, rfl, dropped⟩,
        fun definable => absurd definable none_⟩
  · have none_ : ¬ Definable m name tokens := fun ⟨own, same, named, _⟩ =>
      valid ⟨own, same, named⟩
    obtain ⟨f, after, fails, dropped⟩ := run_open_refused Host.caller idle define
      fun own same named => valid ⟨own, same, named⟩
    rw [fails, Outcome.bind_failed, Outcome.bind_failed]
    exact ⟨fun definable => absurd definable none_, fun _ => ⟨f, after, rfl, dropped⟩,
      fun definable => absurd definable none_⟩

/-- A word that runs itself closes. -/
theorem define_closes_looping :
    let m := Machine.fresh 16 false false
    let tokens := [.datum (.int 1), .word "drop", .word "loop"]
    Definable m (.text "loop") tokens ∧ ∃ after,
      Session.define (.text "loop") tokens m = .done () after ∧ after.compiling = false ∧
        after.Knows "loop" ⟨"loop", false, .colon 0⟩ := by
  intro m tokens
  have drop : m.Knows "drop" (Builtin.plain "drop" .drop) := ⟨1, by decide +kernel, rfl⟩
  have admitted : ∀ token ∈ tokens, m.Admits (.text "loop") token := by
    refine List.forall_mem_cons.mpr ⟨trivial, List.forall_mem_cons.mpr ⟨.inr fun v knows => ?_,
      List.forall_mem_cons.mpr ⟨.inl rfl, nofun⟩⟩⟩
    obtain ⟨entry, found, known⟩ := knows
    obtain ⟨entry', found', known'⟩ := drop
    cases found.symm.trans found'
    cases known.symm.trans known'
    rfl
  have definable : Definable m (.text "loop") tokens :=
    ⟨"loop", rfl, ⟨'l', by decide, by decide⟩, List.forall_mem_cons.mpr ⟨trivial,
      List.forall_mem_cons.mpr ⟨.inr ⟨_, drop⟩, List.forall_mem_cons.mpr ⟨.inl rfl, nofun⟩⟩⟩⟩
  obtain ⟨own, after, same, defined, idle, -, knows⟩ :=
    (define_closes (m := m) rfl ⟨8, by decide +kernel, rfl⟩ ⟨9, by decide +kernel, rfl⟩
      admitted).1 definable (by decide)
  cases same
  exact ⟨definable, after, defined, idle, knows⟩

/-- The machine in the definition of `return` that its own end has not closed. -/
def unreturned : Machine :=
  { Machine.fresh 16 false false with
    compiling := true
    draft := some ⟨"return", 0, false, by decide⟩
    code := #[.literal [.int 1], .call 0 "return"] }

/-- A definition of `return` does not close. -/
theorem define_left_open :
    let m := Machine.fresh 16 false false
    m.compiling = false ∧ m.Knows "define" (Builtin.plain "define" .define) ∧
      m.Knows "return" (Builtin.ofDirective "return" .finish) ∧
      m.Admits (.text "return") (.datum (.int 1)) ∧
      Definable m (.text "return") [.datum (.int 1)] ∧
      Session.define (.text "return") [.datum (.int 1)] m = .done () unreturned ∧
      unreturned.compiling = true ∧ unreturned.dictionary = m.dictionary := by
  intro m
  exact ⟨rfl, ⟨8, by decide +kernel, rfl⟩, ⟨9, by decide +kernel, rfl⟩, trivial,
    ⟨"return", rfl, ⟨'r', by decide, by decide⟩, List.forall_mem_cons.mpr ⟨trivial, nofun⟩⟩,
    rfl, rfl, rfl⟩

end Session
end ThreadedForth
