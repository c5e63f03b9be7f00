import Mathlib.Data.List.SplitBy
import ThreadedForth.Proofs.Layout
import ThreadedForth.Proofs.Registry

/-!
# Where the cells of a definition go

What code a definition leaves is told here cell by cell.  The tokens are cut into *stretches*:
literal tokens that follow each other make one, and every other token makes one of its own.  A
stretch of literals becomes one cell that holds all their values, whether they came in batches
or not.  The name of a word becomes the cell of the word, `exit` becomes an exit, and `does`
becomes two cells, of which the first refers to the place behind the second.

The machine does not work by stretches.  It writes a cell with every token and joins literals
to the cell before, if that is a literal one and the *barrier* allows it.  In the middle of a
definition the end of the code is in one of two conditions.  Either nothing can be joined to it
(`Machine.Sealed`), be it by the barrier or because the last cell is no literal one, or literals
are being collected there.  The first condition holds when a definition begins, since the barrier
then stands at the end of the code, whatever was left there before; and it holds again after
every token that is no literal.  So every stretch of literals begins with a new cell, and the
induction goes by stretches.

* `Machine.layout`: the cells of a definition, in terms of its tokens alone;
* `Machine.run_stretches`: a definition is laid stretch by stretch;
* `Session.define_layout`: what a definition changes is its cells, one word, and nothing else
  but the barrier and the notes.
-/

namespace ThreadedForth

namespace Token

/-- The token carries values. -/
def isLiteral : Token → Bool
  | .datum _ | .batch _ => true
  | .word _ | .malformed _ => false

/-- The values that a token carries. -/
def values : Token → List Value
  | .datum v => [v]
  | .batch values => values
  | .word _ | .malformed _ => []

/-- Two tokens that follow each other and share a cell. -/
def joins (first second : Token) : Bool := first.isLiteral && second.isLiteral

/-- Literals that are taken together. -/
def AreLiterals (stretch : List Token) : Prop :=
  stretch ≠ [] ∧ ∀ token ∈ stretch, token.isLiteral = true

theorem all_isLiteral_of_isChain {token : Token} {others : List Token}
    (first : token.isLiteral = true)
    (chain : (token :: others).IsChain fun a b => joins a b = true) :
    ∀ other ∈ token :: others, other.isLiteral = true := by
  induction others generalizing token with
  | nil =>
    intro other inside
    rw [List.mem_singleton.mp inside]
    exact first
  | cons second rest ih =>
    rw [List.isChain_cons_cons] at chain
    have both : token.isLiteral = true ∧ second.isLiteral = true := by
      simpa [joins] using chain.1
    rw [List.forall_mem_cons]
    exact ⟨first, ih both.2 chain.2⟩

/-- Tokens are cut into stretches of literals and single tokens that are no literals. -/
theorem stretch_cases {tokens stretch : List Token} (inside : stretch ∈ tokens.splitBy joins) :
    AreLiterals stretch ∨ ∃ token ∈ tokens, stretch = [token] ∧ token.isLiteral = false := by
  have chain := List.isChain_of_mem_splitBy inside
  cases stretch with
  | nil => exact absurd inside (List.nil_notMem_splitBy joins tokens)
  | cons token others =>
    by_cases first : token.isLiteral = true
    · exact .inl ⟨List.cons_ne_nil _ _, all_isLiteral_of_isChain first chain⟩
    · have alone : others = [] := by
        cases others with
        | nil => rfl
        | cons second rest =>
          rw [List.isChain_cons_cons] at chain
          have both : token.isLiteral = true ∧ second.isLiteral = true := by
            simpa [joins] using chain.1
          exact absurd both.1 first
      subst alone
      have there : token ∈ tokens := by
        rw [← List.flatten_splitBy joins tokens]
        exact List.mem_flatten_of_mem inside List.mem_cons_self
      exact .inr ⟨token, there, rfl, by simpa using first⟩

/-- No stretch of literals follows another one. -/
theorem isChain_stretches (tokens : List Token) :
    (tokens.splitBy joins).IsChain fun a b => ¬ (AreLiterals a ∧ AreLiterals b) := by
  refine (List.isChain_getLast_head_splitBy joins tokens).imp ?_
  rintro a b ⟨left, right, apart⟩ ⟨literals, literals'⟩
  have both : joins (a.getLast left) (b.head right) = true := by
    rw [joins, literals.2 _ (List.getLast_mem left), literals'.2 _ (List.head_mem right)]
    rfl
  rw [apart] at both
  cases both

end Token

namespace Machine

variable {m : Machine}

/-! ## The cells of a definition -/

/-- The cells of a name in a definition of `own` that begins at `start`, when `position` is the
next free address. -/
def wordCells (m : Machine) (own : String) (start position : Nat) (name : String) : List Cell :=
  if name = own then [.call start own]
  else if name = "exit" then [.exit]
  else if name = "does" then [.does (position + 2 : Nat), .exit]
  else
    match m.dictionary.find? name with
    | none => []
    | some entry =>
      match (m.dictionary.get? entry).map Word.body with
      | none => []
      | some (.native _) => [.native entry]
      | some (.colon address) => [.call address name]
      | some (.created _ _) => [.created entry]

/-- The cells of a stretch. -/
def stretchCells (m : Machine) (own : String) (start position : Nat) : List Token → List Cell
  | [.word name] => m.wordCells own start position name
  | literals => [.literal (literals.flatMap Token.values)]

/-- The cells of stretches, one behind the other. -/
def stretchesCells (m : Machine) (own : String) (start : Nat) : Nat → List (List Token) → List Cell
  | _, [] => []
  | position, stretch :: rest =>
    let cells := m.stretchCells own start position stretch
    cells ++ m.stretchesCells own start (position + cells.length) rest

/-- The cells of a definition of `own` by the tokens. -/
def layout (m : Machine) (own : String) (tokens : List Token) : List Cell :=
  m.stretchesCells own m.code.size m.code.size (tokens.splitBy Token.joins) ++ [.exit]

/-- The token has a place in a definition of `own`: it is a literal, the name itself, `exit`,
`does`, or the name of a word that is not immediate. -/
def Places (m : Machine) (own : String) : Token → Prop
  | .datum _ | .batch _ => True
  | .word name => name = own ∨ name = "exit" ∨ name = "does" ∨
      ∃ w, m.Knows name w ∧ w.immediate = false
  | .malformed _ => False

/-! ## In the middle of the definition -/

/-- Nothing is joined to the end of the code, because the last cell holds no values or because
the barrier is behind it. -/
structure Sealed (code : Array Cell) (barrier : Nat) : Prop where
  low : barrier ≤ code.size
  closed : ∀ last values, code.back? = some last → barrier ≤ code.size - 1 →
    last.openValues values = .ok none

theorem sealed_size (code : Array Cell) : Sealed code code.size := by
  refine ⟨Nat.le_refl _, fun last values there low => ?_⟩
  obtain ⟨earlier, rfl⟩ := Array.back?_eq_some_iff.mp there
  rw [Array.size_push] at low
  omega

/-- A cell that holds no values seals the code. -/
theorem sealed_push {code : Array Cell} {barrier : Nat} {cell : Cell}
    (low : barrier ≤ code.size + 1) (closed : ∀ values, cell.openValues values = .ok none) :
    Sealed (code.push cell) barrier := by
  refine ⟨by rwa [Array.size_push], fun last values there _ => ?_⟩
  rw [Array.back?_push] at there
  cases there
  exact closed values

variable {draft : Draft} {code : Array Cell} {barrier : Nat}

/-! ### Literals -/

theorem interpret_literal (call : Caller) {token : Token} (literal : token.isLiteral = true)
    {joined : Option (List Value)}
    (found : (m.midway draft code barrier).joinedLiterals token.values = .ok joined) :
    (m.midway draft code barrier).interpret call token =
      .done () ((m.midway draft code barrier).writeLiterals token.values joined) := by
  have compiling : (m.midway draft code barrier).compiling = true := rfl
  have written : (m.midway draft code barrier).interpretLiterals token.values =
      .done () ((m.midway draft code barrier).writeLiterals token.values joined) := by
    unfold interpretLiterals
    rw [if_pos compiling, found]
  cases token with
  | datum v => exact congrArg (Outcome.onFault _) written
  | batch values => exact congrArg (Outcome.onFault _) written
  | word | malformed => cases literal

/-- A literal behind sealed code gets a cell of its own. -/
theorem interpret_first (call : Caller) {token : Token} (literal : token.isLiteral = true)
    (sealed_ : Sealed code barrier) :
    (m.midway draft code barrier).interpret call token =
      .done () (m.midway draft (code.push (.literal token.values)) barrier) := by
  have alone : (m.midway draft code barrier).joinedLiterals token.values = .ok none := by
    unfold joinedLiterals
    split
    · next last there =>
      split
      · next low => exact sealed_.closed last token.values there low
      · rfl
    · rfl
  exact interpret_literal call literal alone

/-- A literal behind another one is joined to it. -/
theorem interpret_further (call : Caller) {token : Token} (literal : token.isLiteral = true)
    {old : List Value} (low : barrier ≤ code.size) :
    (m.midway draft (code.push (.literal old)) barrier).interpret call token =
      .done () (m.midway draft (code.push (.literal (old ++ token.values))) barrier) := by
  have found : (m.midway draft (code.push (.literal old)) barrier).joinedLiterals token.values =
      .ok (some (old ++ token.values)) := by
    have back : (m.midway draft (code.push (.literal old)) barrier).code.back? =
        some (.literal old) := Array.back?_push
    have free : barrier ≤ (code.push (.literal old)).size - 1 := by
      rw [Array.size_push]
      exact low
    unfold joinedLiterals
    rw [back]
    exact if_pos free
  rw [interpret_literal call literal found]
  simp only [writeLiterals, midway, drafting, Array.pop_push]

theorem run_further (call : Caller) {tokens : List Token}
    (literals : ∀ token ∈ tokens, token.isLiteral = true) (low : barrier ≤ code.size) :
    ∀ old, (m.midway draft (code.push (.literal old)) barrier).run call tokens =
      .done () (m.midway draft (code.push (.literal (old ++ tokens.flatMap Token.values)))
        barrier) := by
  induction tokens with
  | nil =>
    intro old
    rw [List.flatMap_nil, List.append_nil]
    rfl
  | cons token rest ih =>
    intro old
    rw [List.forall_mem_cons] at literals
    rw [run, interpret_further call literals.1 low, Outcome.bind_done, ih literals.2,
      List.flatMap_cons, List.append_assoc]

/-- A stretch of literals becomes one cell. -/
theorem run_literals (call : Caller) {stretch : List Token} (literals : Token.AreLiterals stretch)
    (sealed_ : Sealed code barrier) :
    (m.midway draft code barrier).run call stretch =
      .done () (m.midway draft (code.push (.literal (stretch.flatMap Token.values))) barrier) := by
  obtain ⟨some_, literals⟩ := literals
  cases stretch with
  | nil => exact absurd rfl some_
  | cons token rest =>
    rw [List.forall_mem_cons] at literals
    rw [run, interpret_first call literals.1 sealed_, Outcome.bind_done,
      run_further call literals.2 sealed_.low, List.flatMap_cons]

/-! ### Words -/

/-- The name of the definition is a call of its beginning. -/
theorem interpretName_own (call : Caller) (m : Machine) (draft : Draft) (code : Array Cell)
    (barrier : Nat) :
    (m.midway draft code barrier).interpretName call draft.name =
      .done () (m.midway draft (code.push (.call draft.address draft.name)) barrier) := by
  have own : (m.midway draft code barrier).ownAddress? draft.name = some draft.address :=
    if_pos rfl
  unfold interpretName
  rw [own]
  rfl

theorem run_word (call : Caller) {name : String} {after : Machine}
    (ends : m.interpretName call name = .done () after) :
    m.run call [.word name] = .done () after := by
  rw [run, interpret, interpretToken, ends]
  rfl

/-- A name that becomes one cell leaves the code sealed. -/
theorem run_word_push (call : Caller) {name : String} {cell : Cell}
    (closed : ∀ values, cell.openValues values = .ok none) (low : barrier ≤ code.size)
    (ends : (m.midway draft code barrier).interpretName call name =
      .done () (m.midway draft (code.push cell) barrier)) :
    ∃ barrier', (m.midway draft code barrier).run call [.word name] =
        .done () (m.midway draft (code ++ [cell].toArray) barrier') ∧
      Sealed (code ++ [cell].toArray) barrier' :=
  ⟨barrier, run_word call ends, sealed_push (Nat.le_succ_of_le low) closed⟩

theorem openValues_cellOf (entry : Nat) (w : Word) (values : List Value) :
    (cellOf entry w).openValues values = .ok none := by
  obtain ⟨name, immediate, body⟩ := w
  cases body with
  | _ => rfl

/-- The cell of a word is the one of its kind. -/
theorem wordCells_of_find {own name : String} {start position entry : Nat} {w : Word}
    (others : name ≠ own ∧ name ≠ "exit" ∧ name ≠ "does")
    (found : m.dictionary.find? name = some entry) (known : m.dictionary.get? entry = some w) :
    m.wordCells own start position name = [cellOf entry w] := by
  obtain ⟨v, known', named⟩ := Dictionary.exists_get?_of_find? found
  cases known.symm.trans known'
  obtain ⟨title, immediate, body⟩ := w
  cases named
  unfold wordCells
  rw [if_neg others.1, if_neg others.2.1, if_neg others.2.2]
  simp only [found, known, Option.map_some]
  cases body with
  | _ => rfl

/-- A name is compiled to the cells that it stands for, and nothing is joined to them. -/
theorem run_name (call : Caller) {name : String} (low : barrier ≤ code.size)
    (exit : m.Knows "exit" (Builtin.ofDirective "exit" .exit))
    (does : m.Knows "does" (Builtin.ofDirective "does" .does))
    (placed : m.Places draft.name (.word name)) :
    let cells := m.wordCells draft.name draft.address code.size name
    ∃ barrier', (m.midway draft code barrier).run call [.word name] =
        .done () (m.midway draft (code ++ cells.toArray) barrier') ∧
      Sealed (code ++ cells.toArray) barrier' := by
  intro cells
  by_cases own : name = draft.name
  · have these : cells = [.call draft.address draft.name] := if_pos own
    rw [these, own]
    exact run_word_push call (fun _ => rfl) low (interpretName_own call m draft code barrier)
  by_cases leaves : name = "exit"
  · subst leaves
    have these : cells = [.exit] := (if_neg own).trans (if_pos rfl)
    rw [these]
    exact run_word_push call (fun _ => rfl) low (interpretName_directive call (Ne.symm own) exit)
  by_cases splits : name = "does"
  · subst splits
    have these : cells = [.does (code.size + 2 : Nat), .exit] :=
      (if_neg own).trans ((if_neg leaves).trans (if_pos rfl))
    have size : (code ++ cells.toArray).size = code.size + 2 := by
      rw [these]
      simp
    refine ⟨(code ++ cells.toArray).size, run_word call ?_, sealed_size _⟩
    rw [interpretName_directive call (Ne.symm own) does, size, these]
    exact callNative_directive call "does" _ rfl
  · obtain same | same | same | ⟨w, known, open_⟩ := placed
    · exact absurd same own
    · exact absurd same leaves
    · exact absurd same splits
    · obtain ⟨entry, found, there⟩ := known
      have these : cells = [cellOf entry w] :=
        wordCells_of_find ⟨own, leaves, splits⟩ found there
      rw [these]
      exact run_word_push call (openValues_cellOf entry w) low
        (interpretName_compiled call (Ne.symm own) found there open_)

/-! ### Stretches -/

/-- The stretch is literals or the name of a word that has a place in a definition of `own`. -/
def Fits (m : Machine) (own : String) (stretch : List Token) : Prop :=
  Token.AreLiterals stretch ∨ ∃ name, stretch = [.word name] ∧ m.Places own (.word name)

theorem stretchCells_of_literals {own : String} {start position : Nat} {stretch : List Token}
    (literals : Token.AreLiterals stretch) :
    m.stretchCells own start position stretch = [.literal (stretch.flatMap Token.values)] := by
  unfold stretchCells
  split
  · cases literals.2 _ List.mem_cons_self
  · rfl

section Stretches

variable (call : Caller) (draft : Draft) (exit : m.Knows "exit" (Builtin.ofDirective "exit" .exit))
  (does : m.Knows "does" (Builtin.ofDirective "does" .does))

include exit does

/-- Sealed code lets every stretch in, and a stretch that is no literals leaves sealed code. -/
theorem run_stretch {stretch : List Token} (fits : m.Fits draft.name stretch)
    (low : barrier ≤ code.size) (ready : Token.AreLiterals stretch → Sealed code barrier) :
    let after := code ++ (m.stretchCells draft.name draft.address code.size stretch).toArray
    ∃ barrier', (m.midway draft code barrier).run call stretch =
        .done () (m.midway draft after barrier') ∧
      barrier' ≤ after.size ∧ (¬ Token.AreLiterals stretch → Sealed after barrier') := by
  intro after
  rcases fits with literals | ⟨name, rfl, placed⟩
  · have these : after = code.push (.literal (stretch.flatMap Token.values)) := by
      show code ++ (m.stretchCells draft.name draft.address code.size stretch).toArray = _
      rw [stretchCells_of_literals literals]
      rfl
    refine ⟨barrier, ?_, ?_, fun other => absurd literals other⟩
    · rw [these]
      exact run_literals call literals (ready literals)
    · rw [these, Array.size_push]
      exact Nat.le_succ_of_le low
  · obtain ⟨barrier', ran, sealed_⟩ := run_name call low exit does placed
    exact ⟨barrier', ran, sealed_.low, fun _ => sealed_⟩

/-- Stretches are laid one behind the other. -/
theorem run_stretches {stretches : List (List Token)}
    (fits : ∀ stretch ∈ stretches, m.Fits draft.name stretch)
    (apart : stretches.IsChain fun a b => ¬ (Token.AreLiterals a ∧ Token.AreLiterals b)) :
    ∀ {code : Array Cell} {barrier : Nat}, barrier ≤ code.size →
      (∀ stretch ∈ stretches.head?, Token.AreLiterals stretch → Sealed code barrier) →
      ∃ barrier', (m.midway draft code barrier).run call stretches.flatten =
        .done () (m.midway draft (code ++
          (m.stretchesCells draft.name draft.address code.size stretches).toArray) barrier') := by
  induction stretches with
  | nil =>
    intro code barrier _ _
    refine ⟨barrier, ?_⟩
    rw [stretchesCells, Array.append_empty]
    rfl
  | cons stretch rest ih =>
    intro code barrier low ready
    rw [List.forall_mem_cons] at fits
    rw [List.isChain_cons] at apart
    obtain ⟨barrier', ran, low', sealed_⟩ :=
      run_stretch call draft exit does fits.1 low (ready stretch rfl)
    obtain ⟨barrier'', ran'⟩ := ih fits.2 apart.2 low' fun next follows literals =>
      sealed_ fun literals' => apart.1 next follows ⟨literals', literals⟩
    refine ⟨barrier'', ?_⟩
    rw [List.flatten_cons, run_append, ran, Outcome.bind_done, ran', stretchesCells]
    simp only [Array.size_append, List.size_toArray, Array.append_assoc, List.append_toArray]

end Stretches

/-! ## The whole definition -/

/-- The word of a finished definition is registered, and notes are taken of it. -/
theorem installDraft_eq (draft : Draft) (m : Machine) :
    ∃ notes, m.installDraft draft = { m with
      dictionary := m.dictionary.push ⟨draft.name, draft.immediate, .colon draft.address⟩
      lastDefined := some m.dictionary.size, journal := notes } := by
  obtain ⟨notes, installed⟩ :=
    m.toStore.install_eq ⟨draft.name, draft.immediate, .colon draft.address⟩
  unfold installDraft noteDefined note
  obtain ⟨notes', noted⟩ := Store.note_eq .debug .compiler
    s!"defined '{draft.name}' at {draft.address}..{m.code.size - 1}"
    { m.toStore.install ⟨draft.name, draft.immediate, .colon draft.address⟩ with
      lastDefined := some m.dictionary.size }
  refine ⟨notes', ?_⟩
  simp only
  rw [noted, installed]
  rfl

/-- The machine `m` with a word and its cells, and nothing else changed but the barrier and the
notes. -/
def defining (m : Machine) (name : String) (cells : List Cell) (barrier : Nat)
    (notes : List Note) : Machine :=
  { m with
    code := m.code ++ cells.toArray
    dictionary := m.dictionary.push ⟨name, false, .colon m.code.size⟩
    compiling := false
    draft := none
    lastDefined := some m.dictionary.size
    barrier := barrier
    journal := notes }

theorem interpretName_return (call : Caller) {name : String} (cells : List Cell) (barrier : Nat)
    (return_ : m.Knows "return" (Builtin.ofDirective "return" .finish))
    (valid : Text.allBlank name.toList = false) (different : name ≠ "return") :
    ∃ notes, (m.midway ⟨name, m.code.size, false, valid⟩ (m.code ++ cells.toArray)
        barrier).interpretName call "return" =
      .done () (m.defining name (cells ++ [.exit]) barrier notes) := by
  obtain ⟨notes, installed⟩ := installDraft_eq ⟨name, m.code.size, false, valid⟩
    (m.closed (m.code ++ cells.toArray) barrier)
  have code : (m.code ++ cells.toArray).push .exit = m.code ++ (cells ++ [Cell.exit]).toArray := by
    simp
  refine ⟨notes, ?_⟩
  rw [interpretName_finish call ⟨name, m.code.size, false, valid⟩ _ barrier different return_,
    installed, defining, ← code]
  rfl

theorem fits_of_mem {own : String} {tokens stretch : List Token}
    (placed : ∀ token ∈ tokens, m.Places own token)
    (inside : stretch ∈ tokens.splitBy Token.joins) : m.Fits own stretch := by
  rcases Token.stretch_cases inside with literals | ⟨token, there, rfl, other⟩
  · exact .inl literals
  · have placed := placed token there
    cases token with
    | word name => exact .inr ⟨name, rfl, placed⟩
    | malformed content => exact placed.elim
    | datum | batch => cases other

end Machine

namespace Session

open Machine

/-- A definition lays the cells of its tokens behind the code that is there, whatever that is,
and registers one word, which begins at the first of them.  Nothing else changes but the barrier
and the notes, not even the entry that was created last. -/
theorem define_layout {m : Machine} (call : Caller) {name : String} {tokens : List Token}
    (idle : m.compiling = false) (valid : Text.IsName name)
    (different : name ≠ "return")
    (define : m.Knows "define" (Builtin.plain "define" .define))
    (return_ : m.Knows "return" (Builtin.ofDirective "return" .finish))
    (exit : m.Knows "exit" (Builtin.ofDirective "exit" .exit))
    (does : m.Knows "does" (Builtin.ofDirective "does" .does))
    (placed : ∀ token ∈ tokens, m.Places name token) :
    ∃ barrier notes,
      m.run call (.batch [.text name] :: .word "define" :: tokens ++ [.word "return"]) =
        .done () (m.defining name (m.layout name tokens) barrier notes) := by
  obtain ⟨barrier, ran⟩ := run_stretches call
    ⟨name, m.code.size, false, Text.isName_iff.mp valid⟩ exit does
    (fun stretch inside => fits_of_mem placed inside) (Token.isChain_stretches tokens)
    (Nat.le_refl m.code.size) (fun _ _ _ => sealed_size m.code)
  obtain ⟨notes, finished⟩ := interpretName_return call
    (m.stretchesCells name m.code.size m.code.size (tokens.splitBy Token.joins)) barrier return_
    (Text.isName_iff.mp valid) different
  rw [List.flatten_splitBy] at ran
  refine ⟨barrier, notes, ?_⟩
  show m.run call ([.batch [.text name], .word "define"] ++ tokens ++ [.word "return"]) = _
  rw [run_append, run_append, run_open call idle (Text.isName_iff.mp valid) define,
    Outcome.bind_done]
  show ((m.midway ⟨name, m.code.size, false, Text.isName_iff.mp valid⟩ m.code m.code.size).run
    call tokens).bind _ = _
  rw [ran, Outcome.bind_done]
  exact run_word call finished

/-- A session that gives a definition up. -/
def straying : List Operation :=
  [.run [.batch [.text "bad"], .word "define", .datum (.int 1), .word "nowhere"]]

/-- The machine after the session: a literal cell that no word refers to is left. -/
def strayed : Machine :=
  { Machine.fresh 16 false false with
    code := #[.literal [.int 1]]
    journal := [⟨.warning, .compiler, "abandoning definition of 'bad'"⟩] }

theorem play_straying : play straying (Machine.fresh 16 false false) = strayed := by
  decide +kernel

/-- Tokens of all kinds: literals in batches, the name of the definition, `exit`, `does`, and a
native word. -/
def mingled : List Token :=
  [.batch [.int 2, .int 3], .batch [], .datum (.int 4), .word "f", .word "exit", .datum (.int 5),
    .word "does", .batch [], .word "swap"]

theorem define_layout_mingled :
    play straying (Machine.fresh 16 false false) = strayed ∧ ∃ barrier notes,
      strayed.run Host.caller
          (.batch [.text "f"] :: .word "define" :: mingled ++ [.word "return"]) =
        .done () (strayed.defining "f"
          [.literal [.int 2, .int 3, .int 4], .call 1 "f", .exit, .literal [.int 5], .does 7, .exit,
            .literal [], .native 0, .exit] barrier notes) := by
  have placed : ∀ token ∈ mingled, strayed.Places "f" token := by
    have swap : strayed.Knows "swap" (Builtin.plain "swap" .swap) := ⟨0, by decide +kernel, rfl⟩
    simp only [mingled, List.forall_mem_cons, Places]
    exact ⟨trivial, trivial, trivial, .inl trivial, .inr (.inl trivial), trivial,
      .inr (.inr (.inl trivial)), trivial, .inr (.inr (.inr ⟨_, swap, rfl⟩)), nofun⟩
  have cells : strayed.layout "f" mingled =
      [.literal [.int 2, .int 3, .int 4], .call 1 "f", .exit, .literal [.int 5], .does 7, .exit,
        .literal [], .native 0, .exit] := by
    decide +kernel
  refine ⟨play_straying, ?_⟩
  rw [← cells]
  exact define_layout Host.caller rfl ⟨'f', by decide, by decide⟩ (by decide)
    ⟨8, by decide +kernel, rfl⟩ ⟨9, by decide +kernel, rfl⟩ ⟨12, by decide +kernel, rfl⟩
    ⟨19, by decide +kernel, rfl⟩ placed

end Session
end ThreadedForth
