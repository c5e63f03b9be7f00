import Mathlib.Control.Monad.Basic
import ThreadedForth.Proofs.Layout

/-!
# Source texts in pieces

A source text is read as a whole before its first token is fed, and the reader knows
nothing of lines: a quoted lexeme and a comment in parentheses go on over the end of a line,
and so does a definition.  Yet a text can be fed line by line.  A line end separates whatever
stands on its two sides, unless the text before it breaks off inside a quoted lexeme or inside
a comment in parentheses.  A text that does not is *closed* (`Lexeme.isClosed`).

The scan is cut where the texts meet, so the statement that carries the induction is about a
single lexeme or gap: if it is closed, then it is the same before a line end as at the end of
a text, and what is left behind it is longer by what follows (`Lexeme.next_append`).

* `Lexeme.scan_append`: the lexemes of a closed text come first, and the others follow;
* `Token.ofLexemes_append`: so do the tokens, since a text that can be read does not end
  between a colon and its name;
* `Machine.execute_append`: so a text in two pieces does what the pieces do one after the
  other, and nothing of the second piece is fed when the first one fails;
* `Session.execute_pieces`: the same for sessions, and for a file with any number of lines.
-/

namespace ThreadedForth

namespace Lexeme

/-! ## Closed texts -/

/-- Whether a comment inside of which `depth` parentheses are open ends in the text. -/
def closesComment : Nat → List Char → Bool
  | 0, _ => true
  | _ + 1, [] => false
  | depth + 1, c :: rest =>
    if c = '(' then closesComment (depth + 2) rest
    else if c = ')' then closesComment depth rest
    else closesComment (depth + 1) rest

/-- Whether the lexeme or the gap that begins with the character `c` ends in the text.  Only a
quoted lexeme and a comment in parentheses need something to end them. -/
def closesNext (c : Char) (rest : List Char) : Bool :=
  if c = '"' then rest.contains '"'
  else if c = '(' ∧ standsAlone rest then closesComment 1 rest
  else true

/-- Whether the scan of a text ends outside of quoted lexemes and of comments in
parentheses. -/
def isClosed : List Char → Bool
  | [] => true
  | c :: rest => closesNext c rest && isClosed (next c rest).2
termination_by text => text.length
decreasing_by exact Nat.lt_succ_of_le (length_next_le c rest)

theorem isClosed_cons (c : Char) (rest : List Char) :
    isClosed (c :: rest) = (closesNext c rest && isClosed (next c rest).2) := by
  rw [isClosed]

/-! ## A lexeme before a line end -/

section

variable {p : Char → Bool} {stop : Char}

/-- What is taken from a text ends where the text ends, if something follows that is not
taken. -/
theorem takeWhile_append_stop (stops : p stop = false) (text rest : List Char) :
    (text ++ stop :: rest).takeWhile p = text.takeWhile p := by
  induction text with
  | nil => simp [stops]
  | cons c text ih =>
    rw [List.cons_append, List.takeWhile_cons, List.takeWhile_cons, ih]

theorem dropWhile_append_stop (stops : p stop = false) (text rest : List Char) :
    (text ++ stop :: rest).dropWhile p = text.dropWhile p ++ stop :: rest := by
  induction text with
  | nil => simp [stops]
  | cons c text ih =>
    rw [List.cons_append, List.dropWhile_cons, List.dropWhile_cons, ih]
    split
    · rfl
    · rfl

end

/-- The quote that ends a quoted lexeme is in the text, so nothing that follows the text
belongs to the lexeme. -/
theorem quoted_append {text : List Char} (closed : '"' ∈ text) (rest : List Char) :
    (text ++ rest).takeWhile insideQuotes = text.takeWhile insideQuotes ∧
      ((text ++ rest).dropWhile insideQuotes).drop 1 =
        (text.dropWhile insideQuotes).drop 1 ++ rest := by
  obtain ⟨before, after, rfl⟩ := List.append_of_mem closed
  have stops : insideQuotes '"' = false := by decide
  rw [List.append_assoc, List.cons_append, takeWhile_append_stop stops,
    takeWhile_append_stop stops, dropWhile_append_stop stops, dropWhile_append_stop stops]
  refine ⟨rfl, ?_⟩
  -- what is dropped before the quote is all dropped or not, and the quote is still there
  cases before.dropWhile insideQuotes with
  | nil => rfl
  | cons c left => simp

theorem afterComment_append {depth : Nat} {text : List Char}
    (closed : closesComment depth text = true) (rest : List Char) :
    afterComment depth (text ++ rest) = afterComment depth text ++ rest := by
  fun_induction closesComment depth text with
  | case1 text => rw [afterComment, afterComment]
  | case2 depth => cases closed
  | case3 depth text ih => simp [afterComment, ih closed]
  | case4 depth text _ ih => simp [afterComment, ih closed]
  | case5 depth c text outer inner ih => simp [afterComment, outer, inner, ih closed]

/-- A line end stands alone as the end of a text does. -/
theorem standsAlone_append (text rest : List Char) :
    standsAlone (text ++ '\n' :: rest) = standsAlone text := by
  cases text with
  | nil => rfl
  | cons c text => rfl

/-- A lexeme or gap that is closed is the same before a line end as at the end of the text. -/
theorem next_append {c : Char} {text : List Char} (closed : closesNext c text = true)
    (rest : List Char) :
    next c (text ++ '\n' :: rest) = ((next c text).1, (next c text).2 ++ '\n' :: rest) := by
  unfold closesNext at closed
  unfold next
  rw [standsAlone_append]
  split
  · rfl
  · split
    · next quote =>
      rw [if_pos quote, List.contains_iff_mem] at closed
      obtain ⟨inside, left⟩ := quoted_append closed ('\n' :: rest)
      rw [inside, left]
    · next quote =>
      split
      · next comment =>
        rw [if_neg quote, if_pos comment] at closed
        rw [afterComment_append closed]
      · split
        · rw [dropWhile_append_stop (by decide)]
        · rw [takeWhile_append_stop (by decide), dropWhile_append_stop (by decide)]

/-- Behind a closed text and a line end the scan begins anew. -/
theorem scan_append (text rest : List Char) (closed : isClosed text = true) :
    scan (text ++ '\n' :: rest) = scan text ++ scan rest := by
  induction text using isClosed.induct with
  | case1 =>
    have blank : Text.isBlank '\n' = true := by decide
    rw [List.nil_append, scan_cons, next_blank blank, scan_nil]
    rfl
  | case2 c text ih =>
    rw [isClosed_cons, Bool.and_eq_true] at closed
    rw [List.cons_append, scan_cons, scan_cons, next_append closed.1, ih closed.2,
      List.append_assoc]

end Lexeme

/-! ## Tokens -/

namespace Token

/-- If lexemes have been read to their end, then those that follow are read as if they stood
alone. -/
theorem ofLexemes_append {naming : Bool} {lexemes : List Lexeme} {tokens : List Token}
    (read : ofLexemes naming lexemes = .ok tokens) (others : List Lexeme) :
    ofLexemes naming (lexemes ++ others) =
      (ofLexemes false others).map (tokens ++ ·) := by
  fun_induction ofLexemes naming lexemes generalizing tokens with
  | case1 => cases read
  | case2 =>
    cases read
    rw [List.nil_append]
    cases ofLexemes false others <;> rfl
  | case3 lexeme rest ih =>
    obtain ⟨later, left, made⟩ := exists_of_bind_ok read
    cases made
    rw [List.cons_append, ofLexemes, ih left]
    cases ofLexemes false others <;> rfl
  | case4 content rest ih =>
    obtain ⟨later, left, made⟩ := exists_of_bind_ok read
    cases made
    rw [List.cons_append, ofLexemes, ih left]
    cases ofLexemes false others <;> rfl
  | case5 rest ih =>
    rw [List.cons_append, ofLexemes, if_pos rfl]
    exact ih read
  | case6 content rest other ih =>
    obtain ⟨later, left, made⟩ := exists_of_bind_ok read
    cases made
    rw [List.cons_append, ofLexemes, if_neg other, ih left]
    cases ofLexemes false others <;> rfl

/-- The tokens of a closed text that can be read come before those of the next line. -/
theorem tokenize_append {first second : String} {tokens : List Token}
    (read : tokenize first = .ok tokens) (closed : Lexeme.isClosed first.toList = true) :
    tokenize (first ++ "\n" ++ second) = (tokenize second).map (tokens ++ ·) := by
  have meets : (first ++ "\n" ++ second).toList = first.toList ++ '\n' :: second.toList := by
    simp
  rw [tokenize, meets, Lexeme.scan_append _ _ closed, ofLexemes_append read]
  rfl

end Token

/-! ## Feeding -/

namespace Machine

/-- A text in two pieces does what its pieces do one after the other. -/
theorem execute_append (call : Caller) {first second : String} {before after : List Token}
    (readFirst : Token.tokenize first = .ok before)
    (readSecond : Token.tokenize second = .ok after)
    (closed : Lexeme.isClosed first.toList = true) (m : Machine) :
    m.execute call (first ++ "\n" ++ second) =
      (m.execute call first).bind fun () middle => middle.execute call second := by
  have whole : Token.tokenize (first ++ "\n" ++ second) = .ok (before ++ after) := by
    rw [Token.tokenize_append readFirst closed, readSecond]
    rfl
  simp only [execute, whole, readFirst, readSecond]
  exact run_append call before after m

end Machine

namespace Session

/-- Feeds source texts one after another, until one fails. -/
def executeAll : List String → Machine → Outcome Unit
  | [], m => .done () m
  | text :: rest, m => (execute text m).bind fun () after => executeAll rest after

/-- The text can be read, and does not break off inside a quoted lexeme or a comment. -/
structure IsPiece (text : String) : Prop where
  read : ∃ tokens, Token.tokenize text = .ok tokens
  closed : Lexeme.isClosed text.toList = true

/-- The lines of a file can be read together if they can be read one by one. -/
theorem exists_tokenize_lines (lines : List String) {last : String}
    (pieces : ∀ line ∈ lines, IsPiece line) (read : ∃ tokens, Token.tokenize last = .ok tokens) :
    ∃ tokens, Token.tokenize ("\n".intercalate (lines ++ [last])) = .ok tokens := by
  induction lines with
  | nil => simpa using read
  | cons line rest ih =>
    rw [List.forall_mem_cons] at pieces
    obtain ⟨first, readFirst⟩ := pieces.1.read
    obtain ⟨others, readOthers⟩ := ih pieces.2
    refine ⟨first ++ others, ?_⟩
    rw [List.cons_append, String.intercalate_cons_of_ne_nil (by simp),
      Token.tokenize_append readFirst pieces.1.closed, readOthers]
    rfl

theorem execute_lines (lines : List String) {last : String}
    (pieces : ∀ line ∈ lines, IsPiece line) (read : ∃ tokens, Token.tokenize last = .ok tokens)
    (m : Machine) :
    execute ("\n".intercalate (lines ++ [last])) m = executeAll (lines ++ [last]) m := by
  induction lines generalizing m with
  | nil =>
    rw [List.nil_append, String.intercalate_singleton, executeAll]
    cases execute last m <;> rfl
  | cons line rest ih =>
    rw [List.forall_mem_cons] at pieces
    obtain ⟨first, readFirst⟩ := pieces.1.read
    obtain ⟨others, readOthers⟩ := exists_tokenize_lines rest pieces.2 read
    rw [List.cons_append, String.intercalate_cons_of_ne_nil (by simp), execute,
      Machine.execute_append Host.caller readFirst readOthers pieces.1.closed, executeAll]
    cases ran : execute line m with
    | failed f after =>
      rw [execute] at ran
      rw [ran]
      rfl
    | done a after =>
      rw [execute] at ran
      rw [ran]
      exact ih pieces.2 after

/-- Feeding a text in pieces is feeding it whole.  Let two texts be readable, and let the first
one be closed.  With a line end between them they have the tokens of the first one and then
those of the second one, and they do what the first one does and then, unless it has failed,
what the second one does.  Any number of closed lines may come before the second text, so a
file does what its lines do one by one, also where a definition spans lines. -/
theorem execute_pieces {first second : String} {before after : List Token}
    (readFirst : Token.tokenize first = .ok before)
    (readSecond : Token.tokenize second = .ok after)
    (closed : Lexeme.isClosed first.toList = true) :
    Token.tokenize (first ++ "\n" ++ second) = .ok (before ++ after) ∧
      (∀ m, execute (first ++ "\n" ++ second) m =
        (execute first m).bind fun () middle => execute second middle) ∧
      ∀ (lines : List String) (m : Machine), (∀ line ∈ lines, IsPiece line) →
        execute ("\n".intercalate (lines ++ [second])) m = executeAll (lines ++ [second]) m := by
  refine ⟨?_, fun m => ?_, fun lines m pieces => ?_⟩
  · rw [Token.tokenize_append readFirst closed, readSecond]
    rfl
  · exact Machine.execute_append Host.caller readFirst readSecond closed m
  · exact execute_lines lines pieces ⟨after, readSecond⟩ m

/-- A line on which a definition begins. -/
theorem tokenize_opening :
    Token.tokenize ": twice ( n -- n+n )" = .ok [.batch [.text "twice"], .word "define"] := by
  decide +kernel

/-- A line on which it goes on. -/
theorem isPiece_middle : IsPiece "dup \\ once more" := by
  have read : Token.tokenize "dup \\ once more" = .ok [.word "dup"] := by decide +kernel
  exact ⟨⟨_, read⟩, by decide +kernel⟩

/-- A line on which it ends. -/
theorem tokenize_ending : Token.tokenize "+ ; 21 twice" =
    .ok [.word "+", .word ";", .datum (.int 21), .word "twice"] := by
  decide +kernel

theorem execute_pieces_spanning :
    Lexeme.isClosed ": twice ( n -- n+n )".toList = true ∧
      Token.tokenize (": twice ( n -- n+n )" ++ "\n" ++ "+ ; 21 twice") =
        .ok [.batch [.text "twice"], .word "define", .word "+", .word ";", .datum (.int 21),
          .word "twice"] ∧
      ∀ m, execute ("\n".intercalate
          [": twice ( n -- n+n )", "dup \\ once more", "+ ; 21 twice"]) m =
        executeAll [": twice ( n -- n+n )", "dup \\ once more", "+ ; 21 twice"] m := by
  have closed : Lexeme.isClosed ": twice ( n -- n+n )".toList = true := by decide +kernel
  obtain ⟨tokens, -, lines⟩ := execute_pieces tokenize_opening tokenize_ending closed
  refine ⟨closed, tokens, fun m => ?_⟩
  refine lines [": twice ( n -- n+n )", "dup \\ once more"] m fun line inside => ?_
  rcases List.mem_cons.mp inside with rfl | inside
  · exact ⟨⟨_, tokenize_opening⟩, closed⟩
  · rw [List.mem_singleton.mp inside]
    exact isPiece_middle

end Session
end ThreadedForth
