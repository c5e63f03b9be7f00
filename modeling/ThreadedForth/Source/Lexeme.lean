import ThreadedForth.Text.Blank

/-!
# Lexemes of a source text

A source text is cut into lexemes at its blanks.  There are two kinds: a *quoted*
lexeme begins with a double quote and ends with the next one, and may hold blanks;
a *bare* lexeme ends before the next blank, whatever else it holds.  A quoted
lexeme that is not closed runs to the end of the text.

Comments are gaps like blanks.  An opening parenthesis that stands alone, that is,
before a blank or at the end, begins a comment that ends with the parenthesis that
matches it; a backslash that stands alone begins one that ends with the line.  A
comment that is not closed runs to the end of the text.

The scan goes on with what is left behind a lexeme or a gap, and that is always
shorter than what it started with, so it ends.
-/

namespace ThreadedForth

/-- A piece of source text between two gaps. -/
inductive Lexeme where
  | quoted (content : List Char)
  | bare (content : List Char)
  deriving DecidableEq, Repr

namespace Lexeme

/-- The characters of a lexeme, without the quotes. -/
def content : Lexeme → List Char
  | quoted s => s
  | bare s => s

/-- Whether a character before this rest of the text stands alone. -/
def standsAlone : List Char → Bool
  | [] => true
  | c :: _ => Text.isBlank c

/-- What is left behind a comment inside of which `depth` parentheses are open. -/
def afterComment : Nat → List Char → List Char
  | 0, rest => rest
  | _ + 1, [] => []
  | depth + 1, c :: rest =>
    if c = '(' then afterComment (depth + 2) rest
    else if c = ')' then afterComment depth rest
    else afterComment (depth + 1) rest

theorem length_afterComment_le (depth : Nat) (text : List Char) :
    (afterComment depth text).length ≤ text.length := by
  induction text generalizing depth with
  | nil => cases depth <;> simp [afterComment]
  | cons c rest ih =>
    cases depth with
    | zero => simp [afterComment]
    | succ depth =>
      rw [afterComment, List.length_cons]
      split
      · exact Nat.le_succ_of_le (ih _)
      · split <;> exact Nat.le_succ_of_le (ih _)

theorem length_dropWhile_le (p : Char → Bool) (text : List Char) :
    (text.dropWhile p).length ≤ text.length :=
  (List.dropWhile_sublist p).length_le

/-- Whether a character belongs to the content of a quoted lexeme. -/
def insideQuotes (c : Char) : Bool := c != '"'

/-- Whether a character belongs to the line it stands in. -/
def insideLine (c : Char) : Bool := c != '\n'

/-- Whether a character belongs to a bare lexeme. -/
def insideWord (c : Char) : Bool := !Text.isBlank c

/-- The lexeme that begins with the character `c`, unless a gap begins with it, and
what is left of the text behind the lexeme or the gap. -/
def next (c : Char) (rest : List Char) : Option Lexeme × List Char :=
  if Text.isBlank c then (none, rest)
  else if c = '"' then
    (some (quoted (rest.takeWhile insideQuotes)), (rest.dropWhile insideQuotes).drop 1)
  else if c = '(' ∧ standsAlone rest then (none, afterComment 1 rest)
  else if c = '\\' ∧ standsAlone rest then (none, rest.dropWhile insideLine)
  else (some (bare (c :: rest.takeWhile insideWord)), rest.dropWhile insideWord)

theorem length_next_le (c : Char) (rest : List Char) : (next c rest).2.length ≤ rest.length := by
  unfold next
  split
  · exact Nat.le_refl _
  · split
    · have := length_dropWhile_le insideQuotes rest
      simp only [List.length_drop]
      omega
    · split
      · exact length_afterComment_le 1 rest
      · split
        · exact length_dropWhile_le insideLine rest
        · exact length_dropWhile_le insideWord rest

/-- Cuts a text into its lexemes. -/
def scan : List Char → List Lexeme
  | [] => []
  | c :: rest => (next c rest).1.toList ++ scan (next c rest).2
termination_by text => text.length
decreasing_by exact Nat.lt_succ_of_le (length_next_le c rest)

/-! ## What the scan does with the first character -/

@[simp] theorem scan_nil : scan [] = [] := by
  rw [scan]

theorem scan_cons (c : Char) (rest : List Char) :
    scan (c :: rest) = (next c rest).1.toList ++ scan (next c rest).2 := by
  rw [scan]

/-- A blank is skipped. -/
theorem next_blank {c : Char} (h : Text.isBlank c = true) (rest : List Char) :
    next c rest = (none, rest) :=
  if_pos h

/-- A double quote begins a quoted lexeme. -/
theorem next_quote (rest : List Char) :
    next '"' rest =
      (some (quoted (rest.takeWhile insideQuotes)), (rest.dropWhile insideQuotes).drop 1) :=
  rfl

/-- An opening parenthesis that stands alone begins a comment. -/
theorem next_parenthesis {rest : List Char} (h : standsAlone rest = true) :
    next '(' rest = (none, afterComment 1 rest) := by
  have visible : Text.isBlank '(' = false := by decide
  simp [next, h, visible]

/-- A backslash that stands alone begins a comment that ends with the line. -/
theorem next_backslash {rest : List Char} (h : standsAlone rest = true) :
    next '\\' rest = (none, rest.dropWhile insideLine) := by
  have visible : Text.isBlank '\\' = false := by decide
  simp [next, h, visible]

/-- Any other character begins a bare lexeme. -/
theorem next_bare {c : Char} {rest : List Char} (blank : Text.isBlank c = false)
    (quote : c ≠ '"') (comment : standsAlone rest = true → c ≠ '(' ∧ c ≠ '\\') :
    next c rest = (some (bare (c :: rest.takeWhile insideWord)), rest.dropWhile insideWord) := by
  unfold next
  rw [if_neg (by simp [blank]), if_neg quote, if_neg fun h => (comment h.2).1 h.1,
    if_neg fun h => (comment h.2).2 h.1]

end Lexeme
end ThreadedForth
