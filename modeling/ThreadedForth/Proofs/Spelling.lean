import ThreadedForth.Number.Notation
import ThreadedForth.Proofs.Lines
import ThreadedForth.Proofs.Numeration

/-!
# Tokens as text

Reading forgets a lot: how a number was written, which blanks and comments stood between the
words, whether a name came with a colon.  What is left is a list of tokens.  Here it is
written as a text again, and the text is read back.

A token becomes one lexeme (`Token.spelled`).  An integer is written in base sixteen, a text
between quotes, and the name of a word as it is.  Only a name that has a quote in it cannot
stand between quotes; it has come with a colon, and with a colon it is written.

The lexemes are written one after another with something between them (`Lexeme.weave`).  It
begins with a blank, and otherwise it may be anything that the scan skips: blanks, and
comments that end (`Lexeme.Filling`).  The type `Gap` has these texts.

The way back has three parts.

* A filling is skipped (`Lexeme.scan_filling`), and a lexeme that is written before a gap or at
  the end is scanned as what it was (`Lexeme.scan_written`).  For that it has to be one that the
  scan can yield (`Lexeme.Proper`).
* Base sixteen is read back (`Number.read_hexadecimal`), as is every other spelling of an integer.
* So the spelling of tokens that have been read has the same tokens
  (`Token.exists_spells`).

`Token.tokenize_print` puts them together.  The first two parts show besides that a text which
spells an integer, in whatever way, has this integer as its only token (`Token.tokenize_spelling`).
-/

namespace ThreadedForth

/-! ## Integers in base sixteen -/

namespace Number

/-- A number is what its digits in base sixteen spell. -/
theorem exists_toDigits (n : Nat) :
    ∃ digits : List Nat, digits ≠ [] ∧ (∀ d ∈ digits, d < 16) ∧
      Nat.toDigits 16 n = digits.map Nat.digitChar ∧ Numeral.valueOf 16 digits = n := by
  induction n using Nat.strongRecOn with
  | ind n ih =>
    by_cases small : n < 16
    · refine ⟨[n], by simp, by simpa using small, ?_, by simp [Numeral.valueOf]⟩
      rw [Nat.toDigits_of_lt_base small]
      rfl
    · obtain ⟨digits, -, low, written, spells⟩ := ih (n / 16) (by omega)
      refine ⟨digits ++ [n % 16], by simp, fun d inside => ?_, ?_, ?_⟩
      · rcases List.mem_append.mp inside with earlier | last
        · exact low d earlier
        · rw [List.mem_singleton.mp last]
          omega
      · rw [Nat.toDigits_of_base_le (by omega) (by omega), written, List.map_append]
        rfl
      · rw [valueOf_concat, spells]
        omega

/-- A row of digits needs no underscores. -/
theorem spellsDigits_map {base : Nat} : ∀ {digits : List Nat}, digits ≠ [] →
    (∀ d ∈ digits, d < base) → SpellsDigits base (digits.map Nat.digitChar) digits
  | [], some_, _ => absurd rfl some_
  | [d], _, low => .last ⟨low d List.mem_cons_self, .inl rfl⟩
  | d :: e :: rest, _, low => by
    rw [List.forall_mem_cons] at low
    exact .next ⟨low.1, .inl rfl⟩ (spellsDigits_map (List.cons_ne_nil e rest) low.2)

/-- An integer in base sixteen is a sign, if it needs one, a base mark and digits. -/
theorem isSpelling_hexadecimal (n : Int) : IsSpelling n (hexadecimal n).toList := by
  obtain ⟨digits, some_, low, written, spells⟩ := exists_toDigits n.natAbs
  have spelled := spellsDigits_map some_ low
  have value : Nat.ofDigits 16 digits.reverse = n.natAbs := by
    rw [← valueOf_eq_ofDigits, spells]
  rw [hexadecimal, Positional.digits_eq_toDigits (by decide), written, String.toList_ofList]
  by_cases negative : n < 0
  · have spelling := IsSpelling.marked .minus .x spelled
    have signed : Sign.minus.apply n.natAbs = n := by
      simp only [Sign.apply]
      omega
    rw [value, signed] at spelling
    rwa [if_pos negative]
  · have spelling := IsSpelling.marked .absent .x spelled
    have signed : Sign.absent.apply n.natAbs = n := by
      simp only [Sign.apply]
      omega
    rw [value, signed] at spelling
    rwa [if_neg negative]

/-- What is written in base sixteen is read back. -/
theorem read_hexadecimal (n : Int) : Numeral.read (hexadecimal n).toList = .ok (.int n) :=
  (isSpelling_hexadecimal n).read

/-- A numeral is more than a colon. -/
theorem ne_colon_of_read {text : List Char} {number : Scalar}
    (read : Numeral.read text = .ok number) : text ≠ [':'] := by
  rintro rfl
  cases read

end Number

/-! ## What is skipped -/

namespace Lexeme

/-- A text in which parentheses match. -/
inductive Balanced : List Char → Prop where
  | nil : Balanced []
  | plain {c : Char} {rest : List Char} (opens : c ≠ '(') (closes : c ≠ ')')
      (after : Balanced rest) : Balanced (c :: rest)
  | nested {inside rest : List Char} (inner : Balanced inside) (after : Balanced rest) :
      Balanced ('(' :: (inside ++ ')' :: rest))

/-- Whether a text begins with a blank. -/
def startsBlank : List Char → Bool
  | [] => false
  | c :: _ => Text.isBlank c

/-- A text of blanks and of comments that end. -/
inductive Filling : List Char → Prop where
  | nil : Filling []
  | blank {c : Char} {rest : List Char} (is_blank : Text.isBlank c = true)
      (after : Filling rest) : Filling (c :: rest)
  /-- A comment in parentheses. -/
  | remark {inside rest : List Char} (alone : startsBlank inside = true)
      (matched : Balanced inside) (after : Filling rest) :
      Filling ('(' :: (inside ++ ')' :: rest))
  /-- A comment that ends with the line. -/
  | lineRemark {line rest : List Char} (alone : startsBlank (line ++ ['\n']) = true)
      (single : '\n' ∉ line) (after : Filling rest) : Filling ('\\' :: (line ++ '\n' :: rest))

/-- What may stand between two lexemes. -/
structure Gap where
  text : List Char
  filling : Filling text
  starts_blank : startsBlank text = true

theorem standsAlone_of_startsBlank {text : List Char} (starts : startsBlank text = true)
    (rest : List Char) : standsAlone (text ++ rest) = true := by
  cases text with
  | nil => cases starts
  | cons c text => exact starts

/-- Matching parentheses leave the depth of a comment as it was. -/
theorem afterComment_balanced {inside : List Char} (balanced : Balanced inside) (depth : Nat)
    (rest : List Char) :
    afterComment (depth + 1) (inside ++ rest) = afterComment (depth + 1) rest := by
  induction balanced generalizing depth rest with
  | nil => rfl
  | plain opens closes _ ih =>
    rw [List.cons_append, afterComment, if_neg opens, if_neg closes, ih]
  | @nested inside later _ _ ihInner ihAfter =>
    rw [List.cons_append, List.append_assoc, afterComment, if_pos rfl, ihInner, List.cons_append,
      afterComment, if_neg (by decide), if_pos rfl, ihAfter]

theorem scan_filling {text : List Char} (filling : Filling text) (rest : List Char) :
    scan (text ++ rest) = scan rest := by
  induction filling with
  | nil => rfl
  | blank is_blank _ ih => rw [List.cons_append, scan_cons, next_blank is_blank, ih]; rfl
  | @remark inside later alone matched _ ih =>
    have ends : afterComment 1 (inside ++ ')' :: (later ++ rest)) = later ++ rest := by
      rw [afterComment_balanced matched 0, afterComment, if_neg (by decide), if_pos rfl,
        afterComment]
    rw [List.cons_append, List.append_assoc, List.cons_append, scan_cons,
      next_parenthesis (standsAlone_of_startsBlank alone _), ends, ih]
    rfl
  | @lineRemark line later alone single _ ih =>
    have inside : ∀ c ∈ line, insideLine c = true := by
      intro c known
      simp only [insideLine, bne_iff_ne]
      rintro rfl
      exact single known
    have alone : standsAlone (line ++ '\n' :: (later ++ rest)) = true := by
      have starts := standsAlone_of_startsBlank alone (later ++ rest)
      rwa [List.append_assoc] at starts
    have ends : (line ++ '\n' :: (later ++ rest)).dropWhile insideLine =
        '\n' :: (later ++ rest) := by
      rw [List.dropWhile_append_of_pos inside]
      rfl
    rw [List.cons_append, List.append_assoc, List.cons_append, scan_cons, next_backslash alone,
      ends, scan_cons, next_blank (by decide), ih]
    rfl

/-! ## Lexemes as text -/

/-- How a lexeme is written. -/
def written : Lexeme → List Char
  | quoted content => '"' :: (content ++ ['"'])
  | bare content => content

/-- The lexemes that a scan can yield.  A bare one is not empty, has no blanks, does not begin
with a quote and does not begin a comment. -/
def Proper : Lexeme → Prop
  | quoted content => '"' ∉ content
  | bare content => (∀ c ∈ content, Text.isBlank c = false) ∧ content ≠ [] ∧
      content.head? ≠ some '"' ∧ content ≠ ['('] ∧ content ≠ ['\\']

/-- No word begins exactly where a blank or the end stands. -/
theorem takeWhile_insideWord_eq_nil_iff {text : List Char} :
    text.takeWhile insideWord = [] ↔ standsAlone text = true := by
  cases text with
  | nil => exact ⟨fun _ => rfl, fun _ => rfl⟩
  | cons c text =>
    rw [List.takeWhile_cons, standsAlone]
    cases blank : Text.isBlank c <;> simp [insideWord, blank]

theorem dropWhile_insideWord {text : List Char} (alone : standsAlone text = true) :
    text.dropWhile insideWord = text := by
  have nothing := takeWhile_insideWord_eq_nil_iff.mpr alone
  have whole : text.takeWhile insideWord ++ text.dropWhile insideWord = text :=
    List.takeWhile_append_dropWhile
  rwa [nothing, List.nil_append] at whole

theorem proper_of_next {c : Char} {rest : List Char} {lexeme : Lexeme}
    (yields : (next c rest).1 = some lexeme) : lexeme.Proper := by
  unfold next at yields
  split at yields
  · cases yields
  · next visible =>
    split at yields
    · cases yields
      intro inside
      simpa [insideQuotes] using List.mem_takeWhile_imp inside
    · next quote =>
      split at yields
      · cases yields
      · next comment =>
        split at yields
        · cases yields
        · next remark =>
          cases yields
          refine ⟨fun d inside => ?_, List.cons_ne_nil _ _, ?_, fun same => ?_, fun same => ?_⟩
          · rcases List.mem_cons.mp inside with rfl | later
            · exact Bool.eq_false_iff.mpr visible
            · simpa [insideWord] using List.mem_takeWhile_imp later
          · simpa using quote
          · obtain ⟨opens, alone⟩ := List.cons.inj same
            exact comment ⟨opens, takeWhile_insideWord_eq_nil_iff.mp alone⟩
          · obtain ⟨opens, alone⟩ := List.cons.inj same
            exact remark ⟨opens, takeWhile_insideWord_eq_nil_iff.mp alone⟩

theorem proper_of_mem_scan (text : List Char) : ∀ lexeme ∈ scan text, lexeme.Proper := by
  induction text using scan.induct with
  | case1 => simp
  | case2 c rest ih =>
    intro lexeme inside
    rw [scan_cons, List.mem_append, Option.mem_toList] at inside
    rcases inside with first | later
    · exact proper_of_next first
    · exact ih lexeme later

/-- A lexeme that is written before a blank or at the end is scanned as what it was. -/
theorem scan_written {lexeme : Lexeme} (proper : lexeme.Proper) {rest : List Char}
    (alone : standsAlone rest = true) : scan (lexeme.written ++ rest) = lexeme :: scan rest := by
  cases lexeme with
  | quoted content =>
    have inside : ∀ c ∈ content, insideQuotes c = true := by
      intro c known
      simp only [insideQuotes, bne_iff_ne]
      rintro rfl
      exact proper known
    have stops : insideQuotes '"' = false := by decide
    have taken : (content ++ '"' :: rest).takeWhile insideQuotes = content := by
      rw [List.takeWhile_append_of_pos inside, List.takeWhile_cons, stops]
      exact List.append_nil content
    have left : (content ++ '"' :: rest).dropWhile insideQuotes = '"' :: rest := by
      rw [List.dropWhile_append_of_pos inside, List.dropWhile_cons, stops]
      rfl
    rw [written, List.cons_append, List.append_assoc, List.singleton_append, scan_cons, next_quote,
      taken, left]
    rfl
  | bare content =>
    obtain ⟨visible, some_, quote, comment, remark⟩ := proper
    cases content with
    | nil => exact absurd rfl some_
    | cons c content =>
      rw [List.forall_mem_cons] at visible
      have inside : ∀ d ∈ content, insideWord d = true := by
        intro d known
        simp [insideWord, visible.2 d known]
      have begins : standsAlone (content ++ rest) = true → c ≠ '(' ∧ c ≠ '\\' := by
        cases content with
        | nil => exact fun _ => ⟨fun same => comment (same ▸ rfl), fun same => remark (same ▸ rfl)⟩
        | cons d content =>
          intro blank
          have blank : Text.isBlank d = true := blank
          rw [visible.2 d List.mem_cons_self] at blank
          cases blank
      have taken : (content ++ rest).takeWhile insideWord = content := by
        rw [List.takeWhile_append_of_pos inside, takeWhile_insideWord_eq_nil_iff.mpr alone,
          List.append_nil]
      have left : (content ++ rest).dropWhile insideWord = rest := by
        rw [List.dropWhile_append_of_pos inside, dropWhile_insideWord alone]
      rw [written, List.cons_append, scan_cons,
        next_bare visible.1 (fun same => quote (congrArg some same)) begins, taken, left]
      rfl

/-- Lexemes one after another, with gaps between them. -/
def weave (gap : Nat → Gap) : List Lexeme → List Char
  | [] => []
  | [lexeme] => lexeme.written
  | lexeme :: next :: rest =>
    lexeme.written ++ ((gap 0).text ++ weave (fun i => gap (i + 1)) (next :: rest))

/-- Whatever stands between them, the lexemes are scanned back. -/
theorem scan_weave {lexemes : List Lexeme} (proper : ∀ lexeme ∈ lexemes, lexeme.Proper)
    (gap : Nat → Gap) : scan (weave gap lexemes) = lexemes := by
  induction lexemes generalizing gap with
  | nil => rw [weave, scan_nil]
  | cons lexeme rest ih =>
    rw [List.forall_mem_cons] at proper
    cases rest with
    | nil =>
      have last : scan (lexeme.written ++ []) = lexeme :: scan [] := scan_written proper.1 rfl
      rwa [List.append_nil, scan_nil] at last
    | cons next rest =>
      rw [weave, scan_written proper.1 (standsAlone_of_startsBlank (gap 0).starts_blank _),
        scan_filling (gap 0).filling, ih proper.2]

end Lexeme

/-! ## Tokens as lexemes -/

namespace Number

/-- The spelling of an integer can stand between blanks. -/
theorem IsSpelling.proper {n : Int} {text : List Char} (spelling : IsSpelling n text) :
    (Lexeme.bare text).Proper := by
  refine ⟨fun c inside => (spelling.solid c inside).1, ?_, fun quote => ?_, ?_, ?_⟩
  · rintro rfl
    cases spelling.read
  · exact (spelling.solid '"' (List.mem_of_mem_head? quote)).2.1 rfl
  · rintro rfl
    exact (spelling.solid '(' List.mem_cons_self).2.2.1 rfl
  · rintro rfl
    exact (spelling.solid '\\' List.mem_cons_self).2.2.2 rfl

end Number

namespace Token

/-- The lexemes that spell tokens.  An integer is written in base sixteen and a text between
quotes; a text that has a quote in it can be written only as the name of a definition. -/
def spelled : List Token → Option (List Lexeme)
  | [] => some []
  | datum (.int n) :: rest => (spelled rest).map (.bare (Number.hexadecimal n).toList :: ·)
  | word name :: rest => (spelled rest).map (.bare name.toList :: ·)
  | batch [.text s] :: rest =>
    if '"' ∈ s.toList then
      match rest with
      | word "define" :: others => (spelled others).map (.bare [':'] :: .bare s.toList :: ·)
      | _ => none
    else (spelled rest).map (.quoted s.toList :: ·)
  | _ => none

/-- Tokens as a text, with gaps between the lexemes. -/
def print (gap : Nat → Lexeme.Gap) (tokens : List Token) : Option String :=
  (spelled tokens).map fun lexemes => String.ofList (Lexeme.weave gap lexemes)

/-- The name of a word as the reader yields it: a text without blanks that is neither empty nor
a colon nor a numeral. -/
structure IsName (name : String) : Prop where
  nonempty : name ≠ ""
  visible : ∀ c ∈ name.toList, Text.isBlank c = false
  no_colon : name ≠ ":"
  no_numeral : ∃ f, Number.Numeral.read name.toList = .error f

/-- The lexemes are the spelling of the tokens, and are read as these tokens. -/
structure Spells (tokens : List Token) (spelling : List Lexeme) : Prop where
  spelled : spelled tokens = some spelling
  read : ofLexemes false spelling = .ok tokens
  proper : ∀ lexeme ∈ spelling, lexeme.Proper

theorem read_define :
    Number.Numeral.read "define".toList = .error (.notANumeral "define") := by
  decide

theorem proper_define : (Lexeme.bare "define".toList).Proper := by
  have solid : "define".toList.all (Text.isBlank · == false) = true := by decide
  refine ⟨fun c inside => eq_of_beq (List.all_eq_true.mp solid c inside), ?_, ?_, ?_, ?_⟩
  all_goals decide

namespace Spells

variable {tokens : List Token} {spelling : List Lexeme} (spells : Spells tokens spelling)

include spells

theorem text {content : List Char} (plain : '"' ∉ content) :
    Spells (ofText content :: tokens) (.quoted content :: spelling) where
  spelled := by
    unfold ofText Token.spelled
    rw [String.toList_ofList, if_neg plain, spells.spelled]
    rfl
  read := by
    rw [ofLexemes, spells.read]
    rfl
  proper := List.forall_mem_cons.mpr ⟨plain, spells.proper⟩

theorem int (n : Int) :
    Spells (datum (.int n) :: tokens) (.bare (Number.hexadecimal n).toList :: spelling) where
  spelled := by
    rw [Token.spelled, spells.spelled]
    rfl
  read := by
    have read := Number.read_hexadecimal n
    rw [ofLexemes, if_neg (Number.ne_colon_of_read read), spells.read, ofBare, read]
    rfl
  proper := List.forall_mem_cons.mpr ⟨(Number.isSpelling_hexadecimal n).proper, spells.proper⟩

theorem word {content : List Char} (proper : (Lexeme.bare content).Proper)
    (no_colon : content ≠ [':']) {f : Fault}
    (no_numeral : Number.Numeral.read content = .error f) :
    Spells (word (String.ofList content) :: tokens) (.bare content :: spelling) where
  spelled := by
    rw [Token.spelled, spells.spelled, String.toList_ofList]
    rfl
  read := by
    rw [ofLexemes, if_neg no_colon, spells.read, ofBare, no_numeral]
    rfl
  proper := List.forall_mem_cons.mpr ⟨proper, spells.proper⟩

theorem define : Spells (Token.word "define" :: tokens) (.bare "define".toList :: spelling) :=
  spells.word proper_define (by decide) read_define

/-- A name with a quote in it is written with its colon. -/
theorem name {content : List Char} (proper : (Lexeme.bare content).Proper)
    (quote : '"' ∈ content) :
    Spells (ofText content :: Token.word "define" :: tokens)
      (.bare [':'] :: .bare content :: spelling) where
  spelled := by
    rw [ofText, Token.spelled, String.toList_ofList, if_pos quote, spells.spelled]
    rfl
  read := by
    rw [ofLexemes, if_pos rfl, ofLexemes, spells.read]
    rfl
  proper := by
    have colon : (Lexeme.bare [':']).Proper := by
      refine ⟨fun c inside => ?_, ?_, ?_, ?_, ?_⟩
      · rw [List.mem_singleton.mp inside]
        rfl
      all_goals decide
    rw [List.forall_mem_cons, List.forall_mem_cons]
    exact ⟨colon, proper, spells.proper⟩

end Spells

/-- Lexemes that have been read have tokens that can be spelled, and the spelling is read in
the same way.

The induction is along the reading.  The lexemes that come out are not those that went in: a
colon and a name become a text and a word, unless there is a quote in the name. -/
theorem exists_spells {naming : Bool} {lexemes : List Lexeme} {tokens : List Token}
    (read : ofLexemes naming lexemes = .ok tokens) (proper : ∀ lexeme ∈ lexemes, lexeme.Proper)
    (whole : ∀ x, datum (.float x) ∉ tokens) : ∃ spelling, Spells tokens spelling := by
  fun_induction ofLexemes naming lexemes generalizing tokens with
  | case1 => cases read
  | case2 =>
    cases read
    exact ⟨[], rfl, rfl, by simp⟩
  | case3 lexeme rest ih =>
    obtain ⟨later, left, made⟩ := exists_of_bind_ok read
    cases made
    rw [List.forall_mem_cons] at proper
    obtain ⟨spelling, spells⟩ := ih left proper.2 fun x inside => whole x (by simp [inside])
    by_cases quote : '"' ∈ lexeme.content
    · cases lexeme with
      | quoted content => exact absurd quote proper.1
      | bare content => exact ⟨_, spells.name proper.1 quote⟩
    · exact ⟨_, spells.define.text quote⟩
  | case4 content rest ih =>
    obtain ⟨later, left, made⟩ := exists_of_bind_ok read
    cases made
    rw [List.forall_mem_cons] at proper
    obtain ⟨spelling, spells⟩ := ih left proper.2 fun x inside => whole x (by simp [inside])
    exact ⟨_, spells.text proper.1⟩
  | case5 rest ih =>
    rw [List.forall_mem_cons] at proper
    exact ih read proper.2 whole
  | case6 content rest no_colon ih =>
    obtain ⟨later, left, made⟩ := exists_of_bind_ok read
    cases made
    rw [List.forall_mem_cons] at proper
    obtain ⟨spelling, spells⟩ := ih left proper.2 fun x inside => whole x (by simp [inside])
    unfold ofBare at whole ⊢
    cases numeral : Number.Numeral.read content with
    | error f => exact ⟨_, spells.word proper.1 no_colon numeral⟩
    | ok number =>
      rw [numeral] at whole
      cases number with
      | int n => exact ⟨_, spells.int n⟩
      | float x => exact absurd List.mem_cons_self (whole x)

theorem isName_of_bare {content : List Char} (proper : (Lexeme.bare content).Proper)
    (no_colon : content ≠ [':']) {f : Fault}
    (no_numeral : Number.Numeral.read content = .error f) : IsName (String.ofList content) where
  nonempty same := proper.2.1 (String.ofList_eq_empty_iff.mp same)
  visible := by
    rw [String.toList_ofList]
    exact proper.1
  no_colon same := by
    have same := congrArg String.toList same
    rw [String.toList_ofList] at same
    exact no_colon same
  no_numeral := by
    rw [String.toList_ofList]
    exact ⟨f, no_numeral⟩

theorem isName_define : IsName "define" :=
  isName_of_bare proper_define (by decide) read_define

/-- The words that the reader yields have proper names. -/
theorem isName_of_mem {naming : Bool} {lexemes : List Lexeme} {tokens : List Token}
    (read : ofLexemes naming lexemes = .ok tokens) (proper : ∀ lexeme ∈ lexemes, lexeme.Proper)
    {name : String} (inside : word name ∈ tokens) : IsName name := by
  fun_induction ofLexemes naming lexemes generalizing tokens with
  | case1 => cases read
  | case2 =>
    cases read
    cases inside
  | case3 lexeme rest ih =>
    obtain ⟨later, left, made⟩ := exists_of_bind_ok read
    cases made
    rw [List.forall_mem_cons] at proper
    rw [List.mem_cons, List.mem_cons] at inside
    rcases inside with text | define | later
    · cases text
    · cases define
      exact isName_define
    · exact ih left proper.2 later
  | case4 content rest ih =>
    obtain ⟨later, left, made⟩ := exists_of_bind_ok read
    cases made
    rw [List.forall_mem_cons] at proper
    rw [List.mem_cons] at inside
    rcases inside with text | later
    · cases text
    · exact ih left proper.2 later
  | case5 rest ih =>
    rw [List.forall_mem_cons] at proper
    exact ih read proper.2 inside
  | case6 content rest no_colon ih =>
    obtain ⟨later, left, made⟩ := exists_of_bind_ok read
    cases made
    rw [List.forall_mem_cons] at proper
    rw [List.mem_cons] at inside
    rcases inside with first | later
    · unfold ofBare at first
      cases numeral : Number.Numeral.read content with
      | ok number => simp [numeral] at first
      | error f =>
        rw [numeral] at first
        cases first
        exact isName_of_bare proper.1 no_colon numeral
    · exact ih left proper.2 later

/-- A text that spells an integer is read as that integer, and has it as its only token. -/
theorem tokenize_spelling {n : Int} {text : List Char} (spelling : Number.IsSpelling n text) :
    Number.Numeral.read text = .ok (.int n) ∧
      tokenize (String.ofList text) = .ok [datum (.int n)] := by
  have read := spelling.read
  have scanned : Lexeme.scan (text ++ []) = .bare text :: Lexeme.scan [] :=
    Lexeme.scan_written spelling.proper rfl
  rw [List.append_nil, Lexeme.scan_nil] at scanned
  refine ⟨read, ?_⟩
  rw [tokenize, String.toList_ofList, scanned, ofLexemes, if_neg (Number.ne_colon_of_read read),
    ofBare, read]
  rfl

/-- Signs, zeros in front, underscores and letters of either case, and base ten. -/
theorem tokenize_spelling_marked :
    (Number.Numeral.read ['-', '0', 'X', '0', '_', 'f', 'F'] = .ok (.int (-255)) ∧
        tokenize (String.ofList ['-', '0', 'X', '0', '_', 'f', 'F']) =
          .ok [datum (.int (-255))]) ∧
      tokenize (String.ofList ['+', '0', '_', '0', '7']) = .ok [datum (.int 7)] := by
  have digits : Number.SpellsDigits 16 ['0', '_', 'f', 'F'] [0, 15, 15] :=
    .underscore ⟨by decide, .inl rfl⟩
      (.next ⟨by decide, .inl rfl⟩ (.last ⟨by decide, .inr rfl⟩))
  have seven : Number.SpellsDigits 10 ['0', '_', '0', '7'] [0, 0, 7] :=
    .underscore ⟨by decide, .inl rfl⟩
      (.next ⟨by decide, .inl rfl⟩ (.last ⟨by decide, .inl rfl⟩))
  exact ⟨tokenize_spelling (.marked .minus .X digits),
    (tokenize_spelling (.decimal .plus seven (by decide))).2⟩

/-- Source texts go round through tokens.  Take the tokens of any text that can be read and
that has no floating-point number in it, and print them with any gaps between them.  The
printed text has the same tokens again; and the words among them have names that are not
empty, have no blanks in them and are neither colons nor numerals. -/
theorem tokenize_print {source : String} {tokens : List Token}
    (read : tokenize source = .ok tokens) (whole : ∀ x, datum (.float x) ∉ tokens) :
    (∀ gap, ∃ printed, print gap tokens = some printed ∧ tokenize printed = .ok tokens) ∧
      ∀ name, word name ∈ tokens → IsName name := by
  have proper := Lexeme.proper_of_mem_scan source.toList
  obtain ⟨spelling, spells⟩ := exists_spells read proper whole
  refine ⟨fun gap => ?_, fun name inside => isName_of_mem read proper inside⟩
  refine ⟨String.ofList (Lexeme.weave gap spelling), ?_, ?_⟩
  · rw [print, spells.spelled]
    rfl
  · rw [tokenize, String.toList_ofList, Lexeme.scan_weave spells.proper, spells.read]

/-- A gap with comments of both kinds in it, one of them nested. -/
def remarks : Lexeme.Gap where
  text := " ( a ( b ) c )\\ d\n".toList
  filling := by
    have inner : Lexeme.Balanced [' ', 'b', ' '] := by
      refine .plain ?_ ?_ (.plain ?_ ?_ (.plain ?_ ?_ .nil)) <;> decide
    have after : Lexeme.Balanced [' ', 'c', ' '] := by
      refine .plain ?_ ?_ (.plain ?_ ?_ (.plain ?_ ?_ .nil)) <;> decide
    have inside : Lexeme.Balanced " a ( b ) c ".toList := by
      refine .plain ?_ ?_ (.plain ?_ ?_ (.plain ?_ ?_ (.nested inner after))) <;> decide
    have line : Lexeme.Filling ('\\' :: (" d".toList ++ '\n' :: [])) :=
      .lineRemark (by decide) (by decide) .nil
    have remark : Lexeme.Filling
        ('(' :: (" a ( b ) c ".toList ++ ')' :: '\\' :: (" d".toList ++ '\n' :: []))) :=
      .remark (by decide) inside line
    exact .blank (by decide) remark
  starts_blank := by decide

theorem tokenize_print_remarks :
    tokenize ": a\"b ( n ) -31 \"x y\"swap ;" =
        .ok [ofText "a\"b".toList, word "define", datum (.int (-31)), ofText "x y".toList,
          word "swap", word ";"] ∧
      (∃ printed, print (fun _ => remarks) [ofText "a\"b".toList, word "define",
          datum (.int (-31)), ofText "x y".toList, word "swap", word ";"] = some printed ∧
        tokenize printed = .ok [ofText "a\"b".toList, word "define", datum (.int (-31)),
          ofText "x y".toList, word "swap", word ";"]) ∧
      IsName "swap" := by
  have read : tokenize ": a\"b ( n ) -31 \"x y\"swap ;" =
      .ok [ofText "a\"b".toList, word "define", datum (.int (-31)), ofText "x y".toList,
        word "swap", word ";"] := by decide +kernel
  obtain ⟨printed, names⟩ := tokenize_print read (by simp [ofText])
  exact ⟨read, printed fun _ => remarks, names "swap" (by simp)⟩

end Token
end ThreadedForth
