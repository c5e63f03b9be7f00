import Mathlib.Data.List.Induction
import Mathlib.Data.List.TakeWhile
import Mathlib.Data.Nat.Digits.Defs
import ThreadedForth.Number.Numeral

/-!
# How integers are spelled

An integer has many spellings.  It may have a sign; it is spelled in base ten, or behind a base
mark in base two, eight or sixteen; there may be zeros in front, and single underscores between the
digits; and the letters, in the mark and among the digits, may be of either case.  What these
spellings are is said here by themselves (`IsSpelling`), and the number that one of them stands for
is the sum of the digits times the powers of the base, with the sign.

The reader tries several things with a text, and the first that succeeds decides.  Each spelling is
read as the integer that it stands for, and never as another one or as a decimal.  In base ten this
is so up to the limit on the number of digits.

* `SpellsDigits.digits?_eq_some`, `SpellsDigits.spanDigits_eq`: a row of digits is read in whole,
  behind a base mark and in base ten;
* `IsSpelling.read`: the spelling of an integer is read as that integer;
* `IsSpelling.solid`: there is nothing in it that would end a word or begin something else.
-/

namespace ThreadedForth
namespace Number

/-! ## Spellings -/

/-- The ASCII character is the digit of a base, in either case, that has this value. -/
def IsDigit (base : Nat) (c : Char) (d : Nat) : Prop :=
  d < base ∧ (c = d.digitChar ∨ c = d.digitChar.toUpper)

/-- The text is a row of digits of a base, the most significant first, with a single underscore or
none between any two. -/
inductive SpellsDigits (base : Nat) : (text : List Char) → (digits : List Nat) → Prop where
  | last {c : Char} {d : Nat} (digit : IsDigit base c d) : SpellsDigits base [c] [d]
  | next {c : Char} {d : Nat} {text : List Char} {digits : List Nat} (digit : IsDigit base c d)
      (after : SpellsDigits base text digits) : SpellsDigits base (c :: text) (d :: digits)
  | underscore {c : Char} {d : Nat} {text : List Char} {digits : List Nat}
      (digit : IsDigit base c d) (after : SpellsDigits base text digits) :
      SpellsDigits base (c :: '_' :: text) (d :: digits)

/-- What may stand before the digits. -/
inductive Sign where
  | absent
  | plus
  | minus

namespace Sign

def text : Sign → List Char
  | absent => []
  | plus => ['+']
  | minus => ['-']

/-- The number with this sign before it. -/
def apply (sign : Sign) (n : Nat) : Int :=
  match sign with
  | minus => -n
  | absent | plus => n

end Sign

/-- The letters that mark a base. -/
inductive Marks : (base : Nat) → Char → Prop where
  | b : Marks 2 'b'
  | B : Marks 2 'B'
  | o : Marks 8 'o'
  | O : Marks 8 'O'
  | x : Marks 16 'x'
  | X : Marks 16 'X'

/-- The text spells the integer. -/
inductive IsSpelling : Int → List Char → Prop where
  | marked (sign : Sign) {base : Nat} {letter : Char} {text : List Char} {digits : List Nat}
      (mark : Marks base letter) (spelled : SpellsDigits base text digits) :
      IsSpelling (sign.apply (Nat.ofDigits base digits.reverse))
        (sign.text ++ '0' :: letter :: text)
  | decimal (sign : Sign) {text : List Char} {digits : List Nat}
      (spelled : SpellsDigits 10 text digits) (few : digits.length ≤ digitLimit) :
      IsSpelling (sign.apply (Nat.ofDigits 10 digits.reverse)) (sign.text ++ text)

/-! ## Characters -/

/-- The character does not end a word, and no quote and no comment begins with it. -/
def Solid (c : Char) : Prop := Text.isBlank c = false ∧ c ≠ '"' ∧ c ≠ '(' ∧ c ≠ '\\'

instance (c : Char) : Decidable (Solid c) := inferInstanceAs (Decidable (_ ∧ _))

namespace IsDigit

variable {base d : Nat} {c : Char} (digit : IsDigit base c d)

include digit

/-- What holds of all digits, in both cases, holds of a digit. -/
theorem of_forall {P : Char → Nat → Prop} {bound : Nat}
    (all : ∀ e : Fin bound, P e.val.digitChar e.val ∧ P e.val.digitChar.toUpper e.val)
    (low : base ≤ bound) : P c d := by
  have both := all ⟨d, Nat.lt_of_lt_of_le digit.1 low⟩
  rcases digit.2 with rfl | rfl
  · exact both.1
  · exact both.2

theorem solid (low : base ≤ 16) : Solid c :=
  digit.of_forall (P := fun c _ => Solid c) (by decide) low

theorem ne_underscore (low : base ≤ 16) : c ≠ '_' :=
  digit.of_forall (P := fun c _ => c ≠ '_') (by decide) low

theorem ne_sign (low : base ≤ 16) : c ≠ '-' ∧ c ≠ '+' :=
  digit.of_forall (P := fun c _ => c ≠ '-' ∧ c ≠ '+') (by decide) low

/-- Behind a base mark the digit has its value, which the base bounds. -/
theorem baseDigit?_eq_some (low : base ≤ 16) : Text.baseDigit? base c = some d := by
  have widest : Text.baseDigit? 16 c = some d :=
    digit.of_forall (P := fun c d => Text.baseDigit? 16 c = some d) (by decide) low
  exact Option.filter_eq_some_iff.mpr
    ⟨(Option.filter_eq_some_iff.mp widest).1, decide_eq_true digit.1⟩

/-- In base ten the digit has its value, and is no mark. -/
theorem decimalDigit?_eq_some (low : base ≤ 10) :
    Text.decimalDigit? c = some d ∧ Numeral.markedBase? c = none :=
  digit.of_forall
    (P := fun c d => Text.decimalDigit? c = some d ∧ Numeral.markedBase? c = none) (by decide) low

end IsDigit

namespace SpellsDigits

variable {base : Nat} {text : List Char} {digits : List Nat}
  (spelled : SpellsDigits base text digits)

include spelled

/-- A row of digits begins with a digit. -/
theorem exists_cons : ∃ c d rest, text = c :: rest ∧ IsDigit base c d := by
  cases spelled with
  | last digit => exact ⟨_, _, _, rfl, digit⟩
  | next digit _ => exact ⟨_, _, _, rfl, digit⟩
  | underscore digit _ => exact ⟨_, _, _, rfl, digit⟩

theorem solid (low : base ≤ 16) : ∀ c ∈ text, Solid c := by
  induction spelled with
  | last digit => exact List.forall_mem_singleton.mpr (digit.solid low)
  | next digit _ ih => exact List.forall_mem_cons.mpr ⟨digit.solid low, ih⟩
  | underscore digit _ ih =>
    exact List.forall_mem_cons.mpr ⟨digit.solid low, List.forall_mem_cons.mpr ⟨by decide, ih⟩⟩

/-! ## Reading digits -/

/-- Behind a base mark a row of digits is read in whole. -/
theorem digits?_eq_some (low : base ≤ 16) :
    Numeral.digits? (Text.baseDigit? base) text = some digits := by
  induction spelled with
  | last digit => simp [Numeral.digits?, digit.baseDigit?_eq_some low]
  | next digit after ih =>
    -- the character after the digit is no underscore, so it is read next
    obtain ⟨c, d, rest, rfl, first⟩ := after.exists_cons
    simp [Numeral.digits?, digit.baseDigit?_eq_some low, first.ne_underscore low] at ih ⊢
    simp [ih]
  | underscore digit after ih => simp [Numeral.digits?, digit.baseDigit?_eq_some low, ih]

/-- In base ten a row of digits is split off in whole. -/
theorem spanDigits_eq (low : base ≤ 10) : Numeral.spanDigits text = (digits, []) := by
  have wide : base ≤ 16 := Nat.le_trans low (by decide)
  induction spelled with
  | last digit => simp [Numeral.spanDigits, (digit.decimalDigit?_eq_some low).1]
  | next digit after ih =>
    obtain ⟨c, d, rest, rfl, first⟩ := after.exists_cons
    rw [Numeral.spanDigits, (digit.decimalDigit?_eq_some low).1]
    simp [first.ne_underscore wide, ih]
  | underscore digit after ih =>
    obtain ⟨c, d, rest, rfl, first⟩ := after.exists_cons
    have starts : Numeral.startsWithDigit (c :: rest) = true := by
      rw [Numeral.startsWithDigit, (first.decimalDigit?_eq_some low).1]
      rfl
    rw [Numeral.spanDigits, (digit.decimalDigit?_eq_some low).1]
    simp [starts, ih]

/-- A row of decimal digits has no base mark. -/
theorem splitMark?_eq_none (low : base ≤ 10) : Numeral.splitMark? text = none := by
  unfold Numeral.splitMark?
  split
  · next second rest =>
    have unmarked : Numeral.markedBase? second = none := by
      cases spelled with
      | next _ after =>
        obtain ⟨c, d, others, same, first⟩ := after.exists_cons
        cases same
        exact (first.decimalDigit?_eq_some low).2
      | underscore => decide
    rw [unmarked]
    rfl
  · rfl

end SpellsDigits

/-! ## Reading integers -/

theorem valueOf_concat (base : Nat) (digits : List Nat) (d : Nat) :
    Numeral.valueOf base (digits ++ [d]) = Numeral.valueOf base digits * base + d := by
  rw [Numeral.valueOf, List.foldl_append]
  rfl

/-- What digits spell is the sum of the digits times the powers of the base. -/
theorem valueOf_eq_ofDigits (base : Nat) (digits : List Nat) :
    Numeral.valueOf base digits = Nat.ofDigits base digits.reverse := by
  induction digits using List.reverseRecOn with
  | nil => rfl
  | append_singleton digits d ih =>
    rw [valueOf_concat, ih, List.reverse_append, List.reverse_singleton, List.singleton_append,
      Nat.ofDigits_cons, Nat.mul_comm, Nat.add_comm]

/-- There is nothing to take off at the ends of a text without blanks. -/
theorem dropWhile_isPadding {text : List Char} (solid : ∀ c ∈ text, Solid c) :
    text.dropWhile Text.isPadding = text := by
  refine List.dropWhile_eq_self_iff.mpr fun first padding => ?_
  have visible := (solid _ (List.getElem_mem first)).1
  rw [Text.isBlank_of_isPadding padding] at visible
  cases visible

theorem dropWhile_isPadding_reverse {text : List Char} (solid : ∀ c ∈ text, Solid c) :
    (text.reverse.dropWhile Text.isPadding).reverse = text := by
  rw [dropWhile_isPadding fun c inside => solid c (List.mem_reverse.mp inside),
    List.reverse_reverse]

/-- Digits behind a base mark need no padding and no underscore. -/
theorem SpellsDigits.readMarked?_eq_some {base : Nat} {text : List Char} {digits : List Nat}
    (spelled : SpellsDigits base text digits) (low : base ≤ 16) :
    Numeral.readMarked? base text = some (Nat.ofDigits base digits.reverse) := by
  have read := spelled.digits?_eq_some low
  unfold Numeral.readMarked?
  rw [dropWhile_isPadding_reverse (spelled.solid low)]
  obtain ⟨c, d, rest, rfl, first⟩ := spelled.exists_cons
  dsimp only
  split
  · next same => exact absurd (List.cons.inj same).1 (first.ne_underscore low)
  · rw [read, Option.map_some, valueOf_eq_ofDigits]

namespace Sign

variable (sign : Sign)

def negative : Sign → Bool
  | minus => true
  | absent | plus => false

theorem signed_negative (n : Nat) : Numeral.signed sign.negative n = sign.apply n := by
  cases sign <;> rfl

theorem splitSign_text {c : Char} (rest : List Char) (plain : c ≠ '-' ∧ c ≠ '+') :
    Numeral.splitSign (sign.text ++ c :: rest) = (sign.negative, c :: rest) := by
  cases sign with
  | absent =>
    show Numeral.splitSign (c :: rest) = (false, c :: rest)
    unfold Numeral.splitSign
    split
    · next same => exact absurd (List.cons.inj same).1 plain.1
    · next same => exact absurd (List.cons.inj same).1 plain.2
    · rfl
  | plus => rfl
  | minus => rfl

theorem solid : ∀ c ∈ sign.text, Solid c := by
  cases sign with
  | absent => exact List.forall_mem_nil _
  | plus => exact List.forall_mem_singleton.mpr (by decide)
  | minus => exact List.forall_mem_singleton.mpr (by decide)

end Sign

theorem Marks.low {base : Nat} {letter : Char} (mark : Marks base letter) : base ≤ 16 := by
  cases mark <;> decide

theorem Marks.markedBase?_eq_some {base : Nat} {letter : Char} (mark : Marks base letter) :
    Numeral.markedBase? letter = some base := by
  cases mark <;> decide

theorem Marks.solid {base : Nat} {letter : Char} (mark : Marks base letter) : Solid letter := by
  cases mark <;> decide

/-- In base ten an integer is read up to the limit on the number of digits. -/
theorem SpellsDigits.readInteger_eq_ok {text : List Char} {digits : List Nat}
    (spelled : SpellsDigits 10 text digits) (few : digits.length ≤ digitLimit) (sign : Sign) :
    Numeral.readInteger (sign.text ++ text) =
      .ok (sign.apply (Nat.ofDigits 10 digits.reverse)) := by
  have solid : ∀ c ∈ sign.text ++ text, Solid c :=
    List.forall_mem_append.mpr ⟨sign.solid, spelled.solid (by decide)⟩
  have whole : Text.trimBy Text.isPadding (sign.text ++ text) = sign.text ++ text := by
    rw [Text.trimBy, dropWhile_isPadding solid, dropWhile_isPadding_reverse solid]
  have span := spelled.spanDigits_eq (Nat.le_refl 10)
  have some_ : digits ≠ [] := by
    cases spelled <;> exact List.cons_ne_nil _ _
  obtain ⟨c, d, rest, rfl, first⟩ := spelled.exists_cons
  unfold Numeral.readInteger
  rw [whole, sign.splitSign_text rest (first.ne_sign (by decide))]
  simp only [span]
  rw [if_neg (Nat.not_lt.mpr few), if_neg (by simp [some_]), sign.signed_negative,
    valueOf_eq_ofDigits]

namespace IsSpelling

variable {n : Int} {text : List Char} (spelling : IsSpelling n text)

include spelling

/-- The spelling of an integer is read as that integer. -/
theorem read : Numeral.read text = .ok (.int n) := by
  cases spelling with
  | @marked sign base letter text digits mark spelled =>
    have some_ : sign.text ++ '0' :: letter :: text ≠ [] := by simp
    unfold Numeral.read
    rw [if_neg some_, sign.splitSign_text _ (by decide)]
    simp only [Numeral.splitMark?, mark.markedBase?_eq_some, Option.map_some,
      spelled.readMarked?_eq_some mark.low, sign.signed_negative]
  | @decimal sign text digits spelled few =>
    have unmarked := spelled.splitMark?_eq_none (Nat.le_refl 10)
    have read := spelled.readInteger_eq_ok few sign
    obtain ⟨c, d, rest, rfl, first⟩ := spelled.exists_cons
    have some_ : sign.text ++ c :: rest ≠ [] := by simp
    unfold Numeral.read
    rw [if_neg some_, sign.splitSign_text rest (first.ne_sign (by decide))]
    simp only [unmarked, read]

/-- Nothing in the spelling ends a word or begins a text or a comment. -/
theorem solid : ∀ c ∈ text, Solid c := by
  cases spelling with
  | marked sign mark spelled =>
    refine List.forall_mem_append.mpr ⟨sign.solid, ?_⟩
    rw [List.forall_mem_cons, List.forall_mem_cons]
    exact ⟨by decide, mark.solid, spelled.solid mark.low⟩
  | decimal sign spelled few =>
    exact List.forall_mem_append.mpr ⟨sign.solid, spelled.solid (by decide)⟩

end IsSpelling

end Number
end ThreadedForth
