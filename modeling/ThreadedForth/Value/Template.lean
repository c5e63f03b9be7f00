import ThreadedForth.Value.Conversion

/-!
# Templates

A *template* is a text with conversions in it.  Each stands for the text of an
argument, and `%%` for the sign itself.  A tuple supplies its items as arguments; any
other value is a single argument.  Every conversion needs an argument and every argument
a conversion, except that a list, which is a single argument, may remain unused.

A conversion is spelled by the sign, then flags, a width, a precision after a point, a
letter for a length that has no meaning, and the letter that says what it does:

* `s`, `r` and `a` for the plain and the literal text of any value, and for the literal
  text in plain characters;
* `c` for a character, given by its code or as a text;
* `d`, `i` and `u` for the decimal text of the integer part of a number;
* `o`, `x` and `X` for an integer in base eight or sixteen;
* `e`, `f` and `g`, and their capitals, for a floating-point number with an exponent,
  without one, or with whichever is shorter.

A width or precision may be taken from the arguments instead, by an asterisk.  A name in
brackets asks for an argument by name.  Only a mapping has names, and no value is one: a
list takes the name for an index.

A text holds no half of a surrogate pair, so the code of one, which `c` could be given,
has no text.
-/

namespace ThreadedForth
namespace Value
namespace Template

/-! ## What a conversion spells -/

/-- The flags of a conversion. -/
structure Flags where
  /-- The text stands on the left of its width. -/
  left : Bool := false
  /-- A number that is not negative has a sign as well. -/
  signed : Bool := false
  /-- A number that is not negative has a blank for a sign. -/
  blank : Bool := false
  /-- An integer has a mark for its base, and a floating-point number its point. -/
  alternate : Bool := false
  /-- The width of a number is filled with zeros. -/
  zeros : Bool := false
  deriving DecidableEq, Repr

/-- The flags with the one that a character stands for, if it stands for one. -/
def Flags.add? (flags : Flags) (c : Char) : Option Flags :=
  if c = '-' then some { flags with left := true }
  else if c = '+' then some { flags with signed := true }
  else if c = ' ' then some { flags with blank := true }
  else if c = '#' then some { flags with alternate := true }
  else if c = '0' then some { flags with zeros := true }
  else Option.none

/-- Splits the flags off a text. -/
def readFlags (flags : Flags) : List Char → Flags × List Char
  | [] => (flags, [])
  | c :: rest =>
    match flags.add? c with
    | some more => readFlags more rest
    | Option.none => (flags, c :: rest)

/-- A width or a precision. -/
inductive Amount where
  | absent
  | spelled (n : Nat)
  /-- The next argument. -/
  | argument
  deriving DecidableEq, Repr

/-- Splits digits off a text, behind others that spell `n`. -/
def readDigits (n : Nat) : List Char → Nat × List Char
  | [] => (n, [])
  | c :: rest => if c.isDigit then readDigits (10 * n + (c.toNat - 48)) rest else (n, c :: rest)

/-- Splits an amount off a text. -/
def readAmount : List Char → Amount × List Char
  | [] => (.absent, [])
  | c :: rest =>
    if c = '*' then (.argument, rest)
    else if c.isDigit then
      let (n, after) := readDigits 0 (c :: rest)
      (.spelled n, after)
    else (.absent, c :: rest)

/-- Splits a precision off a text.  A point alone is a precision of zero. -/
def readPrecision : List Char → Amount × List Char
  | [] => (.absent, [])
  | c :: rest =>
    if c = '.' then
      match readAmount rest with
      | (.absent, after) => (.spelled 0, after)
      | found => found
    else (.absent, c :: rest)

/-- Skips the letter for a length. -/
def skipLength : List Char → List Char
  | [] => []
  | c :: rest => if c = 'h' ∨ c = 'l' ∨ c = 'L' then rest else c :: rest

/-! ## Width and precision -/

/-- The greatest machine integer. -/
def maxMachineInteger : Nat := 0x7FFFFFFF

/-- How the text of an argument is laid out. -/
structure Layout where
  flags : Flags
  width : Option Nat
  precision : Option Nat
  deriving DecidableEq, Repr

/-- The first of the arguments, and the others. -/
def nextArgument : List Value → Except Fault (Value × List Value)
  | [] => .error .tooFewArguments
  | v :: others => .ok (v, others)

/-- An integer from the arguments that is to be a width or a precision. -/
def nextInteger (arguments : List Value) : Except Fault (Int × List Value) := do
  let (v, others) ← nextArgument arguments
  match v.integer? with
  | some n => return (n, others)
  | Option.none => throw .widthNotAnInteger

/-- Settles a width.  A negative one from the arguments stands for the flag of the left. -/
def settleWidth (flags : Flags) (width : Amount) (arguments : List Value) :
    Except Fault (Flags × Option Nat × List Value) :=
  match width with
  | .absent => .ok (flags, Option.none, arguments)
  | .spelled n =>
    if maxIndex < n then .error .widthTooBig else .ok (flags, some n, arguments)
  | .argument => do
    let (n, others) ← nextInteger arguments
    if (maxIndex : Int) < n ∨ n < -(maxIndex : Int) - 1 then throw .widthTooLarge
    else return ({ flags with left := flags.left || n < 0 }, some n.natAbs, others)

/-- Settles a precision.  A negative one from the arguments counts as zero. -/
def settlePrecision (precision : Amount) (arguments : List Value) :
    Except Fault (Option Nat × List Value) :=
  match precision with
  | .absent => .ok (Option.none, arguments)
  | .spelled n =>
    if maxMachineInteger < n then .error .precisionTooBig else .ok (some n, arguments)
  | .argument => do
    let (n, others) ← nextInteger arguments
    if (maxMachineInteger : Int) < n ∨ n < -(maxMachineInteger : Int) - 1 then
      throw .codeTooLarge
    else return (some n.toNat, others)

namespace Layout

/-- Lays out a text with the sign and the base mark before it.  The width of a number may
be filled with zeros, which stand behind the sign and the mark. -/
def frame (l : Layout) (number : Bool) (sign mark body : List Char) : Except Fault String :=
  let width := l.width.getD 0
  let gap := width - (sign.length + mark.length + body.length)
  if gap ≠ 0 ∧ maxBytes < width then .error .outOfMemory
  else
    let laid :=
      if l.flags.left then sign ++ mark ++ body ++ List.replicate gap ' '
      else if number && l.flags.zeros then sign ++ mark ++ List.replicate gap '0' ++ body
      else List.replicate gap ' ' ++ sign ++ mark ++ body
    .ok (String.ofList laid)

/-- Lays out a text, of which the precision may cut the end off. -/
def ofText (l : Layout) (text : String) : Except Fault String :=
  l.frame false [] [] (text.toList.take (l.precision.getD text.length))

/-- The sign of a number. -/
def signOf (l : Layout) (negative : Bool) : List Char :=
  if negative then ['-']
  else if l.flags.signed then ['+']
  else if l.flags.blank then [' ']
  else []

/-- Lays out an integer, given by its sign and the digits of its magnitude.  The precision
is the least number of digits. -/
def ofDigits (l : Layout) (negative : Bool) (mark digits : List Char) : Except Fault String :=
  let least := l.precision.getD 0
  if maxBytes < least then .error .outOfMemory
  else
    l.frame true (l.signOf negative) (if l.flags.alternate then mark else [])
      (List.replicate (least - digits.length) '0' ++ digits)

/-- Lays out a floating-point number, with the conversion `letter` in lower case. -/
def ofFloat (l : Layout) (letter : Char) (capital : Bool) (x : Number.Binary64) :
    Except Fault String :=
  let precision := l.precision.getD 6
  let demanded := l.flags.alternate
  let shown := fun (negative : Bool) (body : List Char) =>
    l.frame true (l.signOf negative) [] (if capital then body.map Char.toUpper else body)
  match x with
  | .notANumber => shown false "nan".toList
  | .infinite negative => shown negative "inf".toList
  | .finite negative m e =>
    let (num, den) := Number.Binary64.quotient m e
    -- only the shorter of the two notations leaves out zeros that are asked for
    if maxBytes < precision ∧ (letter ≠ 'g' ∨ demanded) then .error .outOfMemory
    else if letter = 'e' then shown negative (Number.scientificText demanded precision num den)
    else if letter = 'f' then shown negative (Number.fixedText demanded precision num den)
    else shown negative (Number.generalText demanded (max precision 1) num den)

end Layout

/-! ## Conversions -/

/-- The integer part of a number, for the conversion `c`. -/
def whole (c : Char) (v : Value) : Except Fault Int :=
  match v with
  | int n => .ok n
  | bool b => .ok (if b then 1 else 0)
  | float x => floatToInteger x
  | nan _ => .error .notANumberToInteger
  | _ => .error (.notReal c v.kindName)

/-- The decimal text of the integer part of a number. -/
def wholeText (v : Value) : Except Fault String := do decimalText (← whole 'd' v)

/-- The character that a value is, or is the code of. -/
def character (v : Value) : Except Fault Char :=
  match v with
  | text s =>
    match s.toList with
    | [c] => .ok c
    | _ => .error .notACharacter
  | _ =>
    match v.integer? with
    | some n =>
      if n < 0 ∨ 0x10FFFF < n then .error .characterOutOfRange
      else if n.toNat.isValidChar then .ok (Char.ofNat n.toNat)
      else .error (.surrogate n.toNat)
    | Option.none => .error .notACharacter

/-- The floating-point number that a value is. -/
def real (v : Value) : Except Fault Number.Binary64 :=
  match v with
  | float x => .ok (Number.Binary64.ofFloat x)
  | nan _ => .ok .notANumber
  | _ =>
    match v.integer? with
    | some n =>
      match Number.Binary64.ofInt? n with
      | some x => .ok (Number.Binary64.ofFloat x)
      | Option.none => .error .integerTooLarge
    | Option.none => .error (.notFloat v.kindName)

/-- A text in which the characters that are not plain are spelled out. -/
def plainOnly (shown : String) : String :=
  String.ofList (shown.toList.flatMap fun c =>
    if c.toNat < 128 then [c] else Text.escapeCode c.toNat)

/-- An integer by the conversion `c`, which is one of the three decimal ones.  The digits
that the precision asks for must leave room for a sign and a mark. -/
def convertWhole (l : Layout) (c : Char) (v : Value) : Except Fault String := do
  let n ← whole c v
  if maxMachineInteger - 3 < l.precision.getD 0 then throw .precisionTooLarge
  let digits ← decimalText n.natAbs
  l.ofDigits (n < 0) [] digits.toList

/-- An integer by the conversion `c`, which is `o`, `x` or `X`. -/
def convertInBase (l : Layout) (c : Char) (v : Value) : Except Fault String :=
  match v.integer? with
  | Option.none => .error (.notWhole c v.kindName)
  | some n =>
    if maxMachineInteger - 3 < l.precision.getD 0 then .error .precisionTooLarge
    else
      let digits := Number.Positional.digits (if c = 'o' then 8 else 16) n.natAbs
      l.ofDigits (n < 0) ['0', c] (if c = 'X' then digits.map Char.toUpper else digits)

/-- The text that stands for the conversion `c` of the argument `v`. -/
def convert (slots : Array Value) (l : Layout) (c : Char) (position : Nat) (v : Value) :
    Except Fault String :=
  if c = 's' then do l.ofText (← plain slots v)
  else if c = 'r' then do l.ofText (← literal slots v)
  else if c = 'a' then do l.ofText (plainOnly (← literal slots v))
  else if c = 'c' then do l.frame false [] [] [← character v]
  else if c = 'd' ∨ c = 'i' ∨ c = 'u' then convertWhole l c v
  else if c = 'o' ∨ c = 'x' ∨ c = 'X' then convertInBase l c v
  else if c ∈ "eEfFgG".toList then do l.ofFloat c.toLower c.isUpper (← real v)
  else .error (.templateUnknown c position)

/-! ## Filling -/

/-- Whether the arguments of a template can be asked for by name.  Those of a list can, and
are looked up by an index that a name never is. -/
def takesNames : Value → Bool
  | list .. => true
  | _ => false

/-- Whether the brackets around a name are closed, when `depth` of them are open. -/
def closes (depth : Nat) : List Char → Bool
  | [] => false
  | c :: rest =>
    if c = ')' then depth ≤ 1 || closes (depth - 1) rest
    else if c = '(' then closes (depth + 1) rest
    else closes depth rest

/-- The fault of a conversion that asks for its argument by a name, which begins the
text. -/
def nameFault (named : Bool) (text : List Char) : Fault :=
  if !named then .notAMapping
  else if closes 1 text then .notAnAddress "str"
  else .nameIncomplete

/-- What a conversion spells between its sign and its letter. -/
structure Spelling where
  flags : Flags
  width : Amount
  precision : Amount
  /-- The letter and the text behind it. -/
  ending : List Char
  deriving DecidableEq, Repr

/-- Splits a conversion off a text, which its sign stands before. -/
def readSpelling (text : List Char) : Spelling :=
  let (flags, afterFlags) := readFlags {} text
  let (width, afterWidth) := readAmount afterFlags
  let (precision, afterPrecision) := readPrecision afterWidth
  ⟨flags, width, precision, skipLength afterPrecision⟩

/-- The text that stands for a conversion, and the arguments that are left.  `size` is the
length of the template. -/
def fillOne (slots : Array Value) (size : Nat) (spelling : Spelling) (arguments : List Value) :
    Except Fault (String × List Value) := do
  let (flags, width, arguments) ← settleWidth spelling.flags spelling.width arguments
  let (precision, arguments) ← settlePrecision spelling.precision arguments
  match spelling.ending with
  | [] => throw .templateIncomplete
  | letter :: after =>
    let (v, others) ← nextArgument arguments
    return (← convert slots ⟨flags, width, precision⟩ letter (size - after.length - 1) v, others)

section Lengths

theorem length_readFlags (flags : Flags) (text : List Char) :
    (readFlags flags text).2.length ≤ text.length := by
  fun_induction readFlags flags text with
  | case1 flags => exact Nat.le_refl 0
  | case2 flags c rest more _ ih => exact Nat.le_succ_of_le ih
  | case3 flags c rest => exact Nat.le_refl _

theorem length_readDigits (n : Nat) (text : List Char) :
    (readDigits n text).2.length ≤ text.length := by
  fun_induction readDigits n text with
  | case1 n => exact Nat.le_refl 0
  | case2 n c rest _ ih => exact Nat.le_succ_of_le ih
  | case3 n c rest => exact Nat.le_refl _

theorem length_readAmount (text : List Char) :
    (readAmount text).2.length ≤ text.length := by
  fun_cases readAmount text with
  | case1 => exact Nat.le_refl 0
  | case2 rest => exact Nat.le_succ rest.length
  | case3 c rest _ _ n after read =>
    have shorter := length_readDigits 0 (c :: rest)
    rwa [read] at shorter
  | case4 c rest => exact Nat.le_refl _

theorem length_readPrecision (text : List Char) :
    (readPrecision text).2.length ≤ text.length := by
  fun_cases readPrecision text with
  | case1 => exact Nat.le_refl 0
  | case2 rest after read =>
    have shorter := length_readAmount rest
    rw [read] at shorter
    exact Nat.le_succ_of_le shorter
  | case3 rest => exact Nat.le_succ_of_le (length_readAmount rest)
  | case4 c rest => exact Nat.le_refl _

theorem length_skipLength (text : List Char) : (skipLength text).length ≤ text.length := by
  fun_cases skipLength text with
  | case1 => exact Nat.le_refl 0
  | case2 c rest => exact Nat.le_succ rest.length
  | case3 c rest => exact Nat.le_refl _

/-- The text behind a conversion is no longer than the one that begins with it. -/
theorem length_readSpelling (text : List Char) :
    (readSpelling text).ending.tail.length ≤ text.length :=
  calc (readSpelling text).ending.tail.length
      ≤ (readSpelling text).ending.length := by rw [List.length_tail]; exact Nat.sub_le _ 1
    _ ≤ (readPrecision (readAmount (readFlags {} text).2).2).2.length := length_skipLength _
    _ ≤ (readAmount (readFlags {} text).2).2.length := length_readPrecision _
    _ ≤ (readFlags {} text).2.length := length_readAmount _
    _ ≤ text.length := length_readFlags {} text

end Lengths

/-- Fills a template.  `filled` is the text of what has been filled before, `size` is the
length of the whole template, and `named` tells whether its arguments can be asked for by
name. -/
def fillFrom (slots : Array Value) (size : Nat) (named : Bool) (filled : String) :
    List Char → List Value → Except Fault (String × List Value)
  | [], arguments => .ok (filled, arguments)
  | '%' :: [], _ => .error .templateIncomplete
  | '%' :: '%' :: rest, arguments => fillFrom slots size named (filled.push '%') rest arguments
  | '%' :: '(' :: rest, _ => .error (nameFault named rest)
  | '%' :: rest, arguments =>
    match fillOne slots size (readSpelling rest) arguments with
    | .ok (piece, others) =>
      fillFrom slots size named (filled ++ piece) (readSpelling rest).ending.tail others
    | .error f => .error f
  | c :: rest, arguments => fillFrom slots size named (filled.push c) rest arguments
termination_by template => template.length
decreasing_by
  · exact Nat.lt_add_of_pos_right (Nat.zero_lt_succ 1)
  · exact Nat.lt_succ_of_le (length_readSpelling _)
  · exact Nat.lt_succ_self _

/-- The arguments that a value supplies. -/
def arguments : Value → List Value
  | tuple _ items => items
  | v => [v]

/-- Fills a template from a value.  What can be asked for by name may be left unused. -/
def fill (slots : Array Value) (template : String) (v : Value) : Except Fault String := do
  let (filled, unused) ←
    fillFrom slots template.length (takesNames v) "" template.toList (arguments v)
  if unused.isEmpty || takesNames v then return filled else throw .tooManyArguments

/-! ## Templates that spell a text -/

section Doubling

variable {slots : Array Value} {size : Nat} {named : Bool}

/-- A text as a template that stands for it: every sign is doubled. -/
def doubled (text : List Char) : List Char :=
  text.flatMap fun c => if c = '%' then ['%', '%'] else [c]

/-- Doubled signs are filled in as the text itself, without an argument, wherever they stand
in the template. -/
theorem fillFrom_doubled (text rest : List Char) (filled : String) (arguments : List Value) :
    fillFrom slots size named filled (doubled text ++ rest) arguments =
      fillFrom slots size named (filled ++ String.ofList text) rest arguments := by
  induction text generalizing filled with
  | nil =>
    rw [String.ofList_nil, String.append_empty]
    rfl
  | cons c text ih =>
    have grown : filled ++ String.ofList (c :: text) = filled.push c ++ String.ofList text := by
      rw [String.ofList_cons, ← String.append_assoc, String.append_singleton]
    rw [grown, ← ih, doubled, List.flatMap_cons, List.append_assoc, ← doubled]
    by_cases sign : c = '%'
    · subst sign
      rw [if_pos rfl, List.cons_append, List.cons_append, List.nil_append, fillFrom]
    · rw [if_neg sign, List.cons_append, List.nil_append, fillFrom]
      · exact fun same => absurd same sign
      · exact fun _ same => absurd same sign
      · exact fun _ same => absurd same sign
      · exact fun same => absurd same sign

theorem fillFrom_doubled_end (text : List Char) (filled : String) (arguments : List Value) :
    fillFrom slots size named filled (doubled text) arguments =
      .ok (filled ++ String.ofList text, arguments) := by
  rw [← List.append_nil (doubled text), fillFrom_doubled, fillFrom]

/-- A template without a conversion stands for one text, and takes no argument. -/
theorem fill_doubled (text : String) {v : Value} (nothing : arguments v = []) :
    fill slots (String.ofList (doubled text.toList)) v = .ok text := by
  rw [fill, String.toList_ofList, nothing, fillFrom_doubled_end, String.ofList_toList,
    String.empty_append]
  rfl

theorem ofText_free (text : String) :
    Layout.ofText ⟨{}, Option.none, Option.none⟩ text = .ok text := by
  simp [Layout.ofText, Layout.frame, ← String.length_toList]

/-- The conversion `s` alone, before any text. -/
theorem fillOne_plain (rest : List Char) (item : Value) (others : List Value) :
    fillOne slots size (readSpelling ('s' :: rest)) (item :: others) =
      (plain slots item).map fun shown => (shown, others) := by
  have spelled : readSpelling ('s' :: rest) = ⟨{}, .absent, .absent, 's' :: rest⟩ := rfl
  rw [spelled]
  show (convert slots _ 's' _ item).bind (fun shown => .ok (shown, others)) = _
  rw [convert, if_pos rfl]
  cases plain slots item with
  | ok shown => exact congrArg (Except.map (·, others)) (ofText_free shown)
  | error f => rfl

/-- The conversion `s` stands for the plain text of the argument, between the text before it
and the text behind it. -/
theorem fill_around (before after : String) {v item : Value} (single : arguments v = [item]) :
    fill slots (String.ofList (doubled before.toList ++ '%' :: 's' :: doubled after.toList)) v =
      (plain slots item).map fun shown => before ++ shown ++ after := by
  have filled (size : Nat) (named : Bool) :
      fillFrom slots size named ""
          (doubled before.toList ++ '%' :: 's' :: doubled after.toList) [item] =
        (plain slots item).map fun shown => (before ++ shown ++ after, []) := by
    rw [fillFrom_doubled, String.ofList_toList, String.empty_append, fillFrom, fillOne_plain]
    · cases plain slots item with
      | ok shown =>
        show fillFrom slots size named (before ++ shown) (doubled after.toList) [] = _
        rw [fillFrom_doubled_end, String.ofList_toList]
        rfl
      | error f => rfl
    all_goals simp
  rw [fill, String.toList_ofList, single, filled]
  cases plain slots item with
  | ok shown => rfl
  | error f => rfl

end Doubling

end Template
end Value
end ThreadedForth
