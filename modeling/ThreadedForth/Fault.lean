import ThreadedForth.Number.Notation

/-!
# What can go wrong

Every failure of the machine is a `Fault`: a constructor for the cause, holding
what the cause was about.  Two functions read it.  `Fault.kind` says which family
the cause belongs to, and `Fault.message` is its one wording.

The families fall into two halves.  The machine's *own* faults concern its stacks,
its dictionary and its definitions (`Kind.isOwn`); the others come from the values
that words work on.  One kind stands apart: an `interrupt` is not a failure of the
word that runs, and nothing is undone on its account.

Some causes quote a value, and a value may have no text (an integer with too many
digits has none).  Such a fault cannot be raised; the failure to write its text is
raised in its place.  `Fault.orUnwritable` decides this for the causes that quote an
integer of the machine itself: the number of values needed (`Fault.short`) and the
capacity of the return stack (`Fault.full`).  The causes that quote a value of the
program are decided where they are raised, by `Value.quoting`.
-/

namespace ThreadedForth

namespace Fault

/-- The families of faults. -/
inductive Kind where
  | stackUnderflow
  | returnStackUnderflow
  | returnStackOverflow
  | undefinedWord
  | invalidWordName
  | arityMismatch
  | invalidArgument
  | definition
  | machine
  | wrongType
  | wrongValue
  | zeroDivision
  | overflow
  | index
  | missingField
  | missingFile
  | notAFolder
  | notAFile
  | system
  | endOfInput
  | interrupt
  | exhausted
  | memory
  | encoding
  | foreign
  deriving DecidableEq, Repr

/-- Whether a fault of this kind is one of the machine's own. -/
def Kind.isOwn : Kind → Bool
  | .stackUnderflow | .returnStackUnderflow | .returnStackOverflow | .undefinedWord
  | .invalidWordName | .arityMismatch | .invalidArgument | .definition | .machine => true
  | _ => false

end Fault

/-- The causes of failure. -/
inductive Fault where
  /-- The data stack holds fewer values than are needed. -/
  | underflow (needed available : Nat) (word : Option String)
  /-- An exit at a return-stack depth below the frame of the running invocation. -/
  | returnUnderflow (depth base : Nat)
  /-- A call nested deeper than the return stack allows. -/
  | returnOverflow (capacity : Int)
  /-- No dictionary entry has this name. -/
  | undefinedWord (name : String)
  /-- A name that is not a text, or is blank. -/
  | invalidWordName (shown : String)
  /-- A callable that does not tell its parameters. -/
  | arityUnknown (shown : String)
  /-- A callable with a parameter that no positional argument can fill. -/
  | keywordRequired (shown parameter : String)
  /-- An arity that is not a count. -/
  | arityImpossible (name shown : String)
  /-- An arity that the callable's parameters refuse. -/
  | arityRefused (name shown : String) (arity : Nat)
  /-- A count or index that is no integer. -/
  | notAnInteger (word shown : String)
  /-- A count or index below zero. -/
  | negativeCount (word shown : String)
  /-- Something other than a list or tuple to be spread. -/
  | notAComposite (shown : String)
  /-- Something other than a data cell to be loaded or stored to. -/
  | notACell (word shown : String)
  /-- A compiling word used with no definition open. -/
  | outsideDefinition (word : String)
  /-- A definition begun inside another one. -/
  | nestedDefinition (name openName : String)
  /-- Nothing has been defined that could be made immediate. -/
  | nothingToMark
  /-- No created word is there to take a behavior. -/
  | nothingCreated
  /-- A source text that ends where the name of a definition should stand. -/
  | nameMissing
  /-- Execution passed the last code cell. -/
  | ranOff (shown : String)
  /-- A code cell that is no instruction. -/
  | corruptCell (address : Int) (shown : String)
  /-- A machine fault raised on purpose, with a text of its own. -/
  | raised (text : String)
  /-- Operands an operator is not defined on. -/
  | unsupportedOperands (operator left right : String)
  /-- A sequence joined to something of another kind. -/
  | notJoinable (left right : String)
  /-- A sequence repeated by something other than an integer. -/
  | notRepeatable (times : String)
  /-- An operand that has no negative. -/
  | noNegative (operand : String)
  /-- Operands that have no order. -/
  | notOrdered (operator left right : String)
  /-- A batch of literals that is no sequence. -/
  | notIterable (operand : String)
  /-- A value that has no integer. -/
  | noInteger (operand : String)
  /-- A value of a kind that no mapping has as a name. -/
  | notAKey (operand : String)
  /-- A native word without a callable. -/
  | notCallable (name shown : String)
  /-- A template with more conversions than arguments. -/
  | tooFewArguments
  /-- A template with fewer conversions than arguments. -/
  | tooManyArguments
  /-- A number conversion given something that is none. -/
  | notReal (conversion : Char) (operand : String)
  /-- A conversion of integers given something that is none. -/
  | notWhole (conversion : Char) (operand : String)
  /-- A conversion of floating-point numbers given something that is no number. -/
  | notFloat (operand : String)
  /-- A conversion of characters given something that is none. -/
  | notACharacter
  /-- A width or precision that is taken from the arguments and is no integer. -/
  | widthNotAnInteger
  /-- A conversion that asks by name for an argument of something that has no names. -/
  | notAMapping
  /-- A call that leaves a required parameter without an argument. -/
  | argumentMissing (parameter : String)
  /-- A call with more arguments than parameters. -/
  | argumentExcess
  /-- An address that is no integer. -/
  | notAnAddress (operand : String)
  /-- An integer with too many digits to be written, or, with their number, to be
  read. -/
  | tooManyDigits (count : Option Nat)
  /-- A word that spells no number. -/
  | notANumeral (text : String)
  /-- A text that spells no integer. -/
  | notAnIntegerText (shown : String)
  /-- A character code past the last character. -/
  | codeOutOfRange
  /-- The integer of a number that is no number. -/
  | notANumberToInteger
  /-- A template that ends inside a conversion. -/
  | templateIncomplete
  /-- A template that ends inside the name of an argument. -/
  | nameIncomplete
  /-- A width that is spelled out, and is past every index. -/
  | widthTooBig
  /-- A precision that is spelled out, and is past every machine integer. -/
  | precisionTooBig
  /-- A conversion that templates do not have. -/
  | templateUnknown (conversion : Char) (position : Nat)
  /-- A value fault raised on purpose, with a text of its own. -/
  | raisedValue (text : String)
  /-- An integer divided by zero. -/
  | integerModuloZero
  /-- A floating-point number divided by zero. -/
  | floatDivisionZero
  /-- The remainder of a floating-point division by zero. -/
  | floatModuloZero
  /-- An integer past the greatest floating-point number. -/
  | integerTooLarge
  /-- A quotient past the greatest floating-point number. -/
  | quotientTooLarge
  /-- The integer of an infinite number. -/
  | infinityToInteger
  /-- A character code, or a precision, outside the range of a machine integer. -/
  | codeTooLarge
  /-- A character code that is converted, and is none. -/
  | characterOutOfRange
  /-- A width outside the range of an index. -/
  | widthTooLarge
  /-- A precision that leaves no room for a sign and a base mark. -/
  | precisionTooLarge
  /-- A count, of repetitions or arguments, outside the range of an index. -/
  | countTooLarge
  /-- A repeated text longer than any index. -/
  | textTooLong
  /-- A numeral without a first character. -/
  | emptyNumeral
  /-- Something to be taken off a stack that is empty. -/
  | nothingToPop
  /-- An address before the first code cell. -/
  | addressOutOfRange
  /-- An address outside the range of an index. -/
  | addressTooLarge
  /-- A cell that names no slot. -/
  | missingSlot
  /-- A code cell without the part that is asked for. -/
  | cellTooShort
  /-- A definition begun while compiling with no definition open. -/
  | noOpenDefinition
  /-- A code cell that names something other than a word. -/
  | notAWord (operand field : String)
  /-- A file that is not there. -/
  | missingFile (path : String)
  /-- A path that goes on behind a file. -/
  | notAFolder (path : String)
  /-- A folder where a file should be. -/
  | notAFile (path : String)
  /-- A path, or a name in it, that no file can have because of its length. -/
  | pathTooLong (path : String)
  /-- A path that holds a null character. -/
  | nullInPath
  /-- The end of the input. -/
  | endOfInput (text : String)
  /-- An interrupt from the keyboard. -/
  | interrupted (text : String)
  /-- Natives nested, or called, more often than the machine follows them. -/
  | exhausted
  /-- A sequence too large to be built. -/
  | outOfMemory
  /-- A text that a console cannot show. -/
  | unencodable (text : String)
  /-- A character code that no text can hold, being half of a pair. -/
  | surrogate (code : Nat)
  /-- A failure of the host, when it is asked about something that it brings along. -/
  | foreign (text : String)
  deriving DecidableEq, Repr

namespace Fault

/-- The family of a fault. -/
def kind : Fault → Kind
  | underflow .. => .stackUnderflow
  | returnUnderflow .. => .returnStackUnderflow
  | returnOverflow .. => .returnStackOverflow
  | undefinedWord .. => .undefinedWord
  | invalidWordName .. => .invalidWordName
  | arityUnknown .. | keywordRequired .. | arityImpossible .. | arityRefused .. =>
    .arityMismatch
  | notAnInteger .. | negativeCount .. | notAComposite .. | notACell .. => .invalidArgument
  | outsideDefinition .. | nestedDefinition .. | nothingToMark | nothingCreated
  | nameMissing => .definition
  | ranOff .. | corruptCell .. | raised .. => .machine
  | unsupportedOperands .. | notJoinable .. | notRepeatable .. | noNegative ..
  | notOrdered .. | notIterable .. | noInteger .. | notAKey .. | notCallable ..
  | tooFewArguments
  | tooManyArguments | notReal .. | notWhole .. | notFloat .. | notACharacter
  | widthNotAnInteger | notAMapping | argumentMissing .. | argumentExcess
  | notAnAddress .. => .wrongType
  | tooManyDigits .. | notANumeral .. | notAnIntegerText .. | codeOutOfRange
  | notANumberToInteger | templateIncomplete | nameIncomplete | widthTooBig
  | precisionTooBig | templateUnknown .. | raisedValue .. | nullInPath => .wrongValue
  | integerModuloZero | floatDivisionZero | floatModuloZero => .zeroDivision
  | integerTooLarge | quotientTooLarge | infinityToInteger | codeTooLarge
  | characterOutOfRange | widthTooLarge | precisionTooLarge | countTooLarge
  | textTooLong => .overflow
  | emptyNumeral | nothingToPop | addressOutOfRange | addressTooLarge
  | missingSlot | cellTooShort => .index
  | noOpenDefinition | notAWord .. => .missingField
  | missingFile .. => .missingFile
  | notAFolder .. => .notAFolder
  | notAFile .. => .notAFile
  | pathTooLong .. => .system
  | endOfInput .. => .endOfInput
  | interrupted .. => .interrupt
  | exhausted => .exhausted
  | outOfMemory => .memory
  | unencodable .. | surrogate .. => .encoding
  | foreign .. => .foreign

/-- Whether a fault is an interrupt, on whose account nothing is undone. -/
def isInterrupt (f : Fault) : Bool := f.kind == .interrupt

/-- A word between single quotes, as faults name it. -/
def named (name : String) : String := "'" ++ name ++ "'"

/-- The wording of the limit on decimal digits. -/
def digitsMessage : Option Nat → String
  | .none =>
    "Exceeds the limit (4300 digits) for integer string conversion; " ++
      "use sys.set_int_max_str_digits() to increase the limit"
  | some count =>
    s!"Exceeds the limit (4300 digits) for integer string conversion: value has {count} digits; "
      ++ "use sys.set_int_max_str_digits() to increase the limit"

/-- The wording of a fault. -/
def message : Fault → String
  | underflow needed available word =>
    let place := match word with
      | some name => " in " ++ named name
      | none => ""
    s!"stack underflow{place}: need {needed}, have {available}"
  | returnUnderflow depth base => s!"exit at depth {depth} below frame base {base}"
  | returnOverflow capacity => s!"return stack overflow (capacity {capacity})"
  | undefinedWord name => "undefined word " ++ named name
  | invalidWordName shown => shown ++ " is not a valid word name"
  | arityUnknown shown => "cannot determine the arity of " ++ shown ++ "; pass arity="
  | keywordRequired shown parameter =>
    shown ++ " has a required keyword-only parameter " ++ named parameter
  | arityImpossible name shown => named name ++ ": impossible arity " ++ shown
  | arityRefused name shown arity =>
    named name ++ ": " ++ shown ++ s!" cannot take {arity} arguments"
  | notAnInteger word shown => word ++ ": expected an integer, got " ++ shown
  | negativeCount word shown => word ++ ": negative value " ++ shown
  | notAComposite shown => "spread: expected a list or tuple, got " ++ shown
  | notACell word shown => word ++ ": " ++ shown ++ " is not a data cell"
  | outsideDefinition word => named word ++ " is only valid inside a definition"
  | nestedDefinition name openName =>
    "cannot define " ++ named name ++ " inside the definition of " ++ named openName
  | nothingToMark => "'immediate' with no word defined"
  | nothingCreated => "'does' ran with no created word to attach to"
  | nameMissing => "':' needs a name"
  | ranOff shown => "ran off the end of code space at " ++ shown
  | corruptCell address shown => s!"corrupt cell at {address}: " ++ shown
  | raised text => text
  | unsupportedOperands operator left right =>
    s!"unsupported operand type(s) for {operator}: " ++ named left ++ " and " ++ named right
  | notJoinable left right =>
    s!"can only concatenate {left} (not \"{right}\") to {left}"
  | notRepeatable times => "can't multiply sequence by non-int of type " ++ named times
  | noNegative operand => "bad operand type for unary -: " ++ named operand
  | notOrdered operator left right =>
    named operator ++ " not supported between instances of " ++ named left ++ " and "
      ++ named right
  | notIterable operand => named operand ++ " object is not iterable"
  | noInteger operand =>
    "int() argument must be a string, a bytes-like object or a real number, not "
      ++ named operand
  | notAKey operand => "unhashable type: " ++ named operand
  | notCallable name shown => "native " ++ named name ++ " needs a callable, got " ++ shown
  | tooFewArguments => "not enough arguments for format string"
  | tooManyArguments => "not all arguments converted during string formatting"
  | notReal conversion operand =>
    "%" ++ String.singleton conversion ++ " format: a real number is required, not " ++ operand
  | notWhole conversion operand =>
    "%" ++ String.singleton conversion ++ " format: an integer is required, not " ++ operand
  | notFloat operand => "must be real number, not " ++ operand
  | notACharacter => "%c requires int or char"
  | widthNotAnInteger => "* wants int"
  | notAMapping => "format requires a mapping"
  | argumentMissing parameter => "missing a required argument: " ++ named parameter
  | argumentExcess => "too many positional arguments"
  | notAnAddress operand => "list indices must be integers or slices, not " ++ operand
  | tooManyDigits count => digitsMessage count
  | notANumeral text => text
  | notAnIntegerText shown => "invalid literal for int() with base 10: " ++ shown
  | codeOutOfRange => "chr() arg not in range(0x110000)"
  | notANumberToInteger => "cannot convert float NaN to integer"
  | templateIncomplete => "incomplete format"
  | nameIncomplete => "incomplete format key"
  | widthTooBig => "width too big"
  | precisionTooBig => "precision too big"
  | templateUnknown conversion position =>
    let digits := String.ofList (Nat.toDigits 16 conversion.toNat)
    let shown := if 31 ≤ conversion.toNat ∧ conversion.toNat < 0x7F then conversion else '?'
    "unsupported format character " ++ named (String.singleton shown)
      ++ s!" (0x{digits}) at index {position}"
  | raisedValue text => text
  | integerModuloZero => "integer modulo by zero"
  | floatDivisionZero => "float division by zero"
  | floatModuloZero => "float modulo"
  | integerTooLarge => "int too large to convert to float"
  | quotientTooLarge => "integer division result too large for a float"
  | infinityToInteger => "cannot convert float infinity to integer"
  | codeTooLarge => "Python int too large to convert to C int"
  | characterOutOfRange => "%c arg not in range(0x110000)"
  | widthTooLarge => "Python int too large to convert to C ssize_t"
  | precisionTooLarge => "precision too large"
  | countTooLarge => "cannot fit 'int' into an index-sized integer"
  | textTooLong => "repeated string is too long"
  | emptyNumeral => "string index out of range"
  | nothingToPop => "pop from empty list"
  | addressOutOfRange => "list index out of range"
  | addressTooLarge => "cannot fit 'int' into an index-sized integer"
  | missingSlot => "list index out of range"
  | cellTooShort => "tuple index out of range"
  | noOpenDefinition => "'NoneType' object has no attribute 'name'"
  | notAWord operand field => named operand ++ " object has no attribute " ++ named field
  | missingFile path => "[Errno 2] No such file or directory: " ++ path
  | notAFolder path => "[Errno 20] Not a directory: " ++ path
  | notAFile path => "[Errno 21] Is a directory: " ++ path
  | pathTooLong path => "[Errno 36] File name too long: " ++ path
  | nullInPath => "embedded null byte"
  | endOfInput text => text
  | interrupted text => text
  | exhausted => "maximum recursion depth exceeded"
  | outOfMemory => ""
  | unencodable text => text
  | surrogate code =>
    let digits := String.ofList (Nat.toDigits 16 code)
    "'utf-8' codec can't encode character " ++ named ("\\u" ++ digits)
      ++ " in position 0: surrogates not allowed"
  | foreign text => text

/-- A fault that quotes an integer, unless the integer has too many digits to be written.
The bound on the digits is far too large to be unfolded on the way. -/
@[irreducible] def orUnwritable (quoted : Int) (f : Fault) : Fault :=
  if (Number.decimal? quoted).isSome then f else .tooManyDigits Option.none

/-- The fault of a data stack that is too short, or what is raised in its place. -/
def short (needed available : Nat) (word : Option String) : Fault :=
  orUnwritable needed (.underflow needed available word)

/-- The fault of a return stack that is full, or what is raised in its place. -/
def full (capacity : Int) : Fault := orUnwritable capacity (.returnOverflow capacity)

/-- A fault that quotes an integer is the one that was meant, or says that the integer has
too many digits. -/
theorem orUnwritable_cases (n : Int) (f : Fault) :
    n.natAbs < Number.decimalBound ∧ orUnwritable n f = f ∨
      Number.decimalBound ≤ n.natAbs ∧ orUnwritable n f = .tooManyDigits .none := by
  unfold orUnwritable
  by_cases short : n.natAbs < Number.decimalBound
  · exact .inl ⟨short, if_pos (Number.isSome_decimal?.mpr short)⟩
  · exact .inr ⟨Nat.le_of_not_lt short, if_neg (short ∘ Number.isSome_decimal?.mp)⟩

theorem short_cases (needed available : Nat) (word : Option String) :
    needed < Number.decimalBound ∧ short needed available word = .underflow needed available word ∨
      Number.decimalBound ≤ needed ∧ short needed available word = .tooManyDigits .none :=
  orUnwritable_cases needed (.underflow needed available word)

/-- Where the number of values needed can be written, the fault of a data stack that is too
short names it. -/
theorem short_of_lt {needed : Nat} (writable : needed < Number.decimalBound) (available : Nat)
    (word : Option String) : short needed available word = .underflow needed available word := by
  rcases short_cases needed available word with ⟨-, same⟩ | ⟨long, -⟩
  · exact same
  · exact absurd writable (Nat.not_lt.mpr long)

theorem full_cases (capacity : Int) :
    capacity.natAbs < Number.decimalBound ∧ full capacity = .returnOverflow capacity ∨
      Number.decimalBound ≤ capacity.natAbs ∧ full capacity = .tooManyDigits .none :=
  orUnwritable_cases capacity (.returnOverflow capacity)

/-- Where the capacity can be written, the fault of a full return stack names it. -/
theorem full_of_lt {capacity : Int} (writable : capacity.natAbs < Number.decimalBound) :
    full capacity = .returnOverflow capacity := by
  rcases full_cases capacity with ⟨-, same⟩ | ⟨long, -⟩
  · exact same
  · exact absurd writable (Nat.not_lt.mpr long)

/-- A fault that is raised in the place of another one is no interrupt. -/
theorem isInterrupt_orUnwritable (n : Int) {f : Fault} (real : f.isInterrupt = false) :
    (orUnwritable n f).isInterrupt = false := by
  rcases orUnwritable_cases n f with ⟨-, same⟩ | ⟨-, same⟩
  · rw [same]
    exact real
  · rw [same]
    rfl

theorem isInterrupt_short (needed available : Nat) (word : Option String) :
    (short needed available word).isInterrupt = false :=
  isInterrupt_orUnwritable needed rfl

end Fault
end ThreadedForth
