import ThreadedForth.Proofs.Atomic
import ThreadedForth.Session.Operation

/-!
# Which faults a run of code can blame on the code

A run is *derailed* when it finds no cell where it has to go on, a cell that spells
no instruction, or an exit without a call.  The faults that say so are told apart by
`Fault.derails`.  They concern the code and the return stack, and nothing else ever
raises them: not the words that compute, not the words that rearrange the data stack,
not the directives, and nothing that reads a name, a count or a source text.

That is what this module says, function by function: the work of each of them is
*steady*, which means that a fault of it never derails.  The statements that the rest
builds on are `Primitive.steady_apply` for primitives, `Token.steady_tokenize` for the
reader, and `Session.Operation.steady_copy` for the values that come from outside.  The
directives come later (`Contract.Kept.steady_directive`), because they look at the code.
-/

namespace ThreadedForth

/-- Whether a fault says that a run has left the code it was meant for: there is no
cell at its address, the cell is no instruction, or an exit has no call to go back
to. -/
def Fault.derails : Fault → Bool
  | returnUnderflow .. | ranOff .. | corruptCell .. | addressOutOfRange | addressTooLarge
  | cellTooShort => true
  | _ => false

/-- Work whose faults, if it has any, do not derail. -/
def Steady {α : Type} (work : Except Fault α) : Prop :=
  ∀ f, work = .error f → f.derails = false

namespace Steady

variable {α β : Type}

theorem ok (a : α) : Steady (.ok a : Except Fault α) := by
  intro f h
  cases h

theorem error {f : Fault} (calm : f.derails = false) : Steady (.error f : Except Fault α) := by
  intro g h
  cases h
  exact calm

theorem bind {work : Except Fault α} {next : α → Except Fault β} (first : Steady work)
    (second : ∀ a, work = .ok a → Steady (next a)) : Steady (work >>= next) := by
  cases ends : work with
  | error f => exact error (first f ends)
  | ok a => exact second a ends

theorem map {work : Except Fault α} (g : α → β) (first : Steady work) :
    Steady (work.map g) := by
  cases ends : work with
  | error f => exact error (first f ends)
  | ok a => exact ok (g a)

theorem mapM {g : α → Except Fault β} :
    ∀ {items : List α}, (∀ a ∈ items, Steady (g a)) → Steady (items.mapM g)
  | [], _ => by
    rw [List.mapM_nil]
    exact ok []
  | a :: items, each => by
    rw [List.mapM_cons]
    refine bind (each a List.mem_cons_self) fun b _ => ?_
    refine bind (mapM fun c inside => each c (List.mem_cons_of_mem a inside)) fun bs _ => ?_
    exact ok (b :: bs)

end Steady

/-! ## Texts of values -/

namespace Value

theorem steady_decimalText (n : Int) : Steady (decimalText n) := by
  unfold decimalText
  split
  · exact .ok _
  · exact .error rfl

theorem steady_literalWithin (slots : Array Value) :
    ∀ (nesting : Nat) (inside : List Nat) (v : Value),
      Steady (literalWithin slots nesting inside v)
  | 0, _, _ => .error rfl
  | nesting + 1, inside, v => by
    have deeper := steady_literalWithin slots nesting
    cases v with
    | none => exact .ok _
    | bool b => exact .ok _
    | int n => exact steady_decimalText n
    | float x => exact .ok _
    | nan mark => exact .ok _
    | text s => exact .ok _
    | list mark items =>
      rw [literalWithin]
      split
      · exact .ok _
      · exact .bind (.mapM fun item _ => deeper _ item) fun _ _ => .ok _
    | tuple mark items =>
      rw [literalWithin]
      split
      · exact .ok _
      · exact .bind (.mapM fun item _ => deeper _ item) fun _ _ => .ok _
    | cell slot => exact .bind (deeper inside _) fun _ _ => .ok _

theorem steady_literal (slots : Array Value) (v : Value) : Steady (literal slots v) :=
  steady_literalWithin slots maxNesting [] v

theorem steady_plain (slots : Array Value) (v : Value) : Steady (plain slots v) := by
  unfold plain
  split
  · exact .ok _
  · exact steady_literal slots _

theorem steady_brief (slots : Array Value) (v : Value) : Steady (brief slots v) := by
  unfold brief
  split
  · split
    · split
      · exact steady_decimalText _
      · exact steady_plain slots _
    · exact steady_plain slots _
  · exact steady_plain slots _

/-- A fault that quotes a value is the one that was meant, or the lack of a text. -/
theorem derails_quoting (slots : Array Value) (v : Value) {fault : String → Fault}
    (calm : ∀ shown, (fault shown).derails = false) :
    (v.quoting slots fault).derails = false := by
  unfold quoting
  split
  · next shown _ => exact calm shown
  · next missing lacks => exact steady_literal slots v missing lacks

/-! ## Conversions -/

theorem steady_floatToInteger (x : Float) : Steady (floatToInteger x) := by
  unfold floatToInteger
  split
  · exact .ok _
  · exact .error rfl
  · exact .error rfl

theorem steady_readInteger (text : List Char) : Steady (Number.Numeral.readInteger text) := by
  unfold Number.Numeral.readInteger
  simp only
  split
  · exact .error rfl
  · split
    · exact .error rfl
    · split
      · exact .error rfl
      · exact .ok _

theorem steady_toInteger (v : Value) : Steady v.toInteger := by
  cases v with
  | int n => exact .ok _
  | bool b => exact .ok _
  | float x => exact steady_floatToInteger x
  | text s => exact steady_readInteger s.toList
  | _ => exact .error rfl

namespace Template

theorem steady_whole (c : Char) (v : Value) : Steady (whole c v) := by
  cases v with
  | int n => exact .ok _
  | bool b => exact .ok _
  | float x => exact steady_floatToInteger x
  | _ => exact .error rfl

theorem steady_character (v : Value) : Steady (character v) := by
  unfold character
  split
  · split
    · exact .ok _
    · exact .error rfl
  · split
    · split
      · exact .error rfl
      · split
        · exact .ok _
        · exact .error rfl
    · exact .error rfl

theorem steady_real (v : Value) : Steady (real v) := by
  unfold real
  split
  · exact .ok _
  · exact .ok _
  · split
    · split
      · exact .ok _
      · exact .error rfl
    · exact .error rfl

namespace Layout

theorem steady_frame (l : Layout) (number : Bool) (sign mark body : List Char) :
    Steady (l.frame number sign mark body) := by
  unfold frame
  simp only
  split
  · exact .error rfl
  · exact .ok _

theorem steady_ofText (l : Layout) (text : String) : Steady (l.ofText text) :=
  l.steady_frame _ _ _ _

theorem steady_ofDigits (l : Layout) (negative : Bool) (mark digits : List Char) :
    Steady (l.ofDigits negative mark digits) := by
  unfold ofDigits
  simp only
  split
  · exact .error rfl
  · exact l.steady_frame _ _ _ _

theorem steady_ofFloat (l : Layout) (letter : Char) (capital : Bool) (x : Number.Binary64) :
    Steady (l.ofFloat letter capital x) := by
  cases x with
  | notANumber => exact l.steady_frame _ _ _ _
  | infinite negative => exact l.steady_frame _ _ _ _
  | finite negative m e =>
    simp only [ofFloat]
    split
    · exact .error rfl
    · split
      · exact l.steady_frame _ _ _ _
      · split
        · exact l.steady_frame _ _ _ _
        · exact l.steady_frame _ _ _ _

end Layout

theorem steady_convertWhole (l : Layout) (c : Char) (v : Value) :
    Steady (convertWhole l c v) := by
  refine .bind (steady_whole c v) fun n _ => ?_
  simp only
  split
  · exact .error rfl
  · exact .bind (steady_decimalText n.natAbs) fun digits _ => l.steady_ofDigits _ _ _

theorem steady_convertInBase (l : Layout) (c : Char) (v : Value) :
    Steady (convertInBase l c v) := by
  unfold convertInBase
  split
  · exact .error rfl
  · split
    · exact .error rfl
    · exact l.steady_ofDigits _ _ _

theorem steady_convert (slots : Array Value) (l : Layout) (c : Char) (position : Nat)
    (v : Value) : Steady (convert slots l c position v) := by
  unfold convert
  repeat' split
  · exact .bind (steady_plain slots v) fun s _ => l.steady_ofText s
  · exact .bind (steady_literal slots v) fun s _ => l.steady_ofText s
  · exact .bind (steady_literal slots v) fun s _ => l.steady_ofText _
  · exact .bind (steady_character v) fun ch _ => l.steady_frame _ _ _ _
  · exact steady_convertWhole l c v
  · exact steady_convertInBase l c v
  · exact .bind (steady_real v) fun x _ => l.steady_ofFloat _ _ _
  · exact .error rfl

theorem steady_nextArgument (arguments : List Value) : Steady (nextArgument arguments) := by
  cases arguments with
  | nil => exact .error rfl
  | cons v others => exact .ok _

theorem steady_nextInteger (arguments : List Value) : Steady (nextInteger arguments) := by
  refine .bind (steady_nextArgument arguments) fun found _ => ?_
  simp only
  split
  · exact .ok _
  · exact .error rfl

theorem steady_settleWidth (flags : Flags) (width : Amount) (arguments : List Value) :
    Steady (settleWidth flags width arguments) := by
  cases width with
  | absent => exact .ok _
  | spelled n =>
    simp only [settleWidth]
    split
    · exact .error rfl
    · exact .ok _
  | argument =>
    refine .bind (steady_nextInteger arguments) fun found _ => ?_
    simp only
    split
    · exact .error rfl
    · exact .ok _

theorem steady_settlePrecision (precision : Amount) (arguments : List Value) :
    Steady (settlePrecision precision arguments) := by
  cases precision with
  | absent => exact .ok _
  | spelled n =>
    simp only [settlePrecision]
    split
    · exact .error rfl
    · exact .ok _
  | argument =>
    refine .bind (steady_nextInteger arguments) fun found _ => ?_
    simp only
    split
    · exact .error rfl
    · exact .ok _

theorem steady_fillOne (slots : Array Value) (size : Nat) (spelling : Spelling)
    (arguments : List Value) : Steady (fillOne slots size spelling arguments) := by
  refine .bind (steady_settleWidth spelling.flags spelling.width arguments) fun width _ => ?_
  refine .bind (steady_settlePrecision spelling.precision _) fun precision _ => ?_
  simp only
  split
  · exact .error rfl
  · refine .bind (steady_nextArgument _) fun found _ => ?_
    exact .bind (steady_convert slots _ _ _ _) fun piece _ => .ok _

theorem derails_nameFault (named : Bool) (text : List Char) :
    (nameFault named text).derails = false := by
  unfold nameFault
  repeat' split
  all_goals rfl

theorem steady_fillFrom (slots : Array Value) (size : Nat) (named : Bool) (filled : String)
    (template : List Char) (arguments : List Value) :
    Steady (fillFrom slots size named filled template arguments) := by
  fun_induction fillFrom slots size named filled template arguments with
  | case1 => exact .ok _
  | case2 => exact .error rfl
  | case3 filled rest arguments ih => exact ih
  | case4 filled rest arguments => exact .error (derails_nameFault named rest)
  | case5 filled rest arguments _ _ _ piece others _ ih => exact ih
  | case6 filled rest arguments _ _ _ f fails =>
    exact .error (steady_fillOne slots size (readSpelling rest) arguments f fails)
  | case7 filled c rest arguments _ _ _ _ ih => exact ih

theorem steady_fill (slots : Array Value) (template : String) (v : Value) :
    Steady (fill slots template v) := by
  refine .bind (steady_fillFrom slots _ _ "" _ _) fun result _ => ?_
  simp only
  split
  · exact .ok _
  · exact .error rfl

end Template

/-! ## Operators -/

theorem steady_integerToFloat (n : Int) : Steady (integerToFloat n) := by
  unfold integerToFloat
  split
  · exact .ok _
  · exact .error rfl

/-- An operator on numbers is steady when its two halves are. -/
theorem steady_onNumbers {operator : String} {onInts : Int → Int → Except Fault Value}
    {onFloats : Float → Float → Except Fault Value} (ints : ∀ m n, Steady (onInts m n))
    (floats : ∀ x y, Steady (onFloats x y)) (a b : Value) :
    Steady (onNumbers operator onInts onFloats a b) := by
  unfold onNumbers
  split
  · unfold onScalars
    split
    · exact ints _ _
    · exact .bind (steady_integerToFloat _) fun _ _ => floats _ _
    · exact .bind (steady_integerToFloat _) fun _ _ => floats _ _
    · exact floats _ _
  · exact .error rfl

theorem steady_add (mark : Nat) (a b : Value) : Steady (add mark a b) := by
  unfold add
  split
  · exact .ok _
  · exact .ok _
  · exact .ok _
  · split
    · exact .error rfl
    · exact .error rfl
    · exact .error rfl
    · exact steady_onNumbers (fun _ _ => .ok _) (fun _ _ => .ok _) _ _

theorem steady_sub (mark : Nat) (a b : Value) : Steady (sub mark a b) :=
  steady_onNumbers (fun _ _ => .ok _) (fun _ _ => .ok _) a b

theorem steady_repetitions (width length : Nat) (n : Int) {tooLong : Fault}
    (calm : tooLong.derails = false) : Steady (repetitions width length n tooLong) := by
  unfold repetitions
  split
  · exact .error rfl
  · split
    · exact .error calm
    · split
      · exact .error rfl
      · exact .ok _

theorem steady_repeatBy (mark : Nat) (n : Int) (v : Value) : Steady (repeatBy mark n v) := by
  cases v with
  | text s => exact .bind (steady_repetitions _ _ _ rfl) fun _ _ => .ok _
  | list own items => exact .bind (steady_repetitions _ _ _ rfl) fun _ _ => .ok _
  | tuple own items => exact .bind (steady_repetitions _ _ _ rfl) fun _ _ => .ok _
  | _ => exact .error rfl

theorem steady_repeatByValue (mark : Nat) (sequence times : Value) :
    Steady (repeatByValue mark sequence times) := by
  unfold repeatByValue
  split
  · exact steady_repeatBy mark _ sequence
  · exact .error rfl

theorem steady_mul (mark : Nat) (a b : Value) : Steady (mul mark a b) := by
  unfold mul
  split
  · exact steady_repeatByValue mark a b
  · split
    · exact steady_repeatByValue mark b a
    · exact steady_onNumbers (fun _ _ => .ok _) (fun _ _ => .ok _) a b

theorem steady_div (mark : Nat) (a b : Value) : Steady (div mark a b) := by
  refine steady_onNumbers (fun m n => ?_) (fun x y => ?_) a b
  · unfold divInts
    split
    · exact .error rfl
    · split
      · exact .ok _
      · split
        · exact .ok _
        · exact .error rfl
  · unfold divFloats
    split
    · exact .error rfl
    · exact .ok _

theorem steady_mod (slots : Array Value) (mark : Nat) (a b : Value) :
    Steady (mod slots mark a b) := by
  unfold mod
  split
  · exact .bind (Template.steady_fill slots _ b) fun _ _ => .ok _
  · refine steady_onNumbers (fun m n => ?_) (fun x y => ?_) _ b
    · unfold modInts
      split
      · exact .error rfl
      · exact .ok _
    · unfold modFloats
      split
      · exact .error rfl
      · exact .ok _

theorem steady_negate (mark : Nat) (a : Value) : Steady (negate mark a) := by
  unfold negate
  split
  · exact .ok _
  · exact .ok _
  · exact .error rfl

theorem steady_orderedScalars (c : Comparison) (a b : Value) :
    Steady (orderedScalars c a b) := by
  unfold orderedScalars
  split
  · exact .ok _
  · exact .error rfl

mutual

theorem steady_ordered (c : Comparison) : ∀ a b : Value, Steady (ordered c a b)
  | text s, b => by
    cases b with
    | text t => exact .ok _
    | _ => simpa only [ordered] using steady_orderedScalars c _ _
  | list _ as, b => by
    cases b with
    | list _ bs => simpa only [ordered] using steady_orderedAll c as bs
    | _ => simpa only [ordered] using steady_orderedScalars c _ _
  | tuple _ as, b => by
    cases b with
    | tuple _ bs => simpa only [ordered] using steady_orderedAll c as bs
    | _ => simpa only [ordered] using steady_orderedScalars c _ _
  | none, b => by simpa only [ordered] using steady_orderedScalars c none b
  | bool x, b => by simpa only [ordered] using steady_orderedScalars c (bool x) b
  | int n, b => by simpa only [ordered] using steady_orderedScalars c (int n) b
  | float x, b => by simpa only [ordered] using steady_orderedScalars c (float x) b
  | nan mark, b => by simpa only [ordered] using steady_orderedScalars c (nan mark) b
  | cell slot, b => by simpa only [ordered] using steady_orderedScalars c (cell slot) b

theorem steady_orderedAll (c : Comparison) : ∀ as bs : List Value, Steady (orderedAll c as bs)
  | [], [] => .ok _
  | [], _ :: _ => .ok _
  | _ :: _, [] => .ok _
  | a :: as, b :: bs => by
    rw [orderedAll]
    split
    · exact steady_orderedAll c as bs
    · exact steady_ordered c a b

end

theorem steady_characterCode (v : Value) : Steady v.characterCode := by
  refine .bind (steady_toInteger v) fun code _ => ?_
  split
  · exact .error rfl
  · split
    · exact .error rfl
    · exact .ok _

end Value

/-! ## The data stack and the slots -/

theorem Fault.derails_short (needed available : Nat) (word : Option String) :
    (Fault.short needed available word).derails = false := by
  unfold Fault.short Fault.orUnwritable
  split <;> rfl

theorem Fault.derails_full (capacity : Int) : (Fault.full capacity).derails = false := by
  unfold Fault.full Fault.orUnwritable
  split <;> rfl

theorem Word.steady_readName (slots : Array Value) (v : Value) :
    Steady (Word.readName slots v) := by
  unfold Word.readName
  split
  · split
    · exact .ok _
    · exact .error rfl
  · exact .error (Value.derails_quoting slots _ fun _ => rfl)

theorem Word.steady_checkName (slots : Array Value) (v : Value) :
    Steady (Word.checkName slots v) :=
  (Word.steady_readName slots v).map _

namespace Store

variable (s : Store)

theorem steady_readCount (word : String) (v : Value) : Steady (s.readCount word v) := by
  unfold readCount
  split
  · split
    · exact .error (Value.derails_quoting s.slots _ fun _ => rfl)
    · exact .ok _
  · exact .error (Value.derails_quoting s.slots _ fun _ => rfl)

theorem steady_require (needed : Nat) (word : Option String) :
    Steady (s.require needed word) := by
  unfold require
  split
  · exact .error (Fault.derails_short _ _ _)
  · exact .ok _

theorem steady_pop (count : Value) : Steady (s.pop count) := by
  refine .bind (s.steady_readCount "pop" count) fun n _ => ?_
  refine .bind (s.steady_require n none) fun _ _ => ?_
  split <;> exact .ok _

theorem steady_peek : Steady s.peek :=
  .bind (s.steady_require 1 none) fun _ _ => .ok _

theorem steady_swap : Steady s.swap := by
  unfold swap
  split
  · exact .ok _
  · exact .error rfl

theorem steady_drop : Steady s.drop := by
  unfold drop
  split
  · exact .ok _
  · exact .error rfl

theorem steady_gather (count : Value) : Steady (s.gather count) := by
  refine .bind (s.steady_readCount "gather" count) fun n _ => ?_
  exact .bind (s.steady_require n _) fun _ _ => .ok _

theorem steady_spread : Steady s.spread := by
  unfold spread
  split
  · exact .ok _
  · exact .ok _
  · exact .error (Value.derails_quoting s.slots _ fun _ => rfl)
  · exact .error rfl

theorem steady_pluck (index : Value) : Steady (s.pluck index) := by
  refine .bind (s.steady_readCount "pluck" index) fun i _ => ?_
  exact .bind (s.steady_require (i + 1) _) fun _ _ => .ok _

theorem steady_pick (index : Value) : Steady (s.pick index) := by
  refine .bind (s.steady_readCount "pick" index) fun i _ => ?_
  exact .bind (s.steady_require (i + 1) _) fun _ _ => .ok _

theorem steady_define (here : Nat) (name : Value) : Steady (s.define here name) := by
  refine .bind (Word.steady_readName s.slots name) fun valid _ => ?_
  refine .bind ?_ fun _ _ => .ok _
  unfold checkIdle
  split
  · split <;> exact .error rfl
  · exact .ok _

theorem steady_create (name : Value) : Steady (s.create name) :=
  .bind (Word.steady_checkName s.slots name) fun _ _ => .ok _

theorem steady_load (v : Value) : Steady (s.load v) := by
  unfold load
  split
  · exact .ok _
  · exact .error (Value.derails_quoting s.slots _ fun _ => rfl)

theorem steady_store (v target : Value) : Steady (s.store v target) := by
  unfold store
  split
  · exact .ok _
  · exact .error (Value.derails_quoting s.slots _ fun _ => rfl)

theorem steady_emit (v : Value) : Steady (s.emit v) :=
  .bind v.steady_characterCode fun _ _ => .ok _

theorem steady_compute {value : Nat → Except Fault Value} (each : ∀ mark, Steady (value mark)) :
    Steady (s.compute value) :=
  .bind (each s.nextMark) fun _ _ => .ok _

end Store

/-! ## Primitives and directives -/

/-- The faults of a primitive do not derail. -/
theorem Primitive.steady_apply (here : Nat) (p : Primitive) (arguments : List Value)
    (s : Store) : Steady (p.apply here arguments s) := by
  unfold Primitive.apply
  split
  case h_1 => exact .bind s.steady_swap fun _ _ => .ok _
  case h_2 => exact .bind s.steady_drop fun _ _ => .ok _
  case h_3 => exact .bind (s.steady_gather _) fun _ _ => .ok _
  case h_4 => exact .bind s.steady_spread fun _ _ => .ok _
  case h_5 => exact s.steady_pluck _
  case h_6 => exact .bind (s.steady_pick _) fun _ _ => .ok _
  case h_7 => exact .ok _
  case h_8 => exact .ok _
  case h_9 => exact .bind (s.steady_define here _) fun _ _ => .ok _
  case h_10 => exact .bind (s.steady_load _) fun _ _ => .ok _
  case h_11 => exact .bind (s.steady_store _ _) fun _ _ => .ok _
  case h_12 => exact s.steady_create _
  case h_13 => exact s.steady_compute fun mark => Value.steady_add mark _ _
  case h_14 => exact s.steady_compute fun mark => Value.steady_sub mark _ _
  case h_15 => exact s.steady_compute fun mark => Value.steady_mul mark _ _
  case h_16 => exact s.steady_compute fun mark => Value.steady_div mark _ _
  case h_17 => exact s.steady_compute fun mark => Value.steady_mod s.slots mark _ _
  case h_18 => exact s.steady_compute fun mark => Value.steady_negate mark _
  case h_19 => exact .ok _
  case h_20 => exact .bind (Value.steady_ordered _ _ _) fun _ _ => .ok _
  case h_21 => exact .ok _
  case h_22 => exact .bind (Value.steady_plain s.slots _) fun _ _ => .ok _
  case h_23 => exact .bind (Value.steady_brief s.slots _) fun _ _ => .ok _
  case h_24 => exact .ok _
  case h_25 => exact .bind (s.steady_emit _) fun _ _ => .ok _
  case h_26 => exact .bind (Value.steady_plain s.slots _) fun _ _ => .ok _
  case h_27 => exact .ok _
  case h_28 => exact .error rfl

namespace Machine

theorem steady_requireCompiling (word : String) (m : Machine) :
    Steady (m.requireCompiling word) := by
  unfold requireCompiling
  split
  · exact .ok _
  · exact .error rfl

end Machine

/-! ## Names, source texts and values from outside -/

theorem Store.steady_lookup (name : String) (s : Store) : Steady (s.lookup name) := by
  unfold Store.lookup
  split
  · exact .ok _
  · exact .error rfl

theorem Token.steady_ofLexemes (naming : Bool) (lexemes : List Lexeme) :
    Steady (Token.ofLexemes naming lexemes) := by
  fun_induction Token.ofLexemes naming lexemes with
  | case1 => exact .error rfl
  | case2 => exact .ok _
  | case3 lexeme rest ih => exact .bind ih fun _ _ => .ok _
  | case4 content rest ih => exact .bind ih fun _ _ => .ok _
  | case5 rest ih => exact ih
  | case6 content rest other ih => exact .bind ih fun _ _ => .ok _

/-- The faults of the reader do not derail. -/
theorem Token.steady_tokenize (source : String) : Steady (Token.tokenize source) :=
  steady_ofLexemes false (Lexeme.scan source.toList)

/-! ## Work that takes marks -/

/-- Work that takes marks and is steady from every mark on. -/
def SteadyMarking {α : Type} (work : Value.Marking α) : Prop := ∀ next, Steady (work.run next)

namespace SteadyMarking

variable {α β : Type}

theorem pure (a : α) : SteadyMarking (Pure.pure a : Value.Marking α) := fun _ => .ok _

theorem throw {f : Fault} (calm : f.derails = false) :
    SteadyMarking (MonadExcept.throw f : Value.Marking α) := fun _ => .error calm

theorem bind {work : Value.Marking α} {further : α → Value.Marking β}
    (first : SteadyMarking work) (second : ∀ a, SteadyMarking (further a)) :
    SteadyMarking (work >>= further) := by
  intro next
  rw [StateT.run_bind]
  exact .bind (first next) fun result _ => second result.1 result.2

theorem mapM {g : α → Value.Marking β} (each : ∀ a, SteadyMarking (g a)) :
    ∀ items : List α, SteadyMarking (items.mapM g)
  | [] => by
    rw [List.mapM_nil]
    exact pure []
  | a :: items => by
    rw [List.mapM_cons]
    exact bind (each a) fun b => bind (mapM each items) fun bs => pure (b :: bs)

end SteadyMarking

namespace Value

theorem steady_takeMark : SteadyMarking takeMark := fun _ => .ok _

mutual

theorem steady_copy (slots : Nat) : ∀ v : Value, SteadyMarking (copy slots v)
  | none | bool _ | int _ | float _ | text _ => .pure _
  | nan _ => .bind steady_takeMark fun _ => .pure _
  | list _ items =>
    .bind steady_takeMark fun _ => .bind (steady_copyAll slots items) fun _ => .pure _
  | tuple _ items =>
    .bind steady_takeMark fun _ => .bind (steady_copyAll slots items) fun _ => .pure _
  | cell slot => by
    rw [copy]
    split
    · exact .pure _
    · exact .throw rfl

theorem steady_copyAll (slots : Nat) : ∀ vs : List Value, SteadyMarking (copyAll slots vs)
  | [] => .pure []
  | v :: vs => .bind (steady_copy slots v) fun _ => .bind (steady_copyAll slots vs) fun _ => .pure _

end

end Value

theorem Token.steady_copy (slots : Nat) (token : Token) : SteadyMarking (token.copy slots) := by
  cases token with
  | word name => exact .pure _
  | datum v => exact .bind (Value.steady_copy slots v) fun _ => .pure _
  | batch values => exact .bind (Value.steady_copyAll slots values) fun _ => .pure _
  | malformed content => exact .bind (Value.steady_copy slots content) fun _ => .pure _

namespace Host

theorem Item.steady_copy (slots : Nat) (item : Item) : SteadyMarking (item.copy slots) := by
  cases item with
  | callable f => exact .pure _
  | value v => exact .bind (Value.steady_copy slots v) fun _ => .pure _

theorem Attribute.steady_copy (slots : Nat) (own : Attribute) :
    SteadyMarking (own.copy slots) := by
  cases own with
  | item i => exact .bind (i.steady_copy slots) fun _ => .pure _
  | failing reason => exact .pure _

theorem Options.steady_copy (slots : Nat) (options : Options) :
    SteadyMarking (options.copy slots) := by
  unfold Options.copy
  split
  · exact .pure _
  · exact .bind (Value.steady_copy slots _) fun _ => .pure _

theorem steady_copyPair (slots : Nat) (name : Value) (item : Item) :
    SteadyMarking (copyPair slots name item) := by
  refine .bind (Value.steady_copy slots name) fun ownName => ?_
  refine .bind (item.steady_copy slots) fun ownItem => ?_
  split
  · exact .pure _
  · exact .throw rfl

theorem Answer.steady_evaluate (arguments : List Value) (m : Machine) (answer : Answer) :
    SteadyMarking (answer.evaluate arguments m) := by
  cases answer with
  | arguments => exact .bind Value.steady_takeMark fun _ => .pure _
  | value v => exact Value.steady_copy m.slots.size v
  | _ => exact .pure _

end Host

/-- The faults of copying what an operation brings along do not derail. -/
theorem Session.Operation.steady_copy (slots : Nat) (operation : Session.Operation) :
    SteadyMarking (operation.copy slots) := by
  have value := Value.steady_copy slots
  have values := Value.steady_copyAll slots
  have tokens := SteadyMarking.mapM (Token.steady_copy slots)
  cases operation with
  | run ts => exact .bind (tokens ts) fun _ => .pure _
  | interpret t => exact .bind (t.steady_copy slots) fun _ => .pure _
  | define name ts => exact .bind (value name) fun _ => .bind (tokens ts) fun _ => .pure _
  | feed vs => exact .bind (values vs) fun _ => .pure _
  | push vs => exact .bind (values vs) fun _ => .pure _
  | pop count => exact .bind (value count) fun _ => .pure _
  | gather count => exact .bind (value count) fun _ => .pure _
  | pluck index => exact .bind (value index) fun _ => .pure _
  | pick index => exact .bind (value index) fun _ => .pure _
  | lookup name => exact .bind (value name) fun _ => .pure _
  | executeAddress address => exact .bind (value address) fun _ => .pure _
  | defineNative name item options =>
    refine .bind (value name) fun _ => .bind (item.steady_copy slots) fun _ => ?_
    exact .bind (options.steady_copy slots) fun _ => .pure _
  | defineConstant name v => exact .bind (value name) fun _ => .bind (value v) fun _ => .pure _
  | importMapping pairs =>
    refine .bind (.mapM (fun pair => Host.steady_copyPair slots pair.1 pair.2) pairs) fun _ => ?_
    exact .pure _
  | importObject attributes =>
    refine .bind (.mapM (fun own => ?_) attributes) fun _ => .pure _
    exact .bind (own.2.steady_copy slots) fun _ => .pure _
  | appendCell items => exact .bind (values items) fun _ => .pure _
  | _ => exact .pure _

/-! ## Registering host callables -/

namespace Host.Signature

theorem steady_checkUnfilled (parameters : List Parameter) :
    Steady (checkUnfilled parameters) := by
  unfold checkUnfilled
  split
  · exact .error rfl
  · exact .ok _

theorem steady_fill (count : Nat) (parameters : List Parameter) :
    Steady (fill count parameters) := by
  fun_induction fill count parameters with
  | case1 parameters => exact steady_checkUnfilled parameters
  | case2 => exact .error rfl
  | case3 => exact .error rfl
  | case4 => exact .error rfl
  | case5 _ _ parameters => exact steady_checkUnfilled parameters
  | case6 _ _ _ _ ih => exact ih
  | case7 _ _ _ _ ih => exact ih

theorem steady_bind (count : Nat) (signature : Signature) : Steady (signature.bind count) := by
  cases signature with
  | known parameters => exact steady_fill count parameters
  | hidden | failing _ => exact .ok _

theorem derails_quoting (label : Label) {f : String → Fault}
    (calm : ∀ text, (f text).derails = false) : (label.quoting f).derails = false := by
  cases label with
  | text shown => exact calm shown
  | failing reason => rfl

theorem steady_countRequired (label : Label) (parameters : List Parameter) :
    Steady (countRequired label parameters) := by
  fun_induction countRequired label parameters with
  | case1 => exact .ok _
  | case2 => exact .ok _
  | case3 _ _ _ _ ih => exact .map _ ih
  | case4 => exact .error (derails_quoting label fun _ => rfl)
  | case5 _ _ _ _ ih => exact ih

theorem steady_derivedArity (label : Label) (signature : Signature) :
    Steady (signature.derivedArity label) := by
  cases signature with
  | known parameters => exact steady_countRequired label parameters
  | hidden => exact .error (derails_quoting label fun _ => rfl)
  | failing reason => exact .error rfl

end Host.Signature

namespace Machine

theorem steady_takes (count : Nat) (signature : Host.Signature) :
    Steady (takes count signature) := by
  unfold takes
  split
  · split
    · exact .error rfl
    · exact .ok _
  · exact .ok _
  · exact .error rfl

theorem steady_callableArity (name : String) (f : Host.Callable) (arity : Option Value)
    (m : Machine) : Steady (m.callableArity name f arity) := by
  unfold callableArity
  split
  · exact Host.Signature.steady_derivedArity _ _
  · next v =>
    have impossible : (v.quoting m.slots (.arityImpossible name)).derails = false :=
      Value.derails_quoting m.slots v fun _ => rfl
    simp only
    split
    · split
      · exact .error impossible
      · split
        · next fault failed => exact .error (steady_takes _ f.signature fault failed)
        · exact .ok _
        · exact .error (Host.Signature.derails_quoting f.label fun _ => rfl)
    · exact .error impossible

theorem steady_registerCallable (name : String) (f : Host.Callable) (options : Host.Options)
    (m : Machine) : Steady (m.registerCallable name f options) :=
  .bind (m.steady_callableArity name f options.arity) fun _ _ => .ok _

end Machine
end ThreadedForth
