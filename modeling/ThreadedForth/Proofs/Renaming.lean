import Mathlib.Data.List.Basic
import ThreadedForth.Proofs.Atomic

/-!
# Renaming marks and cells

A mark says nothing but which list is which, and the number of a cell nothing but which slot
is which.  So when marks and cells are renamed, and different ones stay different, a word
that computes should not notice: its result is the result of before with the same renaming,
and what it writes is the same text.  That is what this module says, operator by operator.

* `Value.same_rename`, `Value.ordered_rename`: comparisons have the same answer;
* `Value.literal_rename`, `Value.plain_rename`, `Value.brief_rename`: texts are the same, if
  the slots hold the renamed values under the renamed numbers (`Renaming.Carries`);
* `Value.add_rename` and the like: a result that is made takes the renamed mark.

Two machines that have taken different numbers of marks, or that have different numbers of
slots, are compared through a renaming.
-/

namespace ThreadedForth

/-- New names for marks and for cells.  Different ones stay different. -/
structure Renaming where
  mark : Nat → Nat
  cell : Nat → Nat
  mark_injective : Function.Injective mark
  cell_injective : Function.Injective cell

namespace Value

variable (r : Renaming)

mutual

/-- A value with its marks and cells renamed. -/
def rename : Value → Value
  | nan mark => nan (r.mark mark)
  | list mark items => list (r.mark mark) (renameAll items)
  | tuple mark items => tuple (r.mark mark) (renameAll items)
  | cell slot => cell (r.cell slot)
  | v => v

/-- Values with their marks and cells renamed. -/
def renameAll : List Value → List Value
  | [] => []
  | v :: rest => rename v :: renameAll rest

end

theorem renameAll_eq_map (values : List Value) : renameAll r values = values.map (rename r) := by
  induction values with
  | nil => rfl
  | cons v rest ih => rw [renameAll, ih, List.map_cons]

@[simp] theorem rename_none : rename r none = none := rfl

@[simp] theorem rename_bool (b : Bool) : rename r (bool b) = bool b := rfl

@[simp] theorem rename_int (n : Int) : rename r (int n) = int n := rfl

@[simp] theorem rename_float (x : Float) : rename r (float x) = float x := rfl

@[simp] theorem rename_nan (mark : Nat) : rename r (nan mark) = nan (r.mark mark) := rfl

@[simp] theorem rename_text (s : String) : rename r (text s) = text s := rfl

@[simp] theorem rename_list (mark : Nat) (items : List Value) :
    rename r (list mark items) = list (r.mark mark) (items.map (rename r)) :=
  congrArg (list (r.mark mark)) (renameAll_eq_map r items)

@[simp] theorem rename_tuple (mark : Nat) (items : List Value) :
    rename r (tuple mark items) = tuple (r.mark mark) (items.map (rename r)) :=
  congrArg (tuple (r.mark mark)) (renameAll_eq_map r items)

@[simp] theorem rename_cell (slot : Nat) : rename r (cell slot) = cell (r.cell slot) := rfl

variable {r}

@[simp] theorem rename_eq_none_iff {v : Value} : rename r v = none ↔ v = none := by
  cases v <;> simp

/-! ## What does not depend on the names -/

@[simp] theorem kindName_rename (v : Value) : (rename r v).kindName = v.kindName := by
  cases v <;> simp [kindName]

@[simp] theorem integer?_rename (v : Value) : (rename r v).integer? = v.integer? := by
  cases v <;> simp [integer?]

@[simp] theorem scalar?_rename (v : Value) : (rename r v).scalar? = v.scalar? := by
  cases v <;> simp [scalar?]

@[simp] theorem isSequence_rename (v : Value) : (rename r v).isSequence = v.isSequence := by
  cases v <;> simp [isSequence]

@[simp] theorem toInteger_rename (v : Value) : (rename r v).toInteger = v.toInteger := by
  cases v <;> simp [toInteger, kindName]

theorem characterCode_rename (v : Value) : (rename r v).characterCode = v.characterCode := by
  unfold characterCode
  rw [toInteger_rename]

/-! ## Comparisons -/

@[simp] theorem sharesMark_rename (a b : Value) :
    sharesMark (rename r a) (rename r b) = sharesMark a b := by
  cases a <;> cases b <;> simp [sharesMark, Bool.beq_eq_decide_eq, r.mark_injective.eq_iff]

mutual

@[simp] theorem same_rename : ∀ a b : Value, same (rename r a) (rename r b) = same a b
  | list m as, b => by
    cases b <;> simp [same, sameNumber, scalar?, sameAll_rename as]
  | tuple m as, b => by
    cases b <;> simp [same, sameNumber, scalar?, sameAll_rename as]
  | none, b | bool _, b | int _, b | float _, b | nan _, b | text _, b => by
    cases b <;> simp [same, sameNumber, scalar?]
  | cell slot, b => by
    cases b <;>
      simp [same, sameNumber, scalar?, Bool.beq_eq_decide_eq, r.cell_injective.eq_iff]

theorem sameAll_rename : ∀ as bs : List Value,
    sameAll (as.map (rename r)) (bs.map (rename r)) = sameAll as bs
  | [], bs => by cases bs <;> simp [sameAll]
  | a :: as, bs => by
    cases bs with
    | nil => simp [sameAll]
    | cons b bs => simp [sameAll, same_rename a b, sameAll_rename as bs]

end

@[simp] theorem agrees_rename (a b : Value) : agrees (rename r a) (rename r b) = agrees a b := by
  simp [agrees]

@[simp] theorem orderedScalars_rename (c : Comparison) (a b : Value) :
    orderedScalars c (rename r a) (rename r b) = orderedScalars c a b := by
  simp [orderedScalars]

mutual

theorem ordered_rename (c : Comparison) : ∀ a b : Value,
    ordered c (rename r a) (rename r b) = ordered c a b
  | list m as, b => by
    cases b <;> simp [ordered, orderedScalars, scalar?, kindName, orderedAll_rename c as]
  | tuple m as, b => by
    cases b <;> simp [ordered, orderedScalars, scalar?, kindName, orderedAll_rename c as]
  | none, b | bool _, b | int _, b | float _, b | nan _, b | text _, b | cell _, b => by
    cases b <;> simp [ordered, orderedScalars, scalar?, kindName]

theorem orderedAll_rename (c : Comparison) : ∀ as bs : List Value,
    orderedAll c (as.map (rename r)) (bs.map (rename r)) = orderedAll c as bs
  | [], bs => by cases bs <;> simp [orderedAll]
  | a :: as, bs => by
    cases bs with
    | nil => simp [orderedAll]
    | cons b bs => simp [orderedAll, ordered_rename c a b, orderedAll_rename c as bs]

end

end Value

/-! ## Texts -/

/-- The second slots hold under the renamed numbers what the first ones hold, renamed, and
nothing where the first ones hold nothing. -/
def Renaming.Carries (r : Renaming) (slots slots' : Array Value) : Prop :=
  ∀ k, slots'[r.cell k]? = slots[k]?.map (Value.rename r)

theorem Renaming.Carries.getD {r : Renaming} {slots slots' : Array Value}
    (carries : r.Carries slots slots') (k : Nat) :
    slots'.getD (r.cell k) .none = (slots.getD k .none).rename r := by
  rw [Array.getD_eq_getD_getElem?, Array.getD_eq_getD_getElem?, carries k]
  cases slots[k]? with
  | none => simp
  | some v => rfl

namespace Value

variable {r : Renaming} {slots slots' : Array Value} (carries : r.Carries slots slots')

include carries

theorem literalWithin_rename (nesting : Nat) : ∀ (inside : List Nat) (v : Value),
    literalWithin slots' nesting (inside.map r.mark) (v.rename r) =
      literalWithin slots nesting inside v := by
  induction nesting with
  | zero => exact fun inside v => rfl
  | succ nesting ih =>
    intro inside v
    -- the items of a list are shown inside one more mark
    have items : ∀ (mark : Nat) (items : List Value),
        (items.map (rename r)).mapM
            (literalWithin slots' nesting (r.mark mark :: inside.map r.mark))
          = items.mapM (literalWithin slots nesting (mark :: inside)) := by
      intro mark items
      rw [List.mapM_map]
      exact congrArg (items.mapM ·) (funext fun item => ih (mark :: inside) item)
    have met : ∀ mark, r.mark mark ∈ inside.map r.mark ↔ mark ∈ inside := fun mark =>
      List.mem_map_of_injective r.mark_injective
    cases v with
    | list mark own => simp [literalWithin, met, items]
    | tuple mark own => simp [literalWithin, met, items]
    | cell slot => simp [literalWithin, carries.getD, ih]
    | _ => simp [literalWithin]

theorem literal_rename (v : Value) : literal slots' (v.rename r) = literal slots v :=
  literalWithin_rename carries maxNesting [] v

theorem plain_rename (v : Value) : plain slots' (v.rename r) = plain slots v := by
  have same := literal_rename carries v
  cases v with
  | text s => simp [plain]
  | _ => simpa [plain] using same

theorem brief_rename (v : Value) : brief slots' (v.rename r) = brief slots v := by
  have same := plain_rename carries v
  cases v with
  | float x =>
    rw [rename_float] at same ⊢
    simp only [brief, same]
  | _ => simpa [brief] using same

theorem quoting_rename (v : Value) (fault : String → Fault) :
    (v.rename r).quoting slots' fault = v.quoting slots fault := by
  simp [quoting, literal_rename carries]

namespace Template

omit carries in
theorem whole_rename (c : Char) (v : Value) : whole c (v.rename r) = whole c v := by
  cases v <;> simp [whole, kindName]

omit carries in
theorem character_rename (v : Value) : character (v.rename r) = character v := by
  cases v <;> simp [character, integer?]

omit carries in
theorem real_rename (v : Value) : real (v.rename r) = real v := by
  cases v <;> simp [real, integer?, kindName]

omit carries in
theorem convertInBase_rename (l : Layout) (c : Char) (v : Value) :
    convertInBase l c (v.rename r) = convertInBase l c v := by
  simp [convertInBase, integer?_rename, kindName_rename]

/-- What stands for an argument does not tell it from a renamed one. -/
theorem convert_rename (l : Layout) (c : Char) (position : Nat) (v : Value) :
    convert slots' l c position (v.rename r) = convert slots l c position v := by
  simp [convert, convertWhole, plain_rename carries, literal_rename carries, whole_rename,
    character_rename, real_rename, convertInBase_rename]

omit carries in
/-- Work that goes on with a renamed result goes on alike if its second part does. -/
theorem bind_map {α α' β β' : Type} {work : Except Fault α} {g : α → α'} {h : β → β'}
    {next : α → Except Fault β} {next' : α' → Except Fault β'}
    (alike : ∀ a, next' (g a) = (next a).map h) :
    (work.map g >>= next') = (work >>= next).map h := by
  cases work with
  | error f => rfl
  | ok a => exact alike a

omit carries in
theorem nextArgument_rename (arguments : List Value) :
    nextArgument (arguments.map (rename r)) =
      (nextArgument arguments).map fun found => (found.1.rename r, found.2.map (rename r)) := by
  cases arguments <;> rfl

omit carries in
theorem nextInteger_rename (arguments : List Value) :
    nextInteger (arguments.map (rename r)) =
      (nextInteger arguments).map fun found => (found.1, found.2.map (rename r)) := by
  unfold nextInteger
  rw [nextArgument_rename]
  refine bind_map fun found => ?_
  obtain ⟨v, others⟩ := found
  simp only [integer?_rename]
  cases v.integer? with
  | none => rfl
  | some n => rfl

omit carries in
theorem settleWidth_rename (flags : Flags) (width : Amount) (arguments : List Value) :
    settleWidth flags width (arguments.map (rename r)) =
      (settleWidth flags width arguments).map
        fun found => (found.1, found.2.1, found.2.2.map (rename r)) := by
  cases width with
  | absent => rfl
  | spelled n =>
    simp only [settleWidth]
    split <;> rfl
  | argument =>
    simp only [settleWidth]
    rw [nextInteger_rename]
    refine bind_map fun found => ?_
    obtain ⟨n, others⟩ := found
    simp only
    split <;> rfl

omit carries in
theorem settlePrecision_rename (precision : Amount) (arguments : List Value) :
    settlePrecision precision (arguments.map (rename r)) =
      (settlePrecision precision arguments).map
        fun found => (found.1, found.2.map (rename r)) := by
  cases precision with
  | absent => rfl
  | spelled n =>
    simp only [settlePrecision]
    split <;> rfl
  | argument =>
    simp only [settlePrecision]
    rw [nextInteger_rename]
    refine bind_map fun found => ?_
    obtain ⟨n, others⟩ := found
    simp only
    split <;> rfl

/-- A conversion leaves the renamed arguments. -/
theorem fillOne_rename (size : Nat) (spelling : Spelling) (arguments : List Value) :
    fillOne slots' size spelling (arguments.map (rename r)) =
      (fillOne slots size spelling arguments).map
        fun filled => (filled.1, filled.2.map (rename r)) := by
  unfold fillOne
  rw [settleWidth_rename]
  refine bind_map fun found => ?_
  obtain ⟨flags, width, left⟩ := found
  simp only
  rw [settlePrecision_rename]
  refine bind_map fun found => ?_
  obtain ⟨precision, left⟩ := found
  simp only
  cases spelling.ending with
  | nil => rfl
  | cons letter after =>
    simp only
    rw [nextArgument_rename]
    refine bind_map fun found => ?_
    obtain ⟨v, others⟩ := found
    simp only [convert_rename carries]
    cases convert slots ⟨flags, width, precision⟩ letter (size - after.length - 1) v with
    | error f => rfl
    | ok piece => rfl

/-- Filling a template leaves the renamed arguments. -/
theorem fillFrom_rename (size : Nat) (named : Bool) (filled : String) (template : List Char)
    (arguments : List Value) :
    fillFrom slots' size named filled template (arguments.map (rename r)) =
      (fillFrom slots size named filled template arguments).map
        fun result => (result.1, result.2.map (rename r)) := by
  fun_induction fillFrom slots size named filled template arguments with
  | case1 filled arguments => simp [fillFrom, Except.map]
  | case2 filled arguments => simp [fillFrom, Except.map]
  | case3 filled rest arguments ih => simpa [fillFrom] using ih
  | case4 filled rest arguments => simp [fillFrom, Except.map]
  | case5 filled rest arguments nonempty noSign noName piece others goes ih =>
    rw [fillFrom, fillOne_rename carries, goes]
    · exact ih
    all_goals assumption
  | case6 filled rest arguments nonempty noSign noName f fails =>
    rw [fillFrom, fillOne_rename carries, fails]
    · rfl
    all_goals assumption
  | case7 filled c rest arguments _ _ _ _ ih =>
    rw [fillFrom]
    · exact ih
    all_goals assumption

theorem fill_rename (template : String) (v : Value) :
    fill slots' template (v.rename r) = fill slots template v := by
  have supplied : arguments (v.rename r) = (arguments v).map (rename r) := by
    cases v <;> simp [arguments]
  have named : takesNames (v.rename r) = takesNames v := by
    cases v <;> simp [takesNames]
  unfold fill
  rw [supplied, named, fillFrom_rename carries]
  cases fillFrom slots template.length (takesNames v) "" template.toList (arguments v) with
  | error f => rfl
  | ok result => simp [Except.map, bind, Except.bind]

end Template

end Value

/-! ## Arithmetic -/

namespace Value

variable {r : Renaming}

theorem ofFloat_rename (mark : Nat) (x : Float) :
    ofFloat (r.mark mark) x = (ofFloat mark x).rename r := by
  unfold ofFloat
  split <;> simp

/-- An operator on numbers commutes with renaming if what it makes of numbers does. -/
theorem onNumbers_rename {onInts onInts' : Int → Int → Except Fault Value}
    {onFloats onFloats' : Float → Float → Except Fault Value} (operator : String)
    (ints : ∀ m n, onInts' m n = (onInts m n).map (rename r))
    (floats : ∀ x y, onFloats' x y = (onFloats x y).map (rename r)) (a b : Value) :
    onNumbers operator onInts' onFloats' (a.rename r) (b.rename r) =
      (onNumbers operator onInts onFloats a b).map (rename r) := by
  have lifted : ∀ (n : Int) (next next' : Float → Except Fault Value),
      (∀ x, next' x = (next x).map (rename r)) →
      (integerToFloat n >>= next') = (integerToFloat n >>= next).map (rename r) := by
    intro n next next' same
    cases integerToFloat n with
    | error f => rfl
    | ok x => exact same x
  unfold onNumbers
  simp only [scalar?_rename, kindName_rename]
  cases a.scalar? with
  | none => rfl
  | some x =>
    cases b.scalar? with
    | none => rfl
    | some y =>
      cases x with
      | int m =>
        cases y with
        | int n => exact ints m n
        | float y => exact lifted m _ _ fun x => floats x y
      | float x =>
        cases y with
        | int n => exact lifted n _ _ fun y => floats x y
        | float y => exact floats x y

theorem joinTuples_rename (mark m n : Nat) (as bs : List Value) :
    joinTuples (r.mark mark) (r.mark m) (r.mark n) (as.map (rename r)) (bs.map (rename r)) =
      (joinTuples mark m n as bs).rename r := by
  cases as <;> cases bs <;> simp [joinTuples]

/-- Sums of numbers. -/
theorem addNumbers_rename (mark : Nat) (a b : Value) :
    onNumbers "+" (fun m n => .ok (int (m + n))) (fun x y => .ok (ofFloat (r.mark mark) (x + y)))
        (a.rename r) (b.rename r) =
      (onNumbers "+" (fun m n => .ok (int (m + n)))
        (fun x y => .ok (ofFloat mark (x + y))) a b).map (rename r) := by
  refine onNumbers_rename "+" (fun m n => ?_) (fun x y => ?_) a b
  · simp [Except.map]
  · simp [Except.map, ofFloat_rename]

theorem add_rename (mark : Nat) (a b : Value) :
    add (r.mark mark) (a.rename r) (b.rename r) = (add mark a b).map (rename r) := by
  have numbers := addNumbers_rename (r := r) mark a b
  cases a with
  | text s => cases b <;> simp [add, Except.map, kindName]
  | list m as => cases b <;> simp [add, Except.map, kindName]
  | tuple m as => cases b <;> simp [add, Except.map, kindName, joinTuples_rename]
  | _ => simpa [add] using numbers

theorem sub_rename (mark : Nat) (a b : Value) :
    sub (r.mark mark) (a.rename r) (b.rename r) = (sub mark a b).map (rename r) := by
  refine onNumbers_rename "-" (fun m n => ?_) (fun x y => ?_) a b
  · simp [Except.map]
  · simp [Except.map, ofFloat_rename]

theorem repeatItems_rename (items : List Value) (n : Nat) :
    repeatItems (items.map (rename r)) n = (repeatItems items n).map (rename r) := by
  unfold repeatItems
  induction n with
  | zero => rfl
  | succ n ih => simp [Nat.repeat, ih]

theorem repeatBy_rename (mark : Nat) (n : Int) (v : Value) :
    repeatBy (r.mark mark) n (v.rename r) = (repeatBy mark n v).map (rename r) := by
  cases v with
  | text s =>
    simp only [repeatBy, rename_text]
    cases repetitions 1 s.length n .textTooLong with
    | error f => rfl
    | ok count => simp [bind, Except.bind, pure, Except.pure, Except.map]
  | list m items =>
    simp only [repeatBy, rename_list, List.length_map]
    cases repetitions 8 items.length n .outOfMemory with
    | error f => rfl
    | ok count => simp [bind, Except.bind, pure, Except.pure, Except.map, repeatItems_rename]
  | tuple m items =>
    simp only [repeatBy, rename_tuple, List.length_map]
    cases repetitions 8 items.length n .outOfMemory with
    | error f => rfl
    | ok count =>
      have own : (if n = 1 then r.mark m else r.mark mark) =
          r.mark (if n = 1 then m else mark) := by
        split <;> rfl
      simp [bind, Except.bind, pure, Except.pure, Except.map, repeatItems_rename, own]
  | _ => simp [repeatBy, Except.map, kindName]

theorem repeatByValue_rename (mark : Nat) (sequence times : Value) :
    repeatByValue (r.mark mark) (sequence.rename r) (times.rename r) =
      (repeatByValue mark sequence times).map (rename r) := by
  simp only [repeatByValue, integer?_rename, kindName_rename]
  cases times.integer? with
  | none => rfl
  | some n => exact repeatBy_rename mark n sequence

theorem mul_rename (mark : Nat) (a b : Value) :
    mul (r.mark mark) (a.rename r) (b.rename r) = (mul mark a b).map (rename r) := by
  unfold mul
  simp only [isSequence_rename]
  split
  · exact repeatByValue_rename mark a b
  · split
    · exact repeatByValue_rename mark b a
    · refine onNumbers_rename "*" (fun m n => ?_) (fun x y => ?_) a b
      · simp [Except.map]
      · simp [Except.map, ofFloat_rename]

theorem div_rename (mark : Nat) (a b : Value) :
    div (r.mark mark) (a.rename r) (b.rename r) = (div mark a b).map (rename r) := by
  refine onNumbers_rename "/" (fun m n => ?_) (fun x y => ?_) a b
  · unfold divInts
    repeat' split
    all_goals simp [Except.map]
  · unfold divFloats
    split <;> simp [Except.map, ofFloat_rename]

theorem mod_rename {slots slots' : Array Value} (carries : r.Carries slots slots') (mark : Nat)
    (a b : Value) :
    mod slots' (r.mark mark) (a.rename r) (b.rename r) = (mod slots mark a b).map (rename r) := by
  have numbers : onNumbers "%" modInts (modFloats (r.mark mark)) (a.rename r) (b.rename r) =
      (onNumbers "%" modInts (modFloats mark) a b).map (rename r) := by
    refine onNumbers_rename "%" (fun m n => ?_) (fun x y => ?_) a b
    · unfold modInts
      split <;> simp [Except.map]
    · unfold modFloats
      split <;> simp [Except.map, ofFloat_rename]
  cases a with
  | text template =>
    simp only [mod, rename_text, Template.fill_rename carries]
    cases Template.fill slots template b with
    | error f => rfl
    | ok filled => simp [bind, Except.bind, pure, Except.pure, Except.map]
  | _ => simpa [mod] using numbers

theorem negate_rename (mark : Nat) (a : Value) :
    negate (r.mark mark) (a.rename r) = (negate mark a).map (rename r) := by
  simp only [negate, scalar?_rename, kindName_rename]
  cases a.scalar? with
  | none => rfl
  | some x =>
    cases x with
    | int n => simp [Except.map]
    | float x => simp [Except.map, ofFloat_rename]

end Value
end ThreadedForth
