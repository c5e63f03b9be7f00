import ThreadedForth.Proofs.Twin
import ThreadedForth.Session.Extension
import Mathlib.Data.List.Basic

/-!
# The arity of registered callables

A callable is called with a fixed number of positional arguments, its arity.  Which numbers fit
is a matter of binding: every parameter that is required must be reached, and every argument
must find a parameter.  `Signature.accepts_iff` says it in three counts, for parameters in the
order in which parameters are written.

An arity that is given is tried out by binding.  An arity that is derived is counted, and the
count stops at the first default.  The two readings agree on the count, but the count has not
looked at the parameters behind its last one: a parameter that must be filled by name may stand
there, behind one with a default, and then no number of arguments fits.  `Signature.Overlooks`
names these parameter lists.

* `Signature.accepts_iff`: which numbers of arguments fit;
* `Callable.Tells.derivedArity_accepts_iff`: a derived arity fits exactly where nothing is
  overlooked;
* `Callable.Tells.derivedArity_eq_error_iff`: nothing is derived exactly where no number fits
  and nothing is overlooked;
* `Signature.derivedArity_eq_error`: why no arity is derived, which is a mismatch unless the host
  fails to say something about the callable;
* `Machine.importItems_eq`, `Machine.importItems_stopped`: what an import registers, and where it
  ends if it comes to a callable of which the host fails to say something;
* `Machine.registered_accepts_iff`: the arity of whatever is registered, by either way, fits
  unless it is derived from such a list, and what cannot be called is not registered otherwise;
* `Machine.registered_overlooked`: a callable that is registered and cannot be called;
* `Machine.derivedArity_least`: where no parameter must be filled by name, the derived arity is
  the least number that fits, and an arity that is given is taken if it fits and is an index;
* `Machine.derivedArity_unindexed`: an arity that fits and is no index.
-/

namespace ThreadedForth
namespace Host

namespace Parameter

/-- The place of the kinds in the order in which parameters are written. -/
def Kind.rank : Kind → Nat
  | positionalOnly => 0
  | positional => 1
  | rest => 2
  | keyword => 3
  | keywords => 4

/-- Whether a parameter may stand before another one: the kinds are in order, and after a
positional parameter with a default all positional parameters have one. -/
def Precedes (p q : Parameter) : Prop :=
  p.kind.rank ≤ q.kind.rank ∧
    (p.isPositional = true → p.hasDefault = true → q.isPositional = true →
      q.hasDefault = true)

instance (p q : Parameter) : Decidable (p.Precedes q) :=
  inferInstanceAs (Decidable (_ ∧ _))

/-- Whether the parameter must be filled, and can be filled by name only. -/
def needsName (p : Parameter) : Bool := p.kind == .keyword && !p.hasDefault

/-- Whether the parameter must be filled, and can be filled by position. -/
def needsPlace (p : Parameter) : Bool := p.isPositional && !p.hasDefault

/-- Whether the parameter can be filled by position, and can do without. -/
def isOptional (p : Parameter) : Bool := p.isPositional && p.hasDefault

theorem isRequired_eq (p : Parameter) : p.isRequired = (p.needsPlace || p.needsName) := by
  simp only [isRequired, needsPlace, needsName]
  cases p.hasDefault <;> simp

theorem not_needsName (p : Parameter) (place : p.isPositional = true) :
    p.needsName = false ∧ p.kind ≠ .rest := by
  obtain ⟨name, kind, hasDefault⟩ := p
  cases kind <;> simp_all [isPositional, needsName]

theorem isPositional_iff {p : Parameter} : p.isPositional = true ↔ p.kind.rank ≤ 1 := by
  obtain ⟨name, kind, hasDefault⟩ := p
  cases kind <;> simp [isPositional, Kind.rank]

theorem rank_rest_lt (p : Parameter) (place : ¬ p.isPositional = true) (single : p.kind ≠ .rest) :
    Kind.rest.rank < p.kind.rank := by
  obtain ⟨name, kind, hasDefault⟩ := p
  cases kind <;> simp_all [isPositional, Kind.rank]

/-- Behind a parameter that is not positional, none is. -/
theorem Precedes.not_isPositional {p q : Parameter} (order : p.Precedes q)
    (other : p.isPositional = false) : q.isPositional = false := by
  rw [← Bool.not_eq_true, isPositional_iff] at other ⊢
  exact fun low => other (Nat.le_trans order.1 low)

end Parameter

namespace Signature

variable {p : Parameter} {parameters : List Parameter} {count : Nat}

/-- The number of positional arguments that are needed. -/
def placesNeeded (parameters : List Parameter) : Nat := parameters.countP Parameter.needsPlace

/-- The number of parameters that a positional argument can fill alone. -/
def places (parameters : List Parameter) : Nat := parameters.countP Parameter.isPositional

/-- Whether a required parameter can be filled by name only. -/
def NeedsName (parameters : List Parameter) : Prop := ∃ p ∈ parameters, p.needsName = true

/-- Whether some parameter collects the positional arguments that are left over. -/
def TakesRest (parameters : List Parameter) : Prop := ∃ p ∈ parameters, p.kind = .rest

/-- Whether a required parameter that can be filled by name only stands in a list with a default
among its positional parameters. -/
def Overlooks (parameters : List Parameter) : Prop :=
  (∃ p ∈ parameters, p.isOptional = true) ∧ NeedsName parameters

instance : Decidable (NeedsName parameters) :=
  inferInstanceAs (Decidable (∃ p ∈ parameters, p.needsName = true))

instance : Decidable (TakesRest parameters) :=
  inferInstanceAs (Decidable (∃ p ∈ parameters, p.kind = .rest))

instance : Decidable (Overlooks parameters) := inferInstanceAs (Decidable (_ ∧ _))

/-! ## Which numbers of arguments fit -/

theorem checkUnfilled_eq_ok_iff :
    checkUnfilled parameters = .ok () ↔
      placesNeeded parameters = 0 ∧ ¬ NeedsName parameters := by
  have unfilled : checkUnfilled parameters = .ok () ↔ ∀ p ∈ parameters, ¬ p.isRequired = true := by
    rw [← List.find?_eq_none, checkUnfilled]
    cases parameters.find? Parameter.isRequired <;> simp
  rw [unfilled, placesNeeded, List.countP_eq_zero, NeedsName]
  simp only [Parameter.isRequired_eq, Bool.or_eq_true, not_or, not_exists, not_and]
  exact ⟨fun h => ⟨fun p inside => (h p inside).1, fun p inside => (h p inside).2⟩,
    fun h p inside => ⟨h.1 p inside, h.2 p inside⟩⟩

theorem fill_zero : fill 0 parameters = checkUnfilled parameters := by
  cases parameters <;> rfl

/-- Behind a parameter that is not positional no arguments are needed, and none has a place. -/
theorem places_eq_zero (order : ∀ q ∈ parameters, p.Precedes q)
    (other : p.isPositional = false) : places parameters = 0 :=
  List.countP_eq_zero.2 fun q inside =>
    Bool.eq_false_iff.1 ((order q inside).not_isPositional other)

theorem placesNeeded_le (parameters : List Parameter) :
    placesNeeded parameters ≤ places parameters :=
  List.countP_mono_left fun _ _ needs => (Bool.and_eq_true _ _ ▸ needs).1

/-- Behind a default no arguments are needed. -/
theorem placesNeeded_eq_zero (order : ∀ q ∈ parameters, p.Precedes q)
    (optional : p.isOptional = true) : placesNeeded parameters = 0 := by
  rw [placesNeeded, List.countP_eq_zero]
  intro q inside needs
  simp only [Parameter.isOptional, Parameter.needsPlace, Bool.and_eq_true] at optional needs
  simp [(order q inside).2 optional.1 optional.2 needs.1] at needs

/-- Behind a parameter that is filled by name none collects positional arguments. -/
theorem not_takesRest (order : ∀ q ∈ parameters, p.Precedes q)
    (late : Parameter.Kind.rest.rank < p.kind.rank) : ¬ TakesRest parameters := by
  rintro ⟨q, inside, rest⟩
  have := (order q inside).1
  rw [rest] at this
  omega

theorem fill_succ_cons : fill (count + 1) (p :: parameters) =
    if p.isPositional then fill count parameters
    else if p.kind = .rest then checkUnfilled parameters
    else .error .argumentExcess := by
  obtain ⟨name, kind, hasDefault⟩ := p
  cases kind <;> rfl

theorem placesNeeded_cons :
    placesNeeded (p :: parameters) =
      placesNeeded parameters + if p.needsPlace then 1 else 0 := List.countP_cons

theorem places_cons :
    places (p :: parameters) = places parameters + if p.isPositional then 1 else 0 :=
  List.countP_cons

theorem needsName_cons :
    NeedsName (p :: parameters) ↔ p.needsName = true ∨ NeedsName parameters :=
  List.exists_mem_cons_iff _ _ _

theorem takesRest_cons : TakesRest (p :: parameters) ↔ p.kind = .rest ∨ TakesRest parameters :=
  List.exists_mem_cons_iff _ _ _

/-- Which numbers of positional arguments fit. -/
theorem fill_eq_ok_iff (order : parameters.Pairwise Parameter.Precedes) :
    fill count parameters = .ok () ↔
      ¬ NeedsName parameters ∧ placesNeeded parameters ≤ count ∧
        (TakesRest parameters ∨ count ≤ places parameters) := by
  induction parameters generalizing count with
  | nil => cases count <;> simp [fill, checkUnfilled, NeedsName, TakesRest, placesNeeded, places]
  | cons p parameters ih =>
    obtain ⟨first, behind⟩ := List.pairwise_cons.1 order
    cases count with
    | zero =>
      rw [fill_zero, checkUnfilled_eq_ok_iff]
      simp [and_comm]
    | succ count =>
      rw [fill_succ_cons, placesNeeded_cons, places_cons, needsName_cons, takesRest_cons]
      by_cases place : p.isPositional = true
      · -- the argument is used up; behind a default, the count of needed ones is zero anyway
        have unnamed := p.not_needsName place
        have needed : p.needsPlace = false → placesNeeded parameters = 0 := fun no =>
          placesNeeded_eq_zero first (by simpa [Parameter.needsPlace, place,
            Parameter.isOptional] using no)
        rw [if_pos place, ih behind]
        grind
      · have none := places_eq_zero first (Bool.eq_false_iff.2 place)
        have needed := placesNeeded_le parameters
        have unplaced : p.needsPlace = false := by simp [Parameter.needsPlace, place]
        rw [if_neg place, if_neg place, unplaced]
        by_cases rest : p.kind = .rest
        · have unnamed : p.needsName = false := by simp [Parameter.needsName, rest]
          rw [if_pos rest, checkUnfilled_eq_ok_iff, unnamed]
          simp [rest, none, and_comm, show placesNeeded parameters = 0 by omega]
        · have late := not_takesRest first (p.rank_rest_lt place rest)
          simp [rest, late, none]

theorem accepts_known_iff : (known parameters).accepts count = true ↔
    fill count parameters = .ok () := by
  simp only [accepts, bind]
  cases fill count parameters <;> simp

/-- Which numbers of positional arguments are accepted: enough, and not too many, and none at
all where a required parameter is filled by name only. -/
theorem accepts_iff (order : parameters.Pairwise Parameter.Precedes) :
    (known parameters).accepts count = true ↔
      ¬ NeedsName parameters ∧ placesNeeded parameters ≤ count ∧
        (TakesRest parameters ∨ count ≤ places parameters) :=
  accepts_known_iff.trans (fill_eq_ok_iff order)

/-- No number of arguments is accepted exactly where a required parameter is filled by name
only. -/
theorem accepts_none_iff (order : parameters.Pairwise Parameter.Precedes) :
    (∀ count, (known parameters).accepts count = false) ↔ NeedsName parameters := by
  constructor
  · intro refused
    by_contra unnamed
    have fits := (accepts_iff order).2
      ⟨unnamed, Nat.le_refl _, .inr (placesNeeded_le parameters)⟩
    simp [refused] at fits
  · intro named count
    rw [Bool.eq_false_iff, Ne, accepts_iff order]
    exact fun fits => fits.1 named

/-! ## Which arity is derived -/

/-- A parameter that has no default by position and is not required by name makes no
difference to what is overlooked. -/
theorem overlooks_cons (fixed : p.isOptional = false) (unnamed : p.needsName = false) :
    Overlooks (p :: parameters) ↔ Overlooks parameters := by
  simp [Overlooks, NeedsName, fixed, unnamed]

/-- The count goes through to the end, or stops at a default; either way it has the number of
arguments that are needed.  It fails at a parameter that must be filled by name. -/
theorem countRequired_cases (label : Label) (order : parameters.Pairwise Parameter.Precedes) :
    (countRequired label parameters = .ok (placesNeeded parameters) ∧
        (NeedsName parameters → Overlooks parameters)) ∨
      ∃ p ∈ parameters, p.needsName = true ∧ ¬ Overlooks parameters ∧
        countRequired label parameters =
          .error (label.quoting fun shown => .keywordRequired shown p.name) := by
  induction parameters with
  | nil => exact .inl ⟨rfl, by simp [NeedsName]⟩
  | cons p parameters ih =>
    obtain ⟨first, behind⟩ := List.pairwise_cons.1 order
    rw [countRequired, placesNeeded_cons, needsName_cons]
    by_cases place : p.isPositional = true
    · have unnamed := (p.not_needsName place).1
      by_cases default : p.hasDefault = true
      · -- the count stops here, and nothing behind a default is needed
        have optional : p.isOptional = true := by simp [Parameter.isOptional, place, default]
        have unplaced : p.needsPlace = false := by simp [Parameter.needsPlace, default]
        rw [if_pos place, if_pos default, placesNeeded_eq_zero first optional, unplaced]
        exact .inl ⟨rfl, fun named => ⟨⟨p, List.mem_cons_self, optional⟩, needsName_cons.2 named⟩⟩
      · have fixed : p.isOptional = false := by simp [Parameter.isOptional, default]
        have needed : p.needsPlace = true := by simp [Parameter.needsPlace, place, default]
        rw [if_pos place, if_neg default, needed, overlooks_cons fixed unnamed, unnamed]
        obtain ⟨counted, seen⟩ | ⟨q, inside, named, seen, stopped⟩ := ih behind
        · exact .inl ⟨by rw [counted]; rfl, by simpa using seen⟩
        · exact .inr ⟨q, List.mem_cons_of_mem p inside, named, seen, by rw [stopped]; rfl⟩
    · have fixed : p.isOptional = false := by simp [Parameter.isOptional, place]
      have unplaced : p.needsPlace = false := by simp [Parameter.needsPlace, place]
      rw [if_neg place, p.isRequired_eq, unplaced, Bool.false_or]
      by_cases named : p.needsName = true
      · -- nothing behind is positional, so no default has been passed by
        have seen : ¬ Overlooks (p :: parameters) := by
          rintro ⟨⟨q, inside, optional⟩, -⟩
          obtain rfl | inside := List.mem_cons.1 inside
          · simp [fixed] at optional
          · have := (first q inside).not_isPositional (Bool.eq_false_iff.2 place)
            simp [Parameter.isOptional, this] at optional
        rw [if_pos named]
        exact .inr ⟨p, List.mem_cons_self, named, seen, rfl⟩
      · have unnamed := Bool.eq_false_iff.2 named
        rw [if_neg named, overlooks_cons fixed unnamed, unnamed]
        obtain ⟨counted, seen⟩ | ⟨q, inside, named, seen, stopped⟩ := ih behind
        · exact .inl ⟨counted, by simpa using seen⟩
        · exact .inr ⟨q, List.mem_cons_of_mem p inside, named, seen, stopped⟩

/-! ## Why no arity is derived -/

/-- A fault that quotes the text of a callable quotes it, or there is no text. -/
theorem quoting_cases (label : Label) (f : String → Fault) :
    (∃ shown, label = .text shown ∧ label.quoting f = f shown) ∨
      ∃ reason, label = .failing reason ∧ label.quoting f = .foreign reason := by
  cases label with
  | text shown => exact .inl ⟨shown, rfl, rfl⟩
  | failing reason => exact .inr ⟨reason, rfl, rfl⟩

/-- The count fails in one way only. -/
theorem countRequired_eq_error {label : Label} {fault : Fault}
    (stopped : countRequired label parameters = .error fault) :
    ∃ name, fault = label.quoting fun shown => .keywordRequired shown name := by
  induction parameters generalizing fault with
  | nil => cases stopped
  | cons p parameters ih =>
    rw [countRequired] at stopped
    split at stopped
    · split at stopped
      · cases stopped
      · cases counted : countRequired label parameters with
        | ok n =>
          rw [counted] at stopped
          cases stopped
        | error other =>
          rw [counted] at stopped
          cases stopped
          exact ih counted
    · split at stopped
      · cases stopped
        exact ⟨p.name, rfl⟩
      · exact ih stopped

/-- What keeps an arity from being derived is a mismatch where the callable has a text and can be
asked for its parameters, and a failure of the host's own where it has not or cannot. -/
theorem derivedArity_eq_error {label : Label} {signature : Signature} {fault : Fault}
    (stopped : signature.derivedArity label = .error fault) :
    ((∃ shown, label = .text shown) ∧ (∀ reason, signature ≠ .failing reason) ∧
        fault.kind = .arityMismatch) ∨
      ∃ reason, fault = .foreign reason ∧
        (label = .failing reason ∨ signature = .failing reason) := by
  have quoted : ∀ {f : String → Fault}, (∀ shown, (f shown).kind = .arityMismatch) →
      fault = label.quoting f → (∀ reason, signature ≠ .failing reason) →
      ((∃ shown, label = .text shown) ∧ (∀ reason, signature ≠ .failing reason) ∧
          fault.kind = .arityMismatch) ∨
        ∃ reason, fault = .foreign reason ∧
          (label = .failing reason ∨ signature = .failing reason) := by
    intro f mismatch same open_
    rcases quoting_cases label f with ⟨shown, given, quotes⟩ | ⟨reason, given, quotes⟩
    · exact .inl ⟨⟨shown, given⟩, open_, (same.trans quotes) ▸ mismatch shown⟩
    · exact .inr ⟨reason, same.trans quotes, .inl given⟩
  cases signature with
  | known parameters =>
    obtain ⟨name, same⟩ := countRequired_eq_error stopped
    exact quoted (fun _ => rfl) same nofun
  | hidden =>
    cases stopped
    exact quoted (fun _ => rfl) rfl nofun
  | failing reason =>
    cases stopped
    exact .inr ⟨reason, rfl, .inr rfl⟩

end Signature

/-- A callable that tells its parameters, and has them in the order in which parameters are
written. -/
structure Callable.Tells (f : Callable) (parameters : List Parameter) : Prop where
  known : f.signature = .known parameters
  ordered : parameters.Pairwise Parameter.Precedes

namespace Callable.Tells

variable {f : Callable} {parameters : List Parameter}

/-- A derived arity fits exactly where nothing is overlooked. -/
theorem derivedArity_accepts_iff (tells : f.Tells parameters) {arity : Nat}
    (derived : f.signature.derivedArity f.label = .ok arity) :
    f.signature.accepts arity = true ↔ ¬ Signature.Overlooks parameters := by
  rw [tells.known, Signature.accepts_iff tells.ordered]
  rw [tells.known, Signature.derivedArity] at derived
  obtain ⟨counted, seen⟩ | ⟨p, -, -, -, stopped⟩ :=
    Signature.countRequired_cases f.label tells.ordered
  · obtain rfl := Except.ok.inj (counted.symm.trans derived)
    refine ⟨fun fits overlooked => fits.1 overlooked.2, fun looked => ⟨fun named => ?_, ?_⟩⟩
    · exact looked (seen named)
    · exact ⟨Nat.le_refl _, .inr (Signature.placesNeeded_le parameters)⟩
  · simp [stopped] at derived

/-- Nothing is derived exactly where no number of arguments fits and nothing is overlooked. -/
theorem derivedArity_eq_error_iff (tells : f.Tells parameters) :
    (∃ p ∈ parameters, f.signature.derivedArity f.label =
        .error (f.label.quoting fun shown => .keywordRequired shown p.name)) ↔
      (∀ count, f.signature.accepts count = false) ∧ ¬ Signature.Overlooks parameters := by
  rw [tells.known, Signature.accepts_none_iff tells.ordered, Signature.derivedArity]
  obtain ⟨counted, seen⟩ | ⟨p, inside, named, seen, stopped⟩ :=
    Signature.countRequired_cases f.label tells.ordered
  · rw [counted]
    simpa using seen
  · exact ⟨fun _ => ⟨⟨p, inside, named⟩, seen⟩, fun _ => ⟨p, inside, stopped⟩⟩

end Callable.Tells

/-- The entry that a callable is registered as, with an arity. -/
def Callable.entry (f : Callable) (name : String) (options : Options) (arity : Nat) : Word :=
  ⟨name, options.immediate, .native ⟨.host f, arity, options.pushesNone⟩⟩

/-- How a callable is registered of which nothing is said but its name. -/
def Options.plain : Options := ⟨false, none, false⟩

/-- The entry that an imported item is registered as, if it is registered. -/
def Item.word? (name : String) : Item → Option Word
  | value v => some ⟨name, false, .native ⟨.primitive (.constant v), 0, true⟩⟩
  | callable f =>
    match f.signature.derivedArity f.label with
    | .ok arity => some (f.entry name .plain arity)
    | .error _ => none

/-- An item that can be imported, or tells why not: the arity of a callable can be derived, or
the callable has a text, and can be asked for its parameters. -/
def Item.Explains : Item → Prop
  | value _ => True
  | callable f =>
    (∃ arity, f.signature.derivedArity f.label = .ok arity) ∨
      (∃ shown, f.label = .text shown) ∧ ∀ reason, f.signature ≠ .failing reason

/-- The words of items, for all that can be registered. -/
def wordsOf (named : List (String × Item)) : List Word :=
  named.filterMap fun pair => pair.2.word? pair.1

/-- An imported callable is registered with an arity, or no number of arguments fits it. -/
theorem Callable.Tells.word?_cases {f : Callable} {parameters : List Parameter}
    (tells : f.Tells parameters) (name : String) :
    (∃ arity, Item.word? name (.callable f) = some (f.entry name .plain arity) ∧
        (f.signature.accepts arity = true ↔ ¬ Signature.Overlooks parameters)) ∨
      (Item.word? name (.callable f) = none ∧
        (∀ count, f.signature.accepts count = false) ∧ ¬ Signature.Overlooks parameters) := by
  simp only [Item.word?]
  cases derived : f.signature.derivedArity f.label with
  | ok arity => exact .inl ⟨arity, rfl, tells.derivedArity_accepts_iff derived⟩
  | error fault =>
    refine .inr ⟨rfl, tells.derivedArity_eq_error_iff.1 ?_⟩
    obtain ⟨counted, -⟩ | ⟨p, inside, -, -, stopped⟩ :=
      Signature.countRequired_cases f.label tells.ordered
    · simp [tells.known, Signature.derivedArity, counted] at derived
    · exact ⟨p, inside, by rw [tells.known, Signature.derivedArity, stopped]⟩

end Host

namespace Machine

open Host

variable {f : Callable} {parameters : List Parameter}

theorem dictionary_install (w : Word) (s : Store) :
    (s.install w).dictionary = s.dictionary.push w :=
  (Store.sameBooks_install w s).dictionary

/-! ## Registering -/

theorem registerCallable_eq (name : String) (f : Callable) (options : Options) (m : Machine) :
    m.registerCallable name f options =
      (m.callableArity name f options.arity).map fun arity =>
        m.register (f.entry name options arity) := by
  unfold registerCallable
  cases m.callableArity name f options.arity <;> rfl

/-- Values that are refused as an arity for another reason than that they are none: they have no
text, or are greater than any index. -/
def BeyondArity (m : Machine) (v : Value) : Prop :=
  (∃ missing, v.literal m.slots = .error missing) ∨ ∃ n : Int, v = .int n ∧ Value.maxIndex < n

theorem accepts_of_takes {count : Nat} {signature : Signature}
    (taken : takes count signature = .ok true) : signature.accepts count = true := by
  unfold takes at taken
  split at taken
  · split at taken
    · cases taken
    · exact Except.ok.inj taken
  · rfl
  · cases taken

theorem takes_known_eq_ok_iff {count : Nat} {b : Bool} : takes count (.known parameters) = .ok b ↔
    count ≤ Value.maxIndex ∧ (Signature.known parameters).accepts count = b := by
  simp only [takes]
  split
  · next great => exact ⟨nofun, fun ⟨low, _⟩ => absurd great (Nat.not_lt.mpr low)⟩
  · next low =>
    rw [Except.ok.injEq]
    exact (and_iff_right (Nat.not_lt.mp low)).symm

/-- Parameters that are told can be tried with any number of arguments that is an index. -/
theorem lt_of_takes_known {count : Nat} {fault : Fault}
    (untaken : takes count (.known parameters) = .error fault) : Value.maxIndex < count := by
  by_contra low
  have taken : takes count (.known parameters) = .ok _ :=
    takes_known_eq_ok_iff.mpr ⟨Nat.not_lt.mp low, rfl⟩
  cases untaken.symm.trans taken

/-- An arity that is given is one that the callable accepts. -/
theorem callableArity_given {name : String} {v : Value} {arity : Nat} {m : Machine}
    (counted : m.callableArity name f (some v) = .ok arity) : f.signature.accepts arity = true := by
  unfold callableArity at counted
  simp only at counted
  split at counted
  · split at counted
    · cases counted
    · split at counted
      · cases counted
      · next taken =>
        cases counted
        exact accepts_of_takes taken
      · cases counted
  · cases counted

/-- An arity that is given and refused is a mismatch, if it is not beyond being one and the
callable has a text. -/
theorem callableArity_refused (tells : f.Tells parameters) {name : String} {v : Value}
    {fault : Fault} {m : Machine} (refused : m.callableArity name f (some v) = .error fault) :
    fault.kind = .arityMismatch ∨ (∃ reason, f.label = .failing reason ∧ fault = .foreign reason) ∨
      m.BeyondArity v := by
  have impossible : (v.quoting m.slots (.arityImpossible name)).kind = .arityMismatch ∨
      (∃ reason, f.label = .failing reason ∧
        v.quoting m.slots (.arityImpossible name) = .foreign reason) ∨ m.BeyondArity v := by
    unfold Value.quoting
    cases shown : v.literal m.slots with
    | ok text => exact .inl rfl
    | error missing => exact .inr (.inr (.inl ⟨missing, shown⟩))
  unfold callableArity at refused
  simp only at refused
  split at refused
  · split at refused
    · exact Except.error.inj refused ▸ impossible
    · next n positive =>
      split at refused
      · next untaken =>
        rw [tells.known] at untaken
        have great := lt_of_takes_known untaken
        exact .inr (.inr (.inr ⟨n, rfl, by omega⟩))
      · cases refused
      · cases refused
        rcases Signature.quoting_cases f.label fun shown => .arityRefused name shown n.toNat with
          ⟨shown, -, quotes⟩ | ⟨reason, given, quotes⟩
        · rw [quotes]
          exact .inl rfl
        · exact .inr (.inl ⟨reason, given, quotes⟩)
  · exact Except.error.inj refused ▸ impossible

/-- What becomes of a callable that is to be registered: it is, with an arity that fits unless
it is derived from a list in which something is overlooked, or nothing changes. -/
theorem defineNative_cases (tells : f.Tells parameters) (name : Value) (options : Options)
    (m : Machine) :
    (∃ valid arity after, m.checkName name = .ok valid ∧
        m.defineNative name (.callable f) options = .done m.dictionary.size after ∧
        after.dictionary = m.dictionary.push (f.entry valid options arity) ∧
        (f.signature.accepts arity = true ↔
          ¬ (options.arity = none ∧ Signature.Overlooks parameters))) ∨
      ∃ fault, m.defineNative name (.callable f) options = .failed fault m := by
  unfold defineNative
  cases checked : m.checkName name with
  | error fault => exact .inr ⟨fault, rfl⟩
  | ok valid =>
    simp only [registerCallable_eq]
    cases counted : m.callableArity valid f options.arity with
    | error fault => exact .inr ⟨fault, rfl⟩
    | ok arity =>
      refine .inl ⟨valid, arity, _, rfl, rfl, dictionary_install _ m.toStore, ?_⟩
      cases given : options.arity with
      | none =>
        rw [given, callableArity] at counted
        rw [tells.derivedArity_accepts_iff counted]
        simp
      | some v =>
        rw [given] at counted
        simp [callableArity_given counted]

/-- A callable that no number of arguments fits is refused, unless its arity is derived from a
list in which something is overlooked. -/
theorem defineNative_refused (tells : f.Tells parameters)
    (never : ∀ count, f.signature.accepts count = false) {name : Value} {valid : String}
    {options : Options} {m : Machine} (checked : m.checkName name = .ok valid)
    (looked : ¬ (options.arity = none ∧ Signature.Overlooks parameters)) :
    ∃ fault, m.defineNative name (.callable f) options = .failed fault m ∧
      (fault.kind = .arityMismatch ∨
        (∃ reason, f.label = .failing reason ∧ fault = .foreign reason) ∨
        ∃ v, options.arity = some v ∧ m.BeyondArity v) := by
  unfold defineNative
  rw [checked]
  simp only [registerCallable_eq]
  cases given : options.arity with
  | none =>
    have seen : ¬ Signature.Overlooks parameters := fun overlooked => looked ⟨given, overlooked⟩
    obtain ⟨p, -, stopped⟩ := tells.derivedArity_eq_error_iff.2 ⟨never, seen⟩
    rw [callableArity, stopped]
    refine ⟨_, rfl, ?_⟩
    rcases Signature.quoting_cases f.label fun shown => .keywordRequired shown p.name with
      ⟨shown, -, quotes⟩ | ⟨reason, given, quotes⟩
    · rw [quotes]
      exact .inl rfl
    · exact .inr (.inl ⟨reason, given, quotes⟩)
  | some v =>
    cases counted : m.callableArity valid f (some v) with
    | ok arity => exact absurd (callableArity_given counted) (by simp [never])
    | error fault =>
      refine ⟨fault, rfl, (callableArity_refused tells counted).imp_right ?_⟩
      exact Or.imp_right fun beyond => ⟨v, rfl, beyond⟩

/-! ## Importing -/

/-- Registering a word adds it to the dictionary, and may leave a note. -/
theorem register_eq (w : Word) (m : Machine) :
    ∃ notes, m.register w =
      (m.dictionary.size, { m with dictionary := m.dictionary.push w, journal := notes }) := by
  obtain ⟨notes, installed⟩ := m.toStore.install_eq w
  exact ⟨notes, by rw [register, installed]; rfl⟩

/-- The machine in which the words of items have been registered, and notes taken. -/
def withWords (m : Machine) (words : List Word) (notes : List Note) : Machine :=
  { m with dictionary := words.foldl Dictionary.push m.dictionary, journal := notes }

/-- What is done for one item.  If it explains itself its word is registered, or there is none
and nothing happens but a note; else the import fails. -/
theorem importItem_cases (name : String) (item : Item) (m : Machine) :
    (item.Explains ∧ ∃ notes, m.importItem name item =
        .done ((item.word? name).map fun _ => m.dictionary.size)
          (m.withWords (item.word? name).toList notes)) ∨
      ¬ item.Explains ∧ ∃ reason, m.importItem name item = .failed (.foreign reason) m := by
  cases item with
  | value v =>
    obtain ⟨notes, registered⟩ :=
      m.register_eq ⟨name, false, .native ⟨.primitive (.constant v), 0, true⟩⟩
    refine .inl ⟨trivial, notes, ?_⟩
    simp only [importItem, registerConstant, registered]
    rfl
  | callable f =>
    simp only [importItem, registerCallable_eq, callableArity, Item.word?, Item.Explains]
    cases derived : f.signature.derivedArity f.label with
    | ok arity =>
      obtain ⟨notes, registered⟩ := m.register_eq (f.entry name .plain arity)
      refine .inl ⟨.inl ⟨arity, rfl⟩, notes, ?_⟩
      exact congrArg (fun made => Outcome.done (some made.1) made.2) registered
    | error fault =>
      simp only [Except.map]
      rcases Signature.derivedArity_eq_error derived with
        ⟨shown, told, mismatch⟩ | ⟨reason, rfl, given⟩
      · obtain ⟨notes, noted⟩ := m.toStore.note_eq .warning .dictionary
          ("skipping '" ++ name ++ "': " ++ fault.message)
        rw [if_pos mismatch]
        refine .inl ⟨.inr ⟨shown, told⟩, notes, ?_⟩
        exact congrArg (fun s => Outcome.done none { m with toStore := s }) noted
      · have other : ¬ (Fault.foreign reason).kind = .arityMismatch := by simp [Fault.kind]
        refine .inr ⟨?_, reason, if_neg other⟩
        rintro (⟨arity, same⟩ | ⟨⟨shown, text⟩, told⟩)
        · cases same
        · rcases given with failing | failing
          · cases failing.symm.trans text
          · exact told reason failing

/-- What is done for all items, if they explain themselves. -/
theorem importItems_eq (named : List (String × Item)) (m : Machine)
    (explain : ∀ pair ∈ named, pair.2.Explains) :
    ∃ notes, importItems named m =
      .done (List.range' m.dictionary.size (wordsOf named).length)
        (m.withWords (wordsOf named) notes) := by
  induction named generalizing m with
  | nil => exact ⟨m.journal, rfl⟩
  | cons pair rest ih =>
    obtain ⟨name, item⟩ := pair
    rw [List.forall_mem_cons] at explain
    obtain ⟨-, notes, first⟩ | ⟨silent, -⟩ := m.importItem_cases name item
    · obtain ⟨notes', others⟩ := ih (m.withWords (item.word? name).toList notes) explain.2
      refine ⟨notes', ?_⟩
      rw [importItems, first, Outcome.bind_done, others]
      simp only [wordsOf, List.filterMap_cons]
      -- the words of the rest are numbered after that of the first item, if it has one
      cases item.word? name with
      | none => rfl
      | some w => simp [Outcome.map, withWords, List.range'_succ]
    · exact absurd explain.1 silent

/-- The first item that does not explain itself ends the import.  The items before it have been
imported. -/
theorem importItems_stopped {before : List (String × Item)} {pair : String × Item}
    (explain : ∀ other ∈ before, other.2.Explains) (silent : ¬ pair.2.Explains)
    (rest : List (String × Item)) (m : Machine) :
    ∃ reason notes, importItems (before ++ pair :: rest) m =
      .failed (.foreign reason) (m.withWords (wordsOf before) notes) := by
  induction before generalizing m with
  | nil =>
    obtain ⟨explains, -⟩ | ⟨-, reason, failed⟩ := m.importItem_cases pair.1 pair.2
    · exact absurd explains silent
    · refine ⟨reason, m.journal, ?_⟩
      rw [List.nil_append, importItems, failed]
      rfl
  | cons other before ih =>
    obtain ⟨name, item⟩ := other
    rw [List.forall_mem_cons] at explain
    obtain ⟨-, notes, first⟩ | ⟨hushed, -⟩ := m.importItem_cases name item
    · obtain ⟨reason, notes', others⟩ := ih explain.2 (m.withWords (item.word? name).toList notes)
      refine ⟨reason, notes', ?_⟩
      rw [List.cons_append, importItems, first, Outcome.bind_done, others]
      simp only [wordsOf, List.filterMap_cons]
      cases item.word? name <;> rfl
    · exact absurd explain.1 hushed

/-- The arity of whatever is registered fits, unless it is derived from a list in which something
is overlooked.  A callable that no number of arguments fits is otherwise refused, and skipped by
an import; nothing is registered for it. -/
theorem registered_accepts_iff (tells : f.Tells parameters) (m : Machine) :
    (∀ name options,
      (∃ valid arity after, m.checkName name = .ok valid ∧
          m.defineNative name (.callable f) options = .done m.dictionary.size after ∧
          after.dictionary = m.dictionary.push (f.entry valid options arity) ∧
          (f.signature.accepts arity = true ↔
            ¬ (options.arity = none ∧ Signature.Overlooks parameters))) ∨
        ∃ fault, m.defineNative name (.callable f) options = .failed fault m) ∧
    ((∀ count, f.signature.accepts count = false) →
      ∀ name valid options, m.checkName name = .ok valid →
        ¬ (options.arity = none ∧ Signature.Overlooks parameters) →
        ∃ fault, m.defineNative name (.callable f) options = .failed fault m ∧
          (fault.kind = .arityMismatch ∨
            (∃ reason, f.label = .failing reason ∧ fault = .foreign reason) ∨
            ∃ v, options.arity = some v ∧ m.BeyondArity v)) ∧
    (∀ items named, m.checkNames items = .ok named → (∀ pair ∈ named, pair.2.Explains) →
      ∃ entries after, m.importWords items = .done entries after ∧
        after.dictionary =
          (named.filterMap fun item => item.2.word? item.1).foldl Dictionary.push
            m.dictionary) ∧
    (∀ name,
      (∃ arity, Item.word? name (.callable f) = some (f.entry name .plain arity) ∧
          (f.signature.accepts arity = true ↔ ¬ Signature.Overlooks parameters)) ∨
        (Item.word? name (.callable f) = none ∧
          (∀ count, f.signature.accepts count = false) ∧
          ¬ Signature.Overlooks parameters)) := by
  refine ⟨fun name options => defineNative_cases tells name options m,
    fun never name valid options => defineNative_refused tells never, ?_, tells.word?_cases⟩
  intro items named checked explain
  obtain ⟨notes, imported⟩ := m.importItems_eq named explain
  refine ⟨List.range' m.dictionary.size (wordsOf named).length,
    m.withWords (wordsOf named) notes, ?_, rfl⟩
  rw [importWords, checked]
  exact imported

/-- A callable with a parameter that is filled by position, and one that must be filled by
name. -/
def placeThenName : Callable :=
  ⟨.text "<host f>", .known [⟨"a", .positional, false⟩, ⟨"key", .keyword, false⟩], [],
    .arguments⟩

theorem registered_accepts_iff_refused :
    placeThenName.Tells [⟨"a", .positional, false⟩, ⟨"key", .keyword, false⟩] ∧
      (∀ count, placeThenName.signature.accepts count = false) ∧
      ∃ fault, (fresh 1024 false false).defineNative (.text "w") (.callable placeThenName)
          .plain = .failed fault (fresh 1024 false false) ∧
        fault.kind = .arityMismatch := by
  have tells : placeThenName.Tells [⟨"a", .positional, false⟩, ⟨"key", .keyword, false⟩] :=
    ⟨rfl, by decide⟩
  have never := (Signature.accepts_none_iff tells.ordered).2 (by decide)
  obtain ⟨fault, refused, mismatch | ⟨reason, given, -⟩ | ⟨v, given, -⟩⟩ :=
    (registered_accepts_iff tells (fresh 1024 false false)).2.1 never (.text "w") "w" .plain
      rfl (by decide)
  · exact ⟨tells, never, fault, refused, mismatch⟩
  · cases given
  · cases given

/-- A callable with a default, and behind it a parameter that must be filled by name. -/
def defaultThenName : Callable :=
  ⟨.text "<host f>", .known [⟨"a", .positional, true⟩, ⟨"b", .keyword, false⟩], [], .nothing⟩

/-- The derived arity of this callable is zero, and it is registered with it; but no number of
arguments fits. -/
theorem registered_overlooked :
    (∃ after, (fresh 1024 false false).defineNative (.text "w") (.callable defaultThenName)
        .plain = .done (fresh 1024 false false).dictionary.size after ∧
      after.dictionary = (fresh 1024 false false).dictionary.push
        (defaultThenName.entry "w" .plain 0)) ∧
    ∀ count, defaultThenName.signature.accepts count = false := by
  have ordered : [⟨"a", .positional, true⟩, ⟨"b", .keyword, false⟩].Pairwise
      Parameter.Precedes := by decide
  exact ⟨⟨_, rfl, rfl⟩, (Signature.accepts_none_iff ordered).2 (by decide)⟩

/-! ## The least number of arguments -/

theorem callableArity_eq_ok_iff (tells : f.Tells parameters) {name : String} {n : Int} {arity : Nat}
    {m : Machine} : m.callableArity name f (some (.int n)) = .ok arity ↔
      n ≤ Value.maxIndex ∧ f.signature.accepts arity = true ∧ n = arity := by
  have taken : ∀ {b : Bool}, takes n.toNat f.signature = .ok b ↔
      n.toNat ≤ Value.maxIndex ∧ f.signature.accepts n.toNat = b := by
    rw [tells.known]
    exact takes_known_eq_ok_iff
  simp only [callableArity]
  split
  · next negative =>
    refine ⟨nofun, fun ⟨_, _, same⟩ => ?_⟩
    omega
  · next positive =>
    split
    · next fault untaken =>
      refine ⟨nofun, fun ⟨low, _, _⟩ => ?_⟩
      rw [tells.known] at untaken
      have great := lt_of_takes_known untaken
      omega
    · next fits =>
      obtain ⟨low, fits⟩ := taken.mp fits
      constructor
      · rintro ⟨⟩
        exact ⟨by omega, fits, by omega⟩
      · rintro ⟨-, -, rfl⟩
        rfl
    · next refused =>
      refine ⟨nofun, fun ⟨_, fits, same⟩ => ?_⟩
      obtain ⟨-, refused⟩ := taken.mp refused
      rw [same, Int.toNat_natCast, fits] at refused
      cases refused

/-- A callable is registered exactly if the arity is settled. -/
theorem defineNative_eq_done_iff {name : Value} {valid : String} {options : Options} {m : Machine}
    (checked : m.checkName name = .ok valid) :
    (∃ entry after, m.defineNative name (.callable f) options = .done entry after) ↔
      ∃ arity, m.callableArity valid f options.arity = .ok arity := by
  unfold defineNative
  rw [checked]
  simp only [registerCallable_eq]
  cases m.callableArity valid f options.arity with
  | ok arity => exact ⟨fun _ => ⟨arity, rfl⟩, fun _ => ⟨_, _, rfl⟩⟩
  | error fault => exact ⟨nofun, nofun⟩

/-- Where no parameter must be filled by name, the arity that is derived is the least number of
positional arguments that fits.  All numbers from there on fit, up to the number of parameters
that can be filled by position, or without end if some parameter collects what is left over.  An
arity that is given is taken exactly if it fits, as long as it is an index. -/
theorem derivedArity_least (tells : f.Tells parameters)
    (unnamed : ¬ Signature.NeedsName parameters) :
    ∃ k : Nat, f.signature.derivedArity f.label = .ok k ∧
      (∀ count, f.signature.accepts count = true ↔
        k ≤ count ∧ (Signature.TakesRest parameters ∨ count ≤ Signature.places parameters)) ∧
      ∀ (m : Machine) name valid options (n : Int), m.checkName name = .ok valid →
        options.arity = some (.int n) →
        ((∃ entry after, m.defineNative name (.callable f) options = .done entry after) ↔
          n ≤ Value.maxIndex ∧ k ≤ n ∧
            (Signature.TakesRest parameters ∨ n ≤ Signature.places parameters)) := by
  have fits : ∀ count, f.signature.accepts count = true ↔
      Signature.placesNeeded parameters ≤ count ∧
        (Signature.TakesRest parameters ∨ count ≤ Signature.places parameters) := by
    intro count
    rw [tells.known, Signature.accepts_iff tells.ordered]
    exact and_iff_right unnamed
  refine ⟨Signature.placesNeeded parameters, ?_, fits, ?_⟩
  · rw [tells.known, Signature.derivedArity]
    obtain ⟨counted, -⟩ | ⟨p, inside, named, -⟩ :=
      Signature.countRequired_cases f.label tells.ordered
    · exact counted
    · exact absurd ⟨p, inside, named⟩ unnamed
  · intro m name valid options n checked given
    rw [defineNative_eq_done_iff checked, given]
    simp only [callableArity_eq_ok_iff tells, fits]
    constructor
    · rintro ⟨arity, low, room, rfl⟩
      exact ⟨low, Int.ofNat_le.mpr room.1, room.2.imp_right Int.ofNat_le.mpr⟩
    · rintro ⟨low, enough, room⟩
      obtain ⟨arity, rfl⟩ := Int.eq_ofNat_of_zero_le (Int.le_trans (Int.natCast_nonneg _) enough)
      exact ⟨arity, low, ⟨Int.ofNat_le.mp enough, room.imp_right Int.ofNat_le.mp⟩, rfl⟩

/-- A parameter that needs an argument, one with a default, and two that are filled by name. -/
def oneOrTwo : List Parameter :=
  [⟨"a", .positionalOnly, false⟩, ⟨"b", .positional, true⟩, ⟨"c", .keyword, true⟩,
    ⟨"more", .keywords, false⟩]

theorem derivedArity_least_oneOrTwo :
    let f : Callable := ⟨.text "<host f>", .known oneOrTwo, [], .arguments⟩
    let m := fresh 1024 false false
    f.Tells oneOrTwo ∧ ¬ Signature.NeedsName oneOrTwo ∧
      f.signature.derivedArity f.label = .ok 1 ∧ m.checkName (.text "w") = .ok "w" ∧
      (∃ entry after, m.defineNative (.text "w") (.callable f) ⟨false, some (.int 2), false⟩ =
        .done entry after) ∧
      ¬ ∃ entry after, m.defineNative (.text "w") (.callable f) ⟨false, some (.int 3), false⟩ =
        .done entry after := by
  intro f m
  have tells : f.Tells oneOrTwo := ⟨rfl, by decide⟩
  obtain ⟨k, derived, -, given⟩ := derivedArity_least tells (by decide)
  obtain rfl : 1 = k := Except.ok.inj derived
  have taken := fun n => given m (.text "w") "w" ⟨false, some (.int n), false⟩ n rfl rfl
  exact ⟨tells, by decide, rfl, rfl, (taken 2).mpr (by decide),
    fun made => absurd ((taken 3).mp made) (by decide)⟩

/-- A callable that collects all positional arguments. -/
def collector : Callable := ⟨.text "<host f>", .known [⟨"xs", .rest, false⟩], [], .nothing⟩

/-- Any number of arguments fits this callable, but one that is greater than the greatest index
is not taken as its arity. -/
theorem derivedArity_unindexed :
    collector.Tells [⟨"xs", .rest, false⟩] ∧
      ¬ Signature.NeedsName [⟨"xs", .rest, false⟩] ∧
      collector.signature.accepts 9223372036854775808 = true ∧
      (fresh 1024 false false).defineNative (.text "w") (.callable collector)
          ⟨false, some (.int 9223372036854775808), false⟩ =
        .failed .countTooLarge (fresh 1024 false false) := by
  refine ⟨⟨rfl, by decide⟩, by decide, ?_, rfl⟩
  exact (Signature.accepts_iff (by decide)).mpr ⟨by decide, Nat.zero_le _, .inl (by decide)⟩

end Machine
end ThreadedForth
