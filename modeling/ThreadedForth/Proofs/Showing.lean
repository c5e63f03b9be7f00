import ThreadedForth.Proofs.Atomic

/-!
# Values that cannot be shown

A fault that quotes a value needs the text of the value, and not every value has one.  There are
two reasons, and both are about something that stands inside the value.

* An integer of too many decimal digits has no text, and nothing that shows it has one.
* The text of a value is followed to a depth of `Value.maxNesting`, and no further.

What stands inside a value, and how deep, is told by `Value.Within`: a step goes down from a list
or tuple to an item, and from a cell to what its slot holds.

* `Value.literal_eq_error`: a value that has no text has one of the two reasons inside;
* `Value.quoting_cases`: so a fault that quotes a value is the one that was meant, or it is one of
  the two that say that there is no text.
-/

namespace ThreadedForth

/-- A row of computations that fails does so with the fault of one of them. -/
theorem exists_of_mapM_error {α β : Type} {g : α → Except Fault β} {f : Fault} :
    ∀ {items : List α}, items.mapM g = .error f → ∃ a ∈ items, g a = .error f
  | [], fails => by
    rw [List.mapM_nil] at fails
    cases fails
  | a :: items, fails => by
    rw [List.mapM_cons] at fails
    cases first : g a with
    | error other =>
      rw [first] at fails
      cases fails
      exact ⟨a, List.mem_cons_self, first⟩
    | ok b =>
      cases rest : items.mapM g with
      | error other =>
        rw [first, rest] at fails
        cases fails
        obtain ⟨c, inside, found⟩ := exists_of_mapM_error rest
        exact ⟨c, List.mem_cons_of_mem a inside, found⟩
      | ok bs =>
        rw [first, rest] at fails
        cases fails

/-- A computation whose last part cannot fail fails in its first one. -/
theorem error_of_bind_pure {α β : Type} {work : Except Fault α} {g : α → β} {f : Fault}
    (fails : (work >>= fun a => pure (g a)) = .error f) : work = .error f := by
  cases work with
  | error other =>
    cases fails
    rfl
  | ok a => cases fails

namespace Value

/-! ## What stands inside a value -/

/-- The value `w` stands inside the value `v`, `depth` steps down. -/
inductive Within (slots : Array Value) : (depth : Nat) → (v w : Value) → Prop where
  | self (v : Value) : Within slots 0 v v
  | ofList {depth mark : Nat} {items : List Value} {item w : Value} (inside : item ∈ items)
      (below : Within slots depth item w) : Within slots (depth + 1) (.list mark items) w
  | ofTuple {depth mark : Nat} {items : List Value} {item w : Value} (inside : item ∈ items)
      (below : Within slots depth item w) : Within slots (depth + 1) (.tuple mark items) w
  | held {depth slot : Nat} {w : Value} (below : Within slots depth (slots.getD slot .none) w) :
      Within slots (depth + 1) (.cell slot) w

/-- A value cannot be shown, and this is the fault that says why: an integer of too many digits
stands inside it, or something at a depth to which texts are not followed. -/
inductive Unshown (slots : Array Value) (nesting : Nat) (v : Value) : Fault → Prop where
  | digits {depth : Nat} {n : Int} (shallow : depth < nesting)
      (inside : Within slots depth v (.int n)) (long : Number.decimalBound ≤ n.natAbs) :
      Unshown slots nesting v (.tooManyDigits Option.none)
  | deep {w : Value} (inside : Within slots nesting v w) : Unshown slots nesting v .exhausted

section Texts

variable {slots : Array Value} {v : Value} {f : Fault}

theorem decimalText_eq_error {n : Int} (fails : decimalText n = .error f) :
    Number.decimalBound ≤ n.natAbs ∧ f = .tooManyDigits Option.none := by
  unfold decimalText Number.decimal? at fails
  split at fails
  · cases fails
  · next missing =>
    split at missing
    · next long =>
      cases fails
      exact ⟨long, rfl⟩
    · cases missing

theorem decimalText_of_long {n : Int} (long : Number.decimalBound ≤ n.natAbs) :
    decimalText n = .error (.tooManyDigits Option.none) := by
  unfold decimalText Number.decimal?
  rw [if_pos long]

/-- What cannot be shown inside something else keeps that from being shown. -/
theorem Unshown.step {nesting : Nat} {item : Value} (unshown : Unshown slots nesting item f)
    (up : ∀ {depth w}, Within slots depth item w → Within slots (depth + 1) v w) :
    Unshown slots (nesting + 1) v f := by
  cases unshown with
  | digits shallow inside long => exact .digits (Nat.succ_lt_succ shallow) (up inside) long
  | deep inside => exact .deep (up inside)

/-- The induction is on the depth that is still followed. -/
theorem literalWithin_eq_error : ∀ {nesting : Nat} {shown : List Nat} {v : Value},
    literalWithin slots nesting shown v = .error f → Unshown slots nesting v f
  | 0, shown, v, fails => by
    cases fails
    exact .deep (.self v)
  | nesting + 1, shown, v, fails => by
    cases v with
    | none | bool | float | nan | text => cases fails
    | int n =>
      obtain ⟨long, rfl⟩ := decimalText_eq_error fails
      exact .digits (Nat.succ_pos nesting) (.self _) long
    | list mark items =>
      rw [literalWithin] at fails
      split at fails
      · cases fails
      · obtain ⟨item, inside, unshown⟩ := exists_of_mapM_error (error_of_bind_pure fails)
        exact (literalWithin_eq_error unshown).step (.ofList inside)
    | tuple mark items =>
      rw [literalWithin] at fails
      split at fails
      · cases fails
      · obtain ⟨item, inside, unshown⟩ := exists_of_mapM_error (error_of_bind_pure fails)
        exact (literalWithin_eq_error unshown).step (.ofTuple inside)
    | cell slot =>
      have unshown : literalWithin slots nesting shown (slots.getD slot .none) = .error f :=
        error_of_bind_pure fails
      exact (literalWithin_eq_error unshown).step .held

/-- An integer of too many digits has no text. -/
theorem literal_of_long (slots : Array Value) {n : Int} (long : Number.decimalBound ≤ n.natAbs) :
    (Value.int n).literal slots = .error (.tooManyDigits Option.none) := by
  rw [literal, maxNesting, literalWithin]
  exact decimalText_of_long long

/-- A value without a text has one of the two reasons for it inside. -/
theorem literal_eq_error (fails : v.literal slots = .error f) : Unshown slots maxNesting v f :=
  literalWithin_eq_error fails

/-- A fault that quotes a value is the one that was meant, or says that there is no text. -/
theorem quoting_cases (slots : Array Value) (v : Value) (fault : String → Fault) :
    (∃ shown, v.literal slots = .ok shown ∧ v.quoting slots fault = fault shown) ∨
      ∃ f, v.literal slots = .error f ∧ v.quoting slots fault = f ∧
        Unshown slots maxNesting v f := by
  cases text : v.literal slots with
  | ok shown => exact .inl ⟨shown, rfl, by rw [quoting, text]⟩
  | error f => exact .inr ⟨f, rfl, by rw [quoting, text], literal_eq_error text⟩

theorem Unshown.isInterrupt {nesting : Nat} (unshown : Unshown slots nesting v f) :
    f.isInterrupt = false := by
  cases unshown with
  | digits => rfl
  | deep => rfl

/-- To quote a value is no interrupt. -/
theorem isInterrupt_quoting (slots : Array Value) (v : Value) {fault : String → Fault}
    (real : ∀ shown, (fault shown).isInterrupt = false) :
    (v.quoting slots fault).isInterrupt = false := by
  rcases v.quoting_cases slots fault with ⟨shown, -, same⟩ | ⟨f, -, same, unshown⟩
  · rw [same]
    exact real shown
  · rw [same]
    exact unshown.isInterrupt

end Texts

end Value

end ThreadedForth
