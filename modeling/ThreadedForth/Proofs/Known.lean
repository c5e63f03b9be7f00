import ThreadedForth.Proofs.Alike
import ThreadedForth.Proofs.Edit

/-!
# What a machine knows

Marks are handed out in order, and slots are made in order.  So the marks that have been
handed out are those below the next one, and the cells that there are are those below the
number of slots.  A value is *known* (`Value.Known`) when it is made of these.

Whether a value is known can be told by renaming it: it is known exactly when it stays the
same under the renaming that leaves the marks and cells below the bounds alone and moves all
others (`Value.rename_shift`, `Value.known_of_rename_shift`).  So what has been proved about
renaming says as well that operators make known values of known values, with one mark more
(`Value.known_of_operate`).

* `Store.Tidy`: all values on the data stack and in the slots are known;
* `Store.Tidy.apply`: a primitive that begins no definition and stores nothing takes and
  leaves known values, and leaves the slots alone (`Store.Reckons`);
* `Value.makes_copy`, `Token.makes_copy`: what is copied is known when its marks have been
  taken (`Value.Marking.Makes`), whatever it was before;
* `Token.known_tokenize`: what is read from a text is known.
-/

namespace ThreadedForth

/-- How many marks have been handed out, and how many slots there are. -/
structure Bounds where
  marks : Nat
  slots : Nat

namespace Bounds

instance : LE Bounds := ⟨fun b c => b.marks ≤ c.marks ∧ b.slots ≤ c.slots⟩

variable {a b c : Bounds}

theorem le_refl (b : Bounds) : b ≤ b := ⟨Nat.le_refl _, Nat.le_refl _⟩

theorem le_trans (first : a ≤ b) (second : b ≤ c) : a ≤ c :=
  ⟨Nat.le_trans first.1 second.1, Nat.le_trans first.2 second.2⟩

end Bounds

/-- The renaming that leaves everything alone. -/
def Renaming.still : Renaming := ⟨id, id, Function.injective_id, Function.injective_id⟩

mutual

theorem Value.rename_still : ∀ v : Value, v.rename .still = v
  | nan _ | cell _ => by simp [rename, Renaming.still]
  | list _ items => by rw [rename, renameAll_still items]; rfl
  | tuple _ items => by rw [rename, renameAll_still items]; rfl
  | none | bool _ | int _ | float _ | text _ => by simp

theorem Value.renameAll_still : ∀ values : List Value, renameAll .still values = values
  | [] => rfl
  | v :: rest => by rw [renameAll, rename_still v, renameAll_still rest]

end

/-- The renaming that leaves alone what is below the bounds, and moves all other marks and
cells up. -/
def Renaming.shift (b : Bounds) (marks slots : Nat) : Renaming where
  mark k := if k < b.marks then k else k + marks
  cell k := if k < b.slots then k else k + slots
  mark_injective i j same := by
    simp only at same
    split at same <;> split at same <;> omega
  cell_injective i j same := by
    simp only at same
    split at same <;> split at same <;> omega

theorem Renaming.mark_shift_eq_iff {b : Bounds} {k slots : Nat} :
    (shift b 1 slots).mark k = k ↔ k < b.marks := by
  simp only [shift]
  split <;> omega

theorem Renaming.cell_shift_eq_iff {b : Bounds} {k marks : Nat} :
    (shift b marks 1).cell k = k ↔ k < b.slots := by
  simp only [shift]
  split <;> omega

namespace Value

variable {b c : Bounds}

mutual

/-- The marks and cells in a value are below the bounds. -/
def Known (b : Bounds) : Value → Prop
  | nan mark => mark < b.marks
  | list mark items => mark < b.marks ∧ KnownAll b items
  | tuple mark items => mark < b.marks ∧ KnownAll b items
  | cell slot => slot < b.slots
  | _ => True

/-- The marks and cells in the values are below the bounds. -/
def KnownAll (b : Bounds) : List Value → Prop
  | [] => True
  | v :: rest => Known b v ∧ KnownAll b rest

end

theorem knownAll_iff {values : List Value} : KnownAll b values ↔ ∀ v ∈ values, v.Known b := by
  induction values with
  | nil => simp [KnownAll]
  | cons v rest ih => simp [KnownAll, ih]

@[simp] theorem known_none : none.Known b := trivial

@[simp] theorem known_bool (p : Bool) : (bool p).Known b := trivial

@[simp] theorem known_int (n : Int) : (int n).Known b := trivial

@[simp] theorem known_float (x : Float) : (float x).Known b := trivial

@[simp] theorem known_text (s : String) : (text s).Known b := trivial

@[simp] theorem known_nan {mark : Nat} : (nan mark).Known b ↔ mark < b.marks := .rfl

@[simp] theorem known_list {mark : Nat} {items : List Value} :
    (list mark items).Known b ↔ mark < b.marks ∧ ∀ v ∈ items, v.Known b :=
  and_congr_right' knownAll_iff

@[simp] theorem known_tuple {mark : Nat} {items : List Value} :
    (tuple mark items).Known b ↔ mark < b.marks ∧ ∀ v ∈ items, v.Known b :=
  and_congr_right' knownAll_iff

@[simp] theorem known_cell {slot : Nat} : (cell slot).Known b ↔ slot < b.slots := .rfl

mutual

theorem Known.mono (below : b ≤ c) : ∀ {v : Value}, v.Known b → v.Known c
  | nan _, h => by
    rw [known_nan] at *
    exact Nat.lt_of_lt_of_le h below.1
  | list _ items, h => by
    simp only [Known] at *
    exact ⟨Nat.lt_of_lt_of_le h.1 below.1, KnownAll.mono below h.2⟩
  | tuple _ items, h => by
    simp only [Known] at *
    exact ⟨Nat.lt_of_lt_of_le h.1 below.1, KnownAll.mono below h.2⟩
  | cell _, h => by
    rw [known_cell] at *
    exact Nat.lt_of_lt_of_le h below.2
  | none, _ | bool _, _ | int _, _ | float _, _ | text _, _ => by simp

theorem KnownAll.mono (below : b ≤ c) :
    ∀ {values : List Value}, KnownAll b values → KnownAll c values
  | [], _ => trivial
  | _ :: _, h => ⟨Known.mono below h.1, KnownAll.mono below h.2⟩

end

/-- What a known value is made of is known. -/
theorem known_of_items {v : Value} {values : List Value} (known : v.Known b)
    (items : v.items? = some values) : ∀ w ∈ values, w.Known b := by
  unfold items? at items
  split at items
  · cases items
    exact (known_list.mp known).2
  · cases items
    exact (known_tuple.mp known).2
  · cases items
    intro w inside
    obtain ⟨c, -, rfl⟩ := List.mem_map.mp inside
    exact known_text _
  · cases items

/-! ## Known values and renaming -/

section

variable {r q : Renaming}

mutual

/-- Only what is known counts for a known value. -/
theorem rename_congr (marks : ∀ k < b.marks, r.mark k = q.mark k)
    (cells : ∀ k < b.slots, r.cell k = q.cell k) :
    ∀ {v : Value}, v.Known b → v.rename r = v.rename q
  | nan _, h => by rw [rename_nan, rename_nan, marks _ (known_nan.mp h)]
  | list _ items, h => by
    simp only [Known] at h
    rw [rename, rename, marks _ h.1, renameAll_congr marks cells h.2]
  | tuple _ items, h => by
    simp only [Known] at h
    rw [rename, rename, marks _ h.1, renameAll_congr marks cells h.2]
  | cell _, h => by rw [rename_cell, rename_cell, cells _ (known_cell.mp h)]
  | none, _ | bool _, _ | int _, _ | float _, _ | text _, _ => by simp

theorem renameAll_congr (marks : ∀ k < b.marks, r.mark k = q.mark k)
    (cells : ∀ k < b.slots, r.cell k = q.cell k) :
    ∀ {values : List Value}, KnownAll b values → renameAll r values = renameAll q values
  | [], _ => rfl
  | _ :: _, h => by
    rw [renameAll, renameAll, rename_congr marks cells h.1, renameAll_congr marks cells h.2]

end

/-- A known value stays the same under a renaming that leaves what is known alone. -/
theorem rename_of_known (marks : ∀ k < b.marks, r.mark k = k)
    (cells : ∀ k < b.slots, r.cell k = k) {v : Value} (known : v.Known b) : v.rename r = v :=
  (rename_congr (q := .still) marks cells known).trans (rename_still v)

end

theorem rename_shift {v : Value} (known : v.Known b) (marks slots : Nat) :
    v.rename (.shift b marks slots) = v :=
  rename_of_known (fun _ low => if_pos low) (fun _ low => if_pos low) known

theorem map_rename_shift {values : List Value} (known : ∀ v ∈ values, v.Known b)
    (marks slots : Nat) : values.map (rename (.shift b marks slots)) = values :=
  (List.map_congr_left fun v inside => rename_shift (known v inside) marks slots).trans
    (List.map_id values)

mutual

/-- A value that stays the same when everything else is moved is known. -/
theorem known_of_rename_shift : ∀ {v : Value}, v.rename (.shift b 1 1) = v → v.Known b
  | nan mark, h => by
    rw [rename, nan.injEq, Renaming.mark_shift_eq_iff] at h
    exact known_nan.mpr h
  | list mark items, h => by
    rw [rename, list.injEq, Renaming.mark_shift_eq_iff] at h
    simp only [Known]
    exact ⟨h.1, knownAll_of_renameAll_shift h.2⟩
  | tuple mark items, h => by
    rw [rename, tuple.injEq, Renaming.mark_shift_eq_iff] at h
    simp only [Known]
    exact ⟨h.1, knownAll_of_renameAll_shift h.2⟩
  | cell slot, h => by
    rw [rename, cell.injEq, Renaming.cell_shift_eq_iff] at h
    exact known_cell.mpr h
  | none, _ | bool _, _ | int _, _ | float _, _ | text _, _ => by simp

theorem knownAll_of_renameAll_shift : ∀ {values : List Value},
    renameAll (.shift b 1 1) values = values → KnownAll b values
  | [], _ => trivial
  | _ :: _, h => by
    rw [renameAll, List.cons.injEq] at h
    exact ⟨known_of_rename_shift h.1, knownAll_of_renameAll_shift h.2⟩

end

/-- What an operator makes of known values is known, once the mark that it was handed is
counted. -/
theorem known_of_operate (op : Nat → Value → Value → Except Fault Value) {mark slots : Nat}
    {x y v : Value}
    (same : ∀ r : Renaming, (∀ k ≤ mark, r.mark k = k) → (∀ k < slots, r.cell k = k) →
      op (r.mark mark) (x.rename r) (y.rename r) = (op mark x y).map (rename r))
    (first : x.Known ⟨mark, slots⟩) (second : y.Known ⟨mark, slots⟩) (made : op mark x y = .ok v) :
    v.Known ⟨mark + 1, slots⟩ := by
  let r := Renaming.shift ⟨mark + 1, slots⟩ 1 1
  have marks : ∀ k ≤ mark, r.mark k = k := fun k low =>
    Renaming.mark_shift_eq_iff.mpr (Nat.lt_succ_of_le low)
  have cells : ∀ k < slots, r.cell k = k := fun k low => Renaming.cell_shift_eq_iff.mpr low
  have stays : ∀ {u : Value}, u.Known ⟨mark, slots⟩ → u.rename r = u := fun known =>
    rename_of_known (fun k low => marks k (Nat.le_of_lt low)) cells known
  have again := same r marks cells
  rw [marks mark (Nat.le_refl _), stays first, stays second, made] at again
  exact known_of_rename_shift (Except.ok.inj again).symm

end Value

namespace Store

/-- What the store knows. -/
def bounds (s : Store) : Bounds := ⟨s.nextMark, s.slots.size⟩

/-- The values that the store holds are known. -/
structure Tidy (s : Store) : Prop where
  stack : ∀ v ∈ s.stack.items, v.Known s.bounds
  slots : ∀ v ∈ s.slots, v.Known s.bounds

/-- The store `t` comes from `s` by work on the data stack that leaves the slots alone. -/
structure Reckons (s t : Store) : Prop where
  books : s.SameBooks t
  slots : t.slots = s.slots
  marks : s.nextMark ≤ t.nextMark
  stack : ∀ v ∈ t.stack.items, v.Known t.bounds

variable {s t : Store}

theorem Reckons.bounds_le (reckons : s.Reckons t) : s.bounds ≤ t.bounds :=
  ⟨reckons.marks, Nat.le_of_eq reckons.books.size.symm⟩

theorem Tidy.getD (tidy : s.Tidy) (k : Nat) : (s.slots.getD k .none).Known s.bounds := by
  rw [Array.getD_eq_getD_getElem?]
  cases found : s.slots[k]? with
  | none => exact Value.known_none
  | some v => exact tidy.slots v (Array.mem_of_getElem? found)

/-- Known slots are carried by a renaming that leaves what is known alone. -/
theorem Tidy.carries (tidy : s.Tidy) {r : Renaming} (marks : ∀ k < s.nextMark, r.mark k = k)
    (cells : ∀ k < s.slots.size, r.cell k = k) : r.Carries s.slots s.slots := by
  intro k
  by_cases low : k < s.slots.size
  · have known := tidy.slots _ (Array.getElem_mem low)
    rw [cells k low, Array.getElem?_eq_getElem low, Option.map_some,
      Value.rename_of_known marks cells known]
  · -- there are as many cells below as slots, so the others stay above
    have high : s.slots.size ≤ r.cell k := by
      refine Nat.le_of_not_lt fun below => low ?_
      have same := cells _ below
      rw [r.cell_injective same] at below
      exact below
    rw [Array.getElem?_eq_none high, Array.getElem?_eq_none (Nat.le_of_not_lt low)]
    rfl

/-! ## The data stack -/

theorem Tidy.reckons_stack {stack : Stack Value} (known : ∀ v ∈ stack.items, v.Known s.bounds) :
    s.Reckons { s with stack := stack } :=
  ⟨⟨rfl, rfl, rfl, rfl, rfl, rfl, rfl, rfl⟩, rfl, Nat.le_refl _, known⟩

theorem Tidy.reckons_tell (tidy : s.Tidy) (u : Utterance) : s.Reckons (s.tell u) :=
  ⟨s.sameBooks_tell u, rfl, Nat.le_refl _, tidy.stack⟩

theorem bounds_le_advance (s : Store) : s.bounds ≤ s.advance.bounds :=
  ⟨Nat.le_succ _, Nat.le_refl _⟩

theorem Tidy.reckons_advance (tidy : s.Tidy) : s.Reckons s.advance :=
  ⟨⟨rfl, rfl, rfl, rfl, rfl, rfl, rfl, rfl⟩, rfl, Nat.le_succ _, fun v inside =>
    (tidy.stack v inside).mono s.bounds_le_advance⟩

theorem Tidy.refl (tidy : s.Tidy) : s.Reckons s :=
  ⟨.refl s, rfl, Nat.le_refl _, tidy.stack⟩

/-- What is taken off was on the stack, and so was what stays. -/
theorem Tidy.take (tidy : s.Tidy) (n : Nat) :
    (∀ v ∈ (s.take n).1, v.Known s.bounds) ∧ s.Reckons (s.take n).2 := by
  refine ⟨fun v inside => ?_, Tidy.reckons_stack fun v inside => ?_⟩
  · rw [Store.take, Stack.take, List.mem_reverse] at inside
    exact tidy.stack v (List.mem_of_mem_take inside)
  · exact tidy.stack v (List.mem_of_mem_drop inside)

theorem Tidy.items_getD (tidy : s.Tidy) (i : Nat) :
    (s.stack.items.getD i .none).Known s.bounds := by
  rw [List.getD_eq_getElem?_getD]
  cases found : s.stack.items[i]? with
  | none => exact Value.known_none
  | some v => exact tidy.stack v (List.mem_of_getElem? found)

theorem Tidy.swap (tidy : s.Tidy) (h : s.swap = .ok t) : s.Reckons t := by
  unfold Store.swap at h
  split at h
  · next b a rest taken =>
    cases h
    have items : s.stack.items = a :: b :: rest.items := by
      have restored := s.stack.pushAll_of_take 2
      rw [taken] at restored
      rw [← restored]
      simp
    refine Tidy.reckons_stack fun v inside => tidy.stack v ?_
    rw [items]
    simp only [Stack.items_push, List.mem_cons] at inside ⊢
    tauto
  · cases h

theorem Tidy.drop (tidy : s.Tidy) (h : s.drop = .ok t) : s.Reckons t := by
  unfold Store.drop at h
  split at h
  · next v rest popped =>
    cases h
    refine Tidy.reckons_stack fun w inside => tidy.stack w ?_
    rw [Stack.pop?_eq_some_iff.mp popped]
    exact List.mem_cons_of_mem v inside
  · cases h

theorem Tidy.gather (tidy : s.Tidy) {count : Value} (h : s.gather count = .ok t) :
    s.Reckons t := by
  obtain ⟨n, -, rest⟩ := exists_of_bind_ok h
  obtain ⟨-, -, made⟩ := exists_of_bind_ok rest
  cases made
  obtain ⟨taken, left⟩ := tidy.take n
  refine ⟨⟨rfl, rfl, rfl, rfl, rfl, rfl, rfl, rfl⟩, rfl, Nat.le_succ _, fun v inside => ?_⟩
  have more := s.bounds_le_advance
  rcases List.mem_cons.mp inside with rfl | inside
  · exact Value.known_list.mpr ⟨Nat.lt_succ_self _, fun w own => (taken w own).mono more⟩
  · exact (left.stack v inside).mono more

theorem Tidy.spread (tidy : s.Tidy) (h : s.spread = .ok t) : s.Reckons t := by
  have spreads : ∀ {v : Value} {items : List Value} {rest : Stack Value},
      s.stack.pop? = some (v, rest) → (v.Known s.bounds → ∀ w ∈ items, w.Known s.bounds) →
      s.Reckons { s with stack := rest.pushAll items } := by
    intro v items rest popped known
    have stack := Stack.pop?_eq_some_iff.mp popped
    refine Tidy.reckons_stack fun w inside => ?_
    rw [Stack.items_pushAll, List.mem_append, List.mem_reverse] at inside
    rcases inside with own | below
    · exact known (tidy.stack v (stack ▸ List.mem_cons_self)) w own
    · exact tidy.stack w (stack ▸ List.mem_cons_of_mem v below)
  unfold Store.spread at h
  split at h
  · next mark items rest popped =>
    cases h
    exact spreads popped fun known => (Value.known_list.mp known).2
  · next mark items rest popped =>
    cases h
    exact spreads popped fun known => (Value.known_tuple.mp known).2
  · cases h
  · cases h

theorem Tidy.pluck (tidy : s.Tidy) {index v : Value} (h : s.pluck index = .ok (v, t)) :
    v.Known t.bounds ∧ s.Reckons t := by
  obtain ⟨i, -, rest⟩ := exists_of_bind_ok h
  obtain ⟨-, -, made⟩ := exists_of_bind_ok rest
  cases made
  refine ⟨tidy.items_getD i, Tidy.reckons_stack fun w inside => tidy.stack w ?_⟩
  exact List.mem_of_mem_eraseIdx inside

theorem Tidy.pop (tidy : s.Tidy) {count v : Value} (h : s.pop count = .ok (v, t)) :
    s.Reckons t := by
  obtain ⟨n, -, rest⟩ := exists_of_bind_ok h
  obtain ⟨-, -, made⟩ := exists_of_bind_ok rest
  have left := (tidy.take n).2
  split at made
  · next single rest taken =>
    cases made
    rw [taken] at left
    exact left
  · next values rest _ taken =>
    cases made
    rw [taken] at left
    exact ⟨left.books.trans ⟨rfl, rfl, rfl, rfl, rfl, rfl, rfl, rfl⟩, left.slots,
      Nat.le_succ_of_le left.marks, fun v inside =>
        (left.stack v inside).mono (bounds_le_advance _)⟩

/-! ## Primitives -/

theorem Tidy.compute (tidy : s.Tidy) {value : Nat → Except Fault Value} {v : Value}
    (made : ∀ u, value s.nextMark = .ok u → u.Known ⟨s.nextMark + 1, s.slots.size⟩)
    (h : s.compute value = .ok (v, t)) : v.Known t.bounds ∧ s.Reckons t := by
  obtain ⟨u, computed, ends⟩ := exists_of_bind_ok h
  cases ends
  exact ⟨made _ computed, tidy.reckons_advance⟩

/-- A primitive that begins no definition and stores nothing leaves known values. -/
theorem Tidy.apply (tidy : s.Tidy) {here : Nat} {p : Primitive} {arguments : List Value}
    {v : Value} (calculation : p.IsCalculation) (reads : p ≠ .store)
    (known : ∀ a ∈ arguments, a.Known s.bounds)
    (fixed : ∀ u, p = .constant u → u.Known s.bounds)
    (h : p.apply here arguments s = .ok (v, t)) : v.Known t.bounds ∧ s.Reckons t := by
  have silent : ∀ {work : Except Fault Store}, (∀ u, work = .ok u → s.Reckons u) →
      (do return Primitive.silent (← work)) = .ok (v, t) → v.Known t.bounds ∧ s.Reckons t := by
    intro work reckons h
    obtain ⟨u, done, made⟩ := exists_of_bind_ok h
    cases made
    exact ⟨Value.known_none, reckons _ done⟩
  have told : ∀ {work : Except Fault String} {text : String → String},
      (do return Primitive.silent (s.write (text (← work)))) = .ok (v, t) →
      v.Known t.bounds ∧ s.Reckons t := by
    intro work text h
    obtain ⟨u, done, made⟩ := exists_of_bind_ok h
    cases made
    exact ⟨Value.known_none, tidy.reckons_tell _⟩
  have operate : ∀ (op : Nat → Value → Value → Except Fault Value) {a b : Value},
      a ∈ arguments → b ∈ arguments →
      (∀ r : Renaming, (∀ k ≤ s.nextMark, r.mark k = k) → (∀ k < s.slots.size, r.cell k = k) →
        op (r.mark s.nextMark) (a.rename r) (b.rename r) =
          (op s.nextMark a b).map (Value.rename r)) →
      s.compute (op · a b) = .ok (v, t) → v.Known t.bounds ∧ s.Reckons t := by
    intro op a b first second same h
    refine tidy.compute (fun u made => ?_) h
    exact Value.known_of_operate op same (known a first) (known b second) made
  unfold Primitive.apply at h
  split at h
  case h_9 => exact absurd rfl calculation.1
  case h_11 => exact absurd rfl reads
  case h_12 => exact absurd rfl calculation.2
  case h_28 => cases h
  case h_1 => exact silent (fun _ => tidy.swap) h
  case h_2 => exact silent (fun _ => tidy.drop) h
  case h_3 => exact silent (fun _ => tidy.gather) h
  case h_4 => exact silent (fun _ => tidy.spread) h
  case h_5 => exact tidy.pluck h
  case h_6 =>
    obtain ⟨u, picked, made⟩ := exists_of_bind_ok h
    obtain ⟨i, -, rest⟩ := exists_of_bind_ok picked
    obtain ⟨-, -, found⟩ := exists_of_bind_ok rest
    cases found
    cases made
    exact ⟨tidy.items_getD i, tidy.refl⟩
  case h_7 =>
    cases h
    exact ⟨Value.known_int _, tidy.refl⟩
  case h_8 =>
    cases h
    exact ⟨Value.known_none, Tidy.reckons_stack nofun⟩
  case h_10 =>
    obtain ⟨u, loaded, made⟩ := exists_of_bind_ok h
    cases made
    unfold Store.load at loaded
    split at loaded
    · cases loaded
      exact ⟨tidy.getD _, tidy.refl⟩
    · cases loaded
  case h_13 => exact operate Value.add (by simp) (by simp) (fun _ _ _ => Value.add_rename _ _ _) h
  case h_14 => exact operate Value.sub (by simp) (by simp) (fun _ _ _ => Value.sub_rename _ _ _) h
  case h_15 => exact operate Value.mul (by simp) (by simp) (fun _ _ _ => Value.mul_rename _ _ _) h
  case h_16 => exact operate Value.div (by simp) (by simp) (fun _ _ _ => Value.div_rename _ _ _) h
  case h_17 =>
    refine operate (Value.mod s.slots) (by simp) (by simp) (fun r marks cells => ?_) h
    refine Value.mod_rename ?_ _ _ _
    exact tidy.carries (fun k low => marks k (Nat.le_of_lt low)) cells
  case h_18 a =>
    exact operate (fun mark a _ => Value.negate mark a) (b := a) (by simp) (by simp)
      (fun _ _ _ => Value.negate_rename _ _) h
  case h_19 =>
    cases h
    exact ⟨Value.known_bool _, tidy.refl⟩
  case h_20 =>
    obtain ⟨u, compared, made⟩ := exists_of_bind_ok h
    cases made
    exact ⟨Value.known_bool _, tidy.refl⟩
  case h_21 =>
    cases h
    exact ⟨Value.known_none, tidy.refl⟩
  case h_22 | h_23 | h_26 => exact told h
  case h_24 =>
    cases h
    exact ⟨Value.known_none, tidy.reckons_tell _⟩
  case h_25 =>
    refine silent (fun u emitted => ?_) h
    obtain ⟨code, -, rest⟩ := exists_of_bind_ok emitted
    cases rest
    exact tidy.reckons_tell _
  case h_27 u =>
    cases h
    exact ⟨fixed _ rfl, tidy.refl⟩

end Store

/-! ## Copies -/

/-- What holds within bounds holds within larger ones. -/
def Bounds.Lasting {α : Type} (R : Bounds → α → Prop) : Prop :=
  ∀ b c a, b ≤ c → R b a → R c a

namespace Bounds

variable {α : Type} {R : Bounds → α → Prop}

theorem lasting_mark : Lasting fun b (mark : Nat) => mark < b.marks :=
  fun _ _ _ below low => Nat.lt_of_lt_of_le low below.1

theorem lasting_known : Lasting fun b (v : Value) => v.Known b :=
  fun _ _ _ below known => known.mono below

theorem Lasting.all (lasting : Lasting R) : Lasting fun b (list : List α) => ∀ a ∈ list, R b a :=
  fun _ _ _ below holds a inside => lasting _ _ a below (holds a inside)

end Bounds

namespace Value.Marking

variable {α β : Type} {slots : Nat} {R : Bounds → α → Prop} {Q : Bounds → β → Prop}

/-- The work takes marks in order, and what it makes has the property `R` once these are
counted. -/
def Makes (slots : Nat) (R : Bounds → α → Prop) (work : Marking α) : Prop :=
  ∀ next a last, work.run next = .ok (a, last) → next ≤ last ∧ R ⟨last, slots⟩ a

theorem Makes.pure {a : α} (holds : ∀ b, R b a) : Makes slots R (Pure.pure a) := by
  rintro next a last ⟨⟩
  exact ⟨Nat.le_refl _, holds _⟩

theorem Makes.throw {f : Fault} : Makes slots R (MonadExcept.throw f : Marking α) := by
  rintro next a last ⟨⟩

theorem makes_takeMark : Makes slots (fun b mark => mark < b.marks) takeMark := by
  rintro next a last ⟨⟩
  exact ⟨Nat.le_succ _, Nat.lt_succ_self _⟩

/-- What was made first still has its property when the rest is made. -/
theorem Makes.bind {work : Marking α} {further : α → Marking β} (lasting : Bounds.Lasting R)
    (first : Makes slots R work)
    (second : ∀ a, Makes slots (fun b c => R b a → Q b c) (further a)) :
    Makes slots Q (work >>= further) := by
  intro next c last h
  obtain ⟨a, middle, made, rest⟩ := exists_of_bind h
  obtain ⟨before, holds⟩ := first next a middle made
  obtain ⟨after, ends⟩ := second a middle c last rest
  have below : (⟨middle, slots⟩ : Bounds) ≤ ⟨last, slots⟩ := ⟨after, Nat.le_refl _⟩
  exact ⟨Nat.le_trans before after, ends (lasting _ _ a below holds)⟩

/-- Where the rest does not depend on what was made first, it is enough that marks are taken
in order. -/
theorem Makes.andThen {work : Marking α} {further : α → Marking β} (first : Makes slots R work)
    (second : ∀ a, Makes slots Q (further a)) : Makes slots Q (work >>= further) := by
  intro next c last h
  obtain ⟨a, middle, made, rest⟩ := exists_of_bind h
  obtain ⟨after, holds⟩ := second a middle c last rest
  exact ⟨Nat.le_trans (first next a middle made).1 after, holds⟩

theorem Makes.mapM {g : β → Marking α} (items : List β) (lasting : Bounds.Lasting R)
    (each : ∀ item, Makes slots R (g item)) :
    Makes slots (fun b made => ∀ a ∈ made, R b a) (items.mapM g) := by
  induction items with
  | nil =>
    rw [List.mapM_nil]
    exact .pure fun _ => nofun
  | cons item rest ih =>
    rw [List.mapM_cons]
    refine .bind lasting (each item) fun a => ?_
    refine .bind lasting.all ih fun others => ?_
    exact .pure fun b all own => List.forall_mem_cons.mpr ⟨own, all⟩

end Value.Marking

namespace Value

open Marking Bounds

mutual

/-- A copy is known. -/
theorem makes_copy (slots : Nat) :
    ∀ v : Value, Makes slots (fun b own => own.Known b) (copy slots v)
  | nan _ => by
    rw [copy]
    exact .bind lasting_mark makes_takeMark fun mark => .pure fun b => known_nan.mpr
  | list _ items => by
    rw [copy]
    refine .bind lasting_mark makes_takeMark fun mark => ?_
    refine .bind lasting_known.all (makes_copyAll slots items) fun own => ?_
    exact .pure fun b all low => known_list.mpr ⟨low, all⟩
  | tuple _ items => by
    rw [copy]
    refine .bind lasting_mark makes_takeMark fun mark => ?_
    refine .bind lasting_known.all (makes_copyAll slots items) fun own => ?_
    exact .pure fun b all low => known_tuple.mpr ⟨low, all⟩
  | cell slot => by
    rw [copy]
    split
    · next low =>
      rintro next v last ⟨⟩
      exact ⟨Nat.le_refl _, known_cell.mpr low⟩
    · exact .throw
  | none | bool _ | int _ | float _ | text _ => by
    rw [copy]
    · exact .pure fun b => by simp
    all_goals exact nofun

theorem makes_copyAll (slots : Nat) : ∀ values : List Value,
    Makes slots (fun b own => ∀ v ∈ own, v.Known b) (copyAll slots values)
  | [] => by
    rw [copyAll]
    exact .pure fun _ => nofun
  | v :: rest => by
    rw [copyAll]
    refine .bind lasting_known (makes_copy slots v) fun own => ?_
    refine .bind lasting_known.all (makes_copyAll slots rest) fun others => ?_
    exact .pure fun b all known => List.forall_mem_cons.mpr ⟨known, all⟩

end

end Value

/-! ## Tokens -/

namespace Token

/-- The values that the token carries are known. -/
def Known (b : Bounds) : Token → Prop
  | datum v => v.Known b
  | batch values => ∀ v ∈ values, v.Known b
  | word _ | malformed _ => True

theorem Known.mono {b c : Bounds} (below : b ≤ c) {token : Token} (known : token.Known b) :
    token.Known c := by
  cases token with
  | datum v => exact Value.Known.mono below known
  | batch values => exact fun v inside => (known v inside).mono below
  | _ => trivial

theorem lasting_known : Bounds.Lasting fun b (token : Token) => token.Known b :=
  fun _ _ _ below known => known.mono below

theorem makes_copy (slots : Nat) (token : Token) :
    Value.Marking.Makes slots (fun b own => own.Known b) (token.copy slots) := by
  cases token with
  | word name => exact .pure fun _ => trivial
  | datum v =>
    exact .bind Bounds.lasting_known (Value.makes_copy slots v) fun _ => .pure fun _ => id
  | batch values =>
    exact .bind Bounds.lasting_known.all (Value.makes_copyAll slots values)
      fun _ => .pure fun _ => id
  | malformed content =>
    exact .bind Bounds.lasting_known (Value.makes_copy slots content)
      fun _ => .pure fun _ _ => trivial

/-- What is read from a source text has no marks and no cells. -/
theorem known_ofLexemes (b : Bounds) {naming : Bool} {lexemes : List Lexeme} {tokens : List Token}
    (h : ofLexemes naming lexemes = .ok tokens) : ∀ token ∈ tokens, token.Known b := by
  have texts : ∀ content, (ofText content).Known b := by
    intro content v inside
    rw [List.mem_singleton.mp inside]
    exact Value.known_text _
  have bare : ∀ content, (ofBare content).Known b := by
    intro content
    unfold ofBare
    split
    · next number _ =>
      cases number with
      | int n => exact Value.known_int (b := b) n
      | float x => exact Value.known_float (b := b) x
    · trivial
  fun_induction ofLexemes naming lexemes generalizing tokens with
  | case1 => cases h
  | case2 =>
    cases h
    exact List.forall_mem_nil _
  | case3 lexeme rest ih =>
    obtain ⟨others, read, made⟩ := exists_of_bind_ok h
    cases made
    simp only [List.forall_mem_cons]
    exact ⟨texts _, trivial, ih read⟩
  | case4 content rest ih =>
    obtain ⟨others, read, made⟩ := exists_of_bind_ok h
    cases made
    rw [List.forall_mem_cons]
    exact ⟨texts _, ih read⟩
  | case5 rest ih => exact ih h
  | case6 content rest other ih =>
    obtain ⟨others, read, made⟩ := exists_of_bind_ok h
    cases made
    rw [List.forall_mem_cons]
    exact ⟨bare _, ih read⟩

theorem known_tokenize (b : Bounds) {source : String} {tokens : List Token}
    (h : tokenize source = .ok tokens) : ∀ token ∈ tokens, token.Known b :=
  known_ofLexemes b h

end Token
end ThreadedForth
