import ThreadedForth.Proofs.Move

/-!
# Keeping a cell away

What a slot holds can be read and changed only by someone who has its cell.  The cell is a
value like any other: it can be copied, put into lists and into other slots, and compiled into
code.  But it cannot be made.  Operators put together the parts of their operands, the other
words move values about, and `create` makes the cell of a slot that is new.  So where the cell
of an older slot is nowhere to be found, no word will find it, and none will store into the
slot.

* `Value.Avoids`: the cell is nowhere in the value; `Value.avoids_add` and the like: the
  operators keep it so;
* `Store.Hides`: the cell is neither on the data stack nor in a slot, and
  `Store.Hides.apply` says that primitives keep it so and leave the slot alone;
* `Cell.Avoids`, `Body.Avoids`, `Token.Avoids`: the same for code, words and tokens.

A value that was known before the slot was made avoids its cell (`Value.Known.avoids`).
-/

namespace ThreadedForth

/-! ## Values -/

namespace Value

variable {k mark : Nat} {a b v : Value}

mutual

/-- The cell of the slot `k` is nowhere in the value. -/
def Avoids (k : Nat) : Value → Prop
  | list _ items => AvoidsAll k items
  | tuple _ items => AvoidsAll k items
  | cell slot => slot ≠ k
  | _ => True

/-- The cell of the slot `k` is nowhere in the values. -/
def AvoidsAll (k : Nat) : List Value → Prop
  | [] => True
  | v :: rest => Avoids k v ∧ AvoidsAll k rest

end

theorem avoidsAll_iff {values : List Value} : AvoidsAll k values ↔ ∀ v ∈ values, v.Avoids k := by
  induction values with
  | nil => simp [AvoidsAll]
  | cons v rest ih => simp [AvoidsAll, ih]

@[simp] theorem avoids_none : none.Avoids k := trivial

@[simp] theorem avoids_bool (p : Bool) : (bool p).Avoids k := trivial

@[simp] theorem avoids_int (n : Int) : (int n).Avoids k := trivial

@[simp] theorem avoids_float (x : Float) : (float x).Avoids k := trivial

@[simp] theorem avoids_nan (mark : Nat) : (nan mark).Avoids k := trivial

@[simp] theorem avoids_text (s : String) : (text s).Avoids k := trivial

@[simp] theorem avoids_list {items : List Value} :
    (list mark items).Avoids k ↔ ∀ v ∈ items, v.Avoids k := avoidsAll_iff

@[simp] theorem avoids_tuple {items : List Value} :
    (tuple mark items).Avoids k ↔ ∀ v ∈ items, v.Avoids k := avoidsAll_iff

@[simp] theorem avoids_cell {slot : Nat} : (cell slot).Avoids k ↔ slot ≠ k := .rfl

mutual

/-- What was known while there was no such slot avoids its cell. -/
theorem Known.avoids {c : Bounds} (fresh : c.slots ≤ k) : ∀ {v : Value}, v.Known c → v.Avoids k
  | list _ _, h => by
    simp only [Known] at h
    simp only [Avoids]
    exact KnownAll.avoids fresh h.2
  | tuple _ _, h => by
    simp only [Known] at h
    simp only [Avoids]
    exact KnownAll.avoids fresh h.2
  | cell _, h => avoids_cell.mpr (Nat.ne_of_lt (Nat.lt_of_lt_of_le (known_cell.mp h) fresh))
  | none, _ | bool _, _ | int _, _ | float _, _ | nan _, _ | text _, _ => by simp

theorem KnownAll.avoids {c : Bounds} (fresh : c.slots ≤ k) :
    ∀ {values : List Value}, KnownAll c values → AvoidsAll k values
  | [], _ => trivial
  | _ :: _, h => ⟨Known.avoids fresh h.1, KnownAll.avoids fresh h.2⟩

end

/-- What a value is made of avoids what the value avoids. -/
theorem Avoids.items {values : List Value} (avoids : v.Avoids k) (items : v.items? = some values) :
    ∀ w ∈ values, w.Avoids k := by
  unfold items? at items
  split at items
  · cases items
    exact avoids_list.mp avoids
  · cases items
    exact avoids_tuple.mp avoids
  · cases items
    intro w inside
    obtain ⟨c, -, rfl⟩ := List.mem_map.mp inside
    exact avoids_text _
  · cases items

/-! ### Operators -/

theorem avoids_ofFloat (mark : Nat) (x : Float) : (ofFloat mark x).Avoids k := by
  unfold ofFloat
  split <;> simp

/-- An operator on numbers makes numbers. -/
theorem avoids_onNumbers {operator : String} {onInts : Int → Int → Except Fault Value}
    {onFloats : Float → Float → Except Fault Value}
    (ints : ∀ m n v, onInts m n = .ok v → v.Avoids k)
    (floats : ∀ x y v, onFloats x y = .ok v → v.Avoids k)
    (h : onNumbers operator onInts onFloats a b = .ok v) : v.Avoids k := by
  unfold onNumbers at h
  split at h
  · next x y _ _ =>
    unfold onScalars at h
    split at h
    · exact ints _ _ v h
    · obtain ⟨_, -, made⟩ := exists_of_bind_ok h
      exact floats _ _ v made
    · obtain ⟨_, -, made⟩ := exists_of_bind_ok h
      exact floats _ _ v made
    · exact floats _ _ v h
  · cases h

/-- An operator that is defined on all numbers. -/
theorem avoids_onAllNumbers {operator : String} {f : Int → Int → Int} {g : Float → Float → Float}
    (h : onNumbers operator (fun m n => .ok (.int (f m n))) (fun x y => .ok (ofFloat mark (g x y)))
      a b = .ok v) : v.Avoids k := by
  refine avoids_onNumbers ?_ ?_ h
  · rintro m n v ⟨⟩
    exact avoids_int _
  · rintro x y v ⟨⟩
    exact avoids_ofFloat _ _

theorem avoids_add (first : a.Avoids k) (second : b.Avoids k) (h : add mark a b = .ok v) :
    v.Avoids k := by
  unfold add at h
  split at h
  · cases h
    exact avoids_text _
  · cases h
    rw [avoids_list] at *
    exact List.forall_mem_append.mpr ⟨first, second⟩
  · cases h
    unfold joinTuples
    rw [avoids_tuple] at first second
    split
    · exact avoids_tuple.mpr second
    · exact avoids_tuple.mpr first
    · exact avoids_tuple.mpr (List.forall_mem_append.mpr ⟨first, second⟩)
  · split at h
    · cases h
    · cases h
    · cases h
    · exact avoids_onAllNumbers h

theorem avoids_sub (h : sub mark a b = .ok v) : v.Avoids k := avoids_onAllNumbers h

theorem mem_of_mem_repeatItems {items : List Value} {n : Nat} (inside : v ∈ repeatItems items n) :
    v ∈ items := by
  induction n with
  | zero => cases inside
  | succ n ih =>
    have split : v ∈ items ++ repeatItems items n := inside
    rcases List.mem_append.mp split with own | more
    · exact own
    · exact ih more

theorem avoids_repeatBy {n : Int} (own : a.Avoids k) (h : repeatBy mark n a = .ok v) :
    v.Avoids k := by
  unfold repeatBy at h
  split at h
  · obtain ⟨count, -, made⟩ := exists_of_bind_ok h
    cases made
    exact avoids_text _
  · obtain ⟨count, -, made⟩ := exists_of_bind_ok h
    cases made
    rw [avoids_list] at *
    exact fun w inside => own w (mem_of_mem_repeatItems inside)
  · obtain ⟨count, -, made⟩ := exists_of_bind_ok h
    cases made
    rw [avoids_tuple] at *
    exact fun w inside => own w (mem_of_mem_repeatItems inside)
  · cases h

theorem avoids_repeatByValue (own : a.Avoids k) (h : repeatByValue mark a b = .ok v) :
    v.Avoids k := by
  unfold repeatByValue at h
  split at h
  · exact avoids_repeatBy own h
  · cases h

theorem avoids_mul (first : a.Avoids k) (second : b.Avoids k) (h : mul mark a b = .ok v) :
    v.Avoids k := by
  unfold mul at h
  split at h
  · exact avoids_repeatByValue first h
  · split at h
    · exact avoids_repeatByValue second h
    · exact avoids_onAllNumbers h

theorem avoids_div (h : div mark a b = .ok v) : v.Avoids k := by
  refine avoids_onNumbers ?_ ?_ h
  · intro m n v made
    unfold divInts at made
    split at made
    · cases made
    · split at made
      · cases made
        exact avoids_int _
      · split at made
        · cases made
          exact avoids_float _
        · cases made
  · intro x y v made
    unfold divFloats at made
    split at made
    · cases made
    · cases made
      exact avoids_ofFloat _ _

theorem avoids_mod {slots : Array Value} (h : mod slots mark a b = .ok v) : v.Avoids k := by
  unfold mod at h
  split at h
  · obtain ⟨filled, -, made⟩ := exists_of_bind_ok h
    cases made
    exact avoids_text _
  · refine avoids_onNumbers ?_ ?_ h
    · intro m n v made
      unfold modInts at made
      split at made
      · cases made
      · cases made
        exact avoids_int _
    · intro x y v made
      unfold modFloats at made
      split at made
      · cases made
      · cases made
        exact avoids_ofFloat _ _

theorem avoids_negate (h : negate mark a = .ok v) : v.Avoids k := by
  unfold negate at h
  split at h
  · cases h
    exact avoids_int _
  · cases h
    exact avoids_ofFloat _ _
  · cases h

end Value

/-! ## The store -/

namespace Store

/-- The cell of the slot `k` is neither on the data stack nor in a slot. -/
structure Hides (k : Nat) (s : Store) : Prop where
  stack : ∀ v ∈ s.stack.items, v.Avoids k
  slots : ∀ v ∈ s.slots, v.Avoids k

/-- The store `t` comes from `s` by work that leaves the cell away and the slot alone. -/
structure Guards (k : Nat) (s t : Store) : Prop where
  hides : t.Hides k
  slot : t.slots[k]? = s.slots[k]?

variable {k : Nat} {s t : Store}

theorem Hides.refl (hides : s.Hides k) : s.Guards k s := ⟨hides, rfl⟩

/-- Work on the data stack alone. -/
theorem Hides.restack {stack : Stack Value} (hides : s.Hides k)
    (avoid : ∀ v ∈ stack.items, v.Avoids k) : s.Guards k { s with stack := stack } :=
  ⟨⟨avoid, hides.slots⟩, rfl⟩

theorem Hides.tell (hides : s.Hides k) (u : Utterance) : s.Guards k (s.tell u) :=
  ⟨⟨hides.stack, hides.slots⟩, rfl⟩

theorem Hides.take (hides : s.Hides k) (n : Nat) :
    (∀ v ∈ (s.take n).1, v.Avoids k) ∧ s.Guards k (s.take n).2 := by
  refine ⟨fun v inside => ?_, hides.restack fun v inside => ?_⟩
  · rw [Store.take, Stack.take, List.mem_reverse] at inside
    exact hides.stack v (List.mem_of_mem_take inside)
  · exact hides.stack v (List.mem_of_mem_drop inside)

theorem Hides.pushAll {values : List Value} (hides : s.Hides k)
    (avoid : ∀ v ∈ values, v.Avoids k) : s.Guards k (s.pushAll values) := by
  refine hides.restack fun v inside => ?_
  rw [Stack.items_pushAll, List.mem_append, List.mem_reverse] at inside
  exact inside.elim (avoid v) (hides.stack v)

theorem Hides.items_getD (hides : s.Hides k) (i : Nat) :
    (s.stack.items.getD i .none).Avoids k := by
  rw [List.getD_eq_getElem?_getD]
  cases found : s.stack.items[i]? with
  | none => exact Value.avoids_none
  | some v => exact hides.stack v (List.mem_of_getElem? found)

theorem Hides.getD (hides : s.Hides k) (slot : Nat) : (s.slots.getD slot .none).Avoids k := by
  rw [Array.getD_eq_getD_getElem?]
  cases found : s.slots[slot]? with
  | none => exact Value.avoids_none
  | some v => exact hides.slots v (Array.mem_of_getElem? found)

theorem Hides.swap (hides : s.Hides k) (h : s.swap = .ok t) : s.Guards k t := by
  unfold Store.swap at h
  split at h
  · next b a rest taken =>
    cases h
    have items : s.stack.items = a :: b :: rest.items := by
      have restored := s.stack.pushAll_of_take 2
      rw [taken] at restored
      rw [← restored]
      simp
    refine hides.restack fun v inside => hides.stack v ?_
    rw [items]
    simp only [Stack.items_push, List.mem_cons] at inside ⊢
    tauto
  · cases h

theorem Hides.drop (hides : s.Hides k) (h : s.drop = .ok t) : s.Guards k t := by
  unfold Store.drop at h
  split at h
  · next v rest popped =>
    cases h
    refine hides.restack fun w inside => hides.stack w ?_
    rw [Stack.pop?_eq_some_iff.mp popped]
    exact List.mem_cons_of_mem v inside
  · cases h

theorem Hides.gather (hides : s.Hides k) {count : Value} (h : s.gather count = .ok t) :
    s.Guards k t := by
  obtain ⟨n, -, rest⟩ := exists_of_bind_ok h
  obtain ⟨-, -, made⟩ := exists_of_bind_ok rest
  cases made
  obtain ⟨taken, left⟩ := hides.take n
  refine ⟨⟨fun v inside => ?_, left.hides.slots⟩, rfl⟩
  rcases List.mem_cons.mp inside with rfl | inside
  · exact Value.avoids_list.mpr taken
  · exact left.hides.stack v inside

theorem Hides.spread (hides : s.Hides k) (h : s.spread = .ok t) : s.Guards k t := by
  have spreads : ∀ {v : Value} {items : List Value} {rest : Stack Value},
      s.stack.pop? = some (v, rest) → (v.Avoids k → ∀ w ∈ items, w.Avoids k) →
      s.Guards k { s with stack := rest.pushAll items } := by
    intro v items rest popped avoid
    have stack := Stack.pop?_eq_some_iff.mp popped
    refine hides.restack fun w inside => ?_
    rw [Stack.items_pushAll, List.mem_append, List.mem_reverse] at inside
    rcases inside with own | below
    · exact avoid (hides.stack v (stack ▸ List.mem_cons_self)) w own
    · exact hides.stack w (stack ▸ List.mem_cons_of_mem v below)
  unfold Store.spread at h
  split at h
  · next mark items rest popped =>
    cases h
    exact spreads popped Value.avoids_list.mp
  · next mark items rest popped =>
    cases h
    exact spreads popped Value.avoids_tuple.mp
  · cases h
  · cases h

theorem Hides.pluck (hides : s.Hides k) {index v : Value} (h : s.pluck index = .ok (v, t)) :
    v.Avoids k ∧ s.Guards k t := by
  obtain ⟨i, -, rest⟩ := exists_of_bind_ok h
  obtain ⟨-, -, made⟩ := exists_of_bind_ok rest
  cases made
  refine ⟨hides.items_getD i, hides.restack fun w inside => hides.stack w ?_⟩
  exact List.mem_of_mem_eraseIdx inside

/-- Without the cell nothing is stored into the slot. -/
theorem Hides.store (hides : s.Hides k) {v target : Value} (own : v.Avoids k)
    (other : target.Avoids k) (h : s.store v target = .ok t) : s.Guards k t := by
  unfold Store.store at h
  split at h
  · next slot =>
    cases h
    refine ⟨⟨hides.stack, fun w inside => ?_⟩, ?_⟩
    · rcases Array.mem_or_eq_of_mem_setIfInBounds inside with old | rfl
      · exact hides.slots w old
      · exact own
    · exact Array.getElem?_setIfInBounds_ne (Value.avoids_cell.mp other)
  · cases h

/-- A new word has another cell. -/
theorem Hides.create (hides : s.Hides k) (old : k < s.slots.size) {name v : Value}
    (h : s.create name = .ok (v, t)) : v.Avoids k ∧ s.Guards k t := by
  obtain ⟨valid, checked, -⟩ := exists_of_bind_ok h
  obtain ⟨rfl, allowed⟩ := Store.checkName_eq_ok checked
  obtain ⟨notes, created⟩ := s.create_eq allowed
  cases h.symm.trans created
  refine ⟨Value.avoids_cell.mpr (Nat.ne_of_gt old), ⟨hides.stack, fun w inside => ?_⟩, ?_⟩
  · rcases Array.mem_push.mp inside with own | rfl
    · exact hides.slots w own
    · exact Value.avoids_none
  · exact (Array.getElem?_push_lt old).trans (Array.getElem?_eq_getElem old).symm

theorem Hides.compute (hides : s.Hides k) {value : Nat → Except Fault Value} {v : Value}
    (made : ∀ u, value s.nextMark = .ok u → u.Avoids k) (h : s.compute value = .ok (v, t)) :
    v.Avoids k ∧ s.Guards k t := by
  obtain ⟨u, computed, ends⟩ := exists_of_bind_ok h
  cases ends
  exact ⟨made _ computed, ⟨hides.stack, hides.slots⟩, rfl⟩

/-- A primitive that does not get the cell leaves it away. -/
theorem Hides.apply (hides : s.Hides k) (old : k < s.slots.size) {here : Nat} {p : Primitive}
    {arguments : List Value} {v : Value} (avoid : ∀ a ∈ arguments, a.Avoids k)
    (fixed : ∀ u, p = .constant u → u.Avoids k)
    (h : p.apply here arguments s = .ok (v, t)) : v.Avoids k ∧ s.Guards k t := by
  have silent : ∀ {work : Except Fault Store}, (∀ u, work = .ok u → s.Guards k u) →
      (do return Primitive.silent (← work)) = .ok (v, t) → v.Avoids k ∧ s.Guards k t := by
    intro work guards h
    obtain ⟨u, done, made⟩ := exists_of_bind_ok h
    cases made
    exact ⟨Value.avoids_none, guards _ done⟩
  have told : ∀ {work : Except Fault String} {text : String → String},
      (do return Primitive.silent (s.write (text (← work)))) = .ok (v, t) →
      v.Avoids k ∧ s.Guards k t := by
    intro work text h
    obtain ⟨u, done, made⟩ := exists_of_bind_ok h
    cases made
    exact ⟨Value.avoids_none, hides.tell _⟩
  unfold Primitive.apply at h
  split at h
  case h_28 => cases h
  case h_1 => exact silent (fun _ => hides.swap) h
  case h_2 => exact silent (fun _ => hides.drop) h
  case h_3 => exact silent (fun _ => hides.gather) h
  case h_4 => exact silent (fun _ => hides.spread) h
  case h_5 => exact hides.pluck h
  case h_6 =>
    obtain ⟨u, picked, made⟩ := exists_of_bind_ok h
    obtain ⟨i, -, rest⟩ := exists_of_bind_ok picked
    obtain ⟨-, -, found⟩ := exists_of_bind_ok rest
    cases found
    cases made
    exact ⟨hides.items_getD i, hides.refl⟩
  case h_7 =>
    cases h
    exact ⟨Value.avoids_int _, hides.refl⟩
  case h_8 =>
    cases h
    exact ⟨Value.avoids_none, hides.restack nofun⟩
  case h_9 =>
    refine silent (fun u defined => ?_) h
    obtain ⟨name, -, -, rfl⟩ := Store.define_eq_ok defined
    exact ⟨⟨hides.stack, hides.slots⟩, rfl⟩
  case h_10 =>
    obtain ⟨u, loaded, made⟩ := exists_of_bind_ok h
    cases made
    unfold Store.load at loaded
    split at loaded
    · cases loaded
      exact ⟨hides.getD _, hides.refl⟩
    · cases loaded
  case h_11 => exact silent (fun _ => hides.store (avoid _ (by simp)) (avoid _ (by simp))) h
  case h_12 => exact hides.create old h
  case h_13 =>
    exact hides.compute (fun _ => Value.avoids_add (avoid _ (by simp)) (avoid _ (by simp))) h
  case h_14 => exact hides.compute (fun _ => Value.avoids_sub) h
  case h_15 =>
    exact hides.compute (fun _ => Value.avoids_mul (avoid _ (by simp)) (avoid _ (by simp))) h
  case h_16 => exact hides.compute (fun _ => Value.avoids_div) h
  case h_17 => exact hides.compute (fun _ => Value.avoids_mod) h
  case h_18 => exact hides.compute (fun _ => Value.avoids_negate) h
  case h_19 =>
    cases h
    exact ⟨Value.avoids_bool _, hides.refl⟩
  case h_20 =>
    obtain ⟨u, compared, made⟩ := exists_of_bind_ok h
    cases made
    exact ⟨Value.avoids_bool _, hides.refl⟩
  case h_21 =>
    cases h
    exact ⟨Value.avoids_none, hides.refl⟩
  case h_22 | h_23 | h_26 => exact told h
  case h_24 =>
    cases h
    exact ⟨Value.avoids_none, hides.tell _⟩
  case h_25 =>
    refine silent (fun u emitted => ?_) h
    obtain ⟨code, -, rest⟩ := exists_of_bind_ok emitted
    cases rest
    exact hides.tell _
  case h_27 u =>
    cases h
    exact ⟨fixed _ rfl, hides.refl⟩

end Store

/-! ## Code, words and tokens -/

/-- The cell of the slot `k` is nowhere in the values of the code cell. -/
def Cell.Avoids (k : Nat) : Cell → Prop
  | .literal values => ∀ v ∈ values, v.Avoids k
  | .foreign items => ∀ v ∈ items, v.Avoids k
  | _ => True

/-- The cell of the slot `k` is not to be had from the body of the word. -/
def Body.Avoids (k : Nat) : Body → Prop
  | .native n => ∀ v, n.action = .primitive (.constant v) → v.Avoids k
  | .colon _ => True
  | .created slot behavior => slot ≠ k ∧ behavior.Avoids k

/-- The cell of the slot `k` is nowhere in the values of the token. -/
def Token.Avoids (k : Nat) : Token → Prop
  | .datum v => v.Avoids k
  | .batch values => ∀ v ∈ values, v.Avoids k
  | .word _ | .malformed _ => True

variable {k : Nat} {c : Bounds}

theorem Cell.Known.avoids {cell : Cell} (fresh : c.slots ≤ k) (known : cell.Known c) :
    cell.Avoids k := by
  cases cell with
  | literal values => exact fun v inside => (known v inside).avoids fresh
  | foreign items => exact fun v inside => (known v inside).avoids fresh
  | _ => trivial

theorem Body.Known.avoids {body : Body} (fresh : c.slots ≤ k) (known : body.Known c) :
    body.Avoids k := by
  cases body with
  | native n => exact fun v same => (known v same).avoids fresh
  | colon address => trivial
  | created slot behavior =>
    exact ⟨Nat.ne_of_lt (Nat.lt_of_lt_of_le known.1 fresh), known.2.avoids fresh⟩

theorem Token.Known.avoids {token : Token} (fresh : c.slots ≤ k) (known : token.Known c) :
    token.Avoids k := by
  cases token with
  | datum v => exact Value.Known.avoids fresh known
  | batch values => exact fun v inside => (known v inside).avoids fresh
  | _ => trivial

/-- Literals are joined to cells that avoid the same. -/
theorem Cell.avoids_openValues {cell : Cell} {values all : List Value} (own : cell.Avoids k)
    (added : ∀ v ∈ values, v.Avoids k) (joined : cell.openValues values = .ok (some all)) :
    ∀ v ∈ all, v.Avoids k := by
  unfold Cell.openValues at joined
  split at joined
  · cases joined
    exact List.forall_mem_append.mpr ⟨own, added⟩
  · cases joined
  · cases joined
  · next v rest =>
    have row := own v (by simp)
    split at joined
    · cases joined
      exact List.forall_mem_append.mpr ⟨Value.avoids_tuple.mp row, added⟩
    · cases joined
    · cases joined
    · cases joined
  · cases joined

/-! ### Copies -/

namespace Value

open Marking

mutual

/-- A copy has the same cells in it. -/
theorem avoids_copy (slots : Nat) : ∀ {v : Value}, v.Avoids k →
    Makes slots (fun _ own => own.Avoids k) (copy slots v)
  | nan _, _ => by
    rw [copy]
    exact .andThen makes_takeMark fun mark => .pure fun _ => avoids_nan mark
  | list _ items, h => by
    rw [copy]
    refine .andThen makes_takeMark fun mark => ?_
    refine .bind (fun _ _ _ _ => id) (avoids_copyAll slots (avoids_list.mp h)) fun own => ?_
    exact .pure fun _ => avoids_list.mpr
  | tuple _ items, h => by
    rw [copy]
    refine .andThen makes_takeMark fun mark => ?_
    refine .bind (fun _ _ _ _ => id) (avoids_copyAll slots (avoids_tuple.mp h)) fun own => ?_
    exact .pure fun _ => avoids_tuple.mpr
  | cell slot, h => by
    rw [copy]
    split
    · exact .pure fun _ => h
    · exact .throw
  | none, _ | bool _, _ | int _, _ | float _, _ | text _, _ => by
    rw [copy]
    · exact .pure fun _ => by simp
    all_goals exact nofun

theorem avoids_copyAll (slots : Nat) : ∀ {values : List Value}, (∀ v ∈ values, v.Avoids k) →
    Makes slots (fun _ own => ∀ v ∈ own, v.Avoids k) (copyAll slots values)
  | [], _ => by
    rw [copyAll]
    exact .pure fun _ => nofun
  | v :: rest, h => by
    rw [List.forall_mem_cons] at h
    rw [copyAll]
    refine .bind (fun _ _ _ _ => id) (avoids_copy slots h.1) fun own => ?_
    refine .bind (fun _ _ _ _ => id) (avoids_copyAll slots h.2) fun others => ?_
    exact .pure fun _ all known => List.forall_mem_cons.mpr ⟨known, all⟩

end

end Value

theorem Token.avoids_copy (slots : Nat) {token : Token} (own : token.Avoids k) :
    Value.Marking.Makes slots (fun _ made => made.Avoids k) (token.copy slots) := by
  cases token with
  | word name => exact .pure fun _ => trivial
  | datum v =>
    exact .bind (fun _ _ _ _ => id) (Value.avoids_copy slots own) fun _ => .pure fun _ => id
  | batch values =>
    exact .bind (fun _ _ _ _ => id) (Value.avoids_copyAll slots own) fun _ => .pure fun _ => id
  | malformed content =>
    exact .andThen (Value.makes_copy slots content) fun _ => .pure fun _ => trivial

theorem Token.avoids_copies (slots : Nat) {tokens : List Token}
    (own : ∀ token ∈ tokens, token.Avoids k) :
    Value.Marking.Makes slots (fun _ made => ∀ token ∈ made, token.Avoids k)
      (tokens.mapM (Token.copy slots)) := by
  induction tokens with
  | nil =>
    rw [List.mapM_nil]
    exact .pure fun _ => nofun
  | cons token rest ih =>
    rw [List.forall_mem_cons] at own
    rw [List.mapM_cons]
    refine .bind (fun _ _ _ _ => id) (Token.avoids_copy slots own.1) fun made => ?_
    refine .bind (fun _ _ _ _ => id) (ih own.2) fun others => ?_
    exact .pure fun _ all first => List.forall_mem_cons.mpr ⟨first, all⟩

end ThreadedForth
