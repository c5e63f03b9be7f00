import Mathlib.Data.List.InsertIdx
import ThreadedForth.Proofs.Renaming
import ThreadedForth.Proofs.Twin

/-!
# Stores that are alike up to a renaming

The same words are run on two machines that differ in what has happened to them before.  One
of them has handed out more marks, and has more slots.  So what the words leave is not equal.
It is alike (`Store.Alike`): the data stacks and the slots hold the same values up to a
renaming of marks and cells, the marks that will be handed out next are renamed to each
other, and the same has been written since the words began.

Every operation on the store leaves stores that are alike if it is applied to stores that
are, or else it fails on both with the same fault (`Agree`).  The operations of `Store` come
one by one; `Store.Alike.apply` puts them together for the primitives that begin no
definition, and `Machine.callPrimitive_alike` adds the calling convention of native words.

A value that a word has got when it was registered is not renamed when the word is run.  The
renaming has to leave such values alone (`Primitive.Fixed`).
-/

namespace ThreadedForth

variable {r : Renaming}

/-- Two pieces of work end in the same way: both succeed with related results, or both fail
with the same fault. -/
inductive Agree {α β : Type} (Q : α → β → Prop) : Except Fault α → Except Fault β → Prop where
  | ok {a : α} {b : β} (related : Q a b) : Agree Q (.ok a) (.ok b)
  | error (f : Fault) : Agree Q (.error f) (.error f)

namespace Agree

variable {α β γ δ : Type} {Q : α → β → Prop} {P : γ → δ → Prop}

theorem of_eq {work work' : Except Fault α} (same : work' = work) : Agree Eq work work' := by
  rw [same]
  cases work with
  | error f => exact .error f
  | ok a => exact .ok rfl

theorem of_map {work : Except Fault α} {work' : Except Fault β} {g : α → β}
    (same : work' = work.map g) : Agree (fun a b => b = g a) work work' := by
  rw [same]
  cases work with
  | error f => exact .error f
  | ok a => exact .ok rfl

theorem bind {work : Except Fault α} {work' : Except Fault β} {next : α → Except Fault γ}
    {next' : β → Except Fault δ} (first : Agree Q work work')
    (second : ∀ a b, Q a b → Agree P (next a) (next' b)) :
    Agree P (work >>= next) (work' >>= next') := by
  cases first with
  | error f => exact .error f
  | ok related => exact second _ _ related

end Agree

namespace Renaming

/-- A value that is put into a slot is carried along. -/
theorem Carries.set {slots slots' : Array Value} (carries : r.Carries slots slots') (slot : Nat)
    (v : Value) :
    r.Carries (slots.setIfInBounds slot v) (slots'.setIfInBounds (r.cell slot) (v.rename r)) := by
  have bound : r.cell slot < slots'.size ↔ slot < slots.size := by
    rw [← not_iff_not, Nat.not_lt, Nat.not_lt, ← Array.getElem?_eq_none_iff,
      ← Array.getElem?_eq_none_iff, carries slot, Option.map_eq_none_iff]
  intro k
  rw [Array.getElem?_setIfInBounds, Array.getElem?_setIfInBounds]
  by_cases same : slot = k
  · rw [if_pos same, if_pos (congrArg r.cell same)]
    by_cases low : slot < slots.size
    · rw [if_pos low, if_pos (bound.mpr low)]
      rfl
    · rw [if_neg low, if_neg fun low' => low (bound.mp low')]
      rfl
  · rw [if_neg same, if_neg fun eq => same (r.cell_injective eq)]
    exact carries k

end Renaming

namespace Store

/-- The second store has the same data as the first one, up to a renaming.  It takes its
marks from another number on, and what it has written since `earlier'` is what the first one
has written since `earlier`. -/
structure Alike (r : Renaming) (earlier earlier' : List Utterance) (s t : Store) : Prop where
  stack : t.stack.items = s.stack.items.map (Value.rename r)
  slots : r.Carries s.slots t.slots
  marks : ∀ k, t.nextMark + k = r.mark (s.nextMark + k)
  written : ∃ new, s.transcript = new ++ earlier ∧ t.transcript = new ++ earlier'

namespace Alike

variable {earlier earlier' : List Utterance} {s t : Store}
  (alike : s.Alike r earlier earlier' t)

include alike

theorem nextMark : t.nextMark = r.mark s.nextMark := alike.marks 0

theorem depth : t.stack.depth = s.stack.depth := by
  rw [t.stack.depth_eq, s.stack.depth_eq, alike.stack, List.length_map]

theorem restack {as bs : Stack Value} (stack : bs.items = as.items.map (Value.rename r)) :
    Alike r earlier earlier' { s with stack := as } { t with stack := bs } :=
  ⟨stack, alike.slots, alike.marks, alike.written⟩

theorem push (v : Value) : (s.push v).Alike r earlier earlier' (t.push (v.rename r)) :=
  alike.restack (by simp [alike.stack])

theorem pushAll (values : List Value) :
    (s.pushAll values).Alike r earlier earlier' (t.pushAll (values.map (Value.rename r))) :=
  alike.restack (by simp [alike.stack])

/-- What is taken off is alike, and so is what stays. -/
theorem take (n : Nat) :
    (t.take n).1 = (s.take n).1.map (Value.rename r) ∧
      (s.take n).2.Alike r earlier earlier' (t.take n).2 := by
  refine ⟨?_, alike.restack ?_⟩
  · simp [Store.take, Stack.take, alike.stack]
  · simp [alike.stack]

theorem advance : s.advance.Alike r earlier earlier' t.advance := by
  refine ⟨alike.stack, alike.slots, fun k => ?_, alike.written⟩
  have later := alike.marks (1 + k)
  rw [← Nat.add_assoc, ← Nat.add_assoc] at later
  exact later

theorem tell (u : Utterance) : (s.tell u).Alike r earlier earlier' (t.tell u) := by
  obtain ⟨new, first, second⟩ := alike.written
  refine ⟨alike.stack, alike.slots, alike.marks, u :: new, ?_, ?_⟩
  · simp [Store.tell, first]
  · simp [Store.tell, second]

theorem quoting (v : Value) (fault : String → Fault) :
    (v.rename r).quoting t.slots fault = v.quoting s.slots fault :=
  Value.quoting_rename alike.slots v fault

/-! ### The data stack -/

theorem readCount (word : String) (v : Value) :
    t.readCount word (v.rename r) = s.readCount word v := by
  have quoted := alike.quoting v
  cases v with
  | int n =>
    simp only [Value.rename_int] at quoted ⊢
    simp only [Store.readCount, quoted]
  | _ => simp_all [Store.readCount]

theorem require (needed : Nat) (word : Option String) :
    t.require needed word = s.require needed word := by
  simp only [Store.require, alike.depth]

theorem getD (i : Nat) :
    t.stack.items.getD i .none = (s.stack.items.getD i .none).rename r := by
  rw [List.getD_eq_getElem?_getD, List.getD_eq_getElem?_getD, alike.stack, List.getElem?_map]
  cases s.stack.items[i]? with
  | none => simp
  | some v => rfl

theorem pop? :
    (s.stack.pop? = none ∧ t.stack.pop? = none) ∨
      ∃ v rest rest', s.stack.pop? = some (v, rest) ∧ t.stack.pop? = some (v.rename r, rest') ∧
        rest'.items = rest.items.map (Value.rename r) := by
  cases popped : s.stack.pop? with
  | none =>
    refine .inl ⟨rfl, Stack.pop?_eq_none_iff.mpr ?_⟩
    rw [alike.stack, Stack.pop?_eq_none_iff.mp popped]
    rfl
  | some top =>
    obtain ⟨v, rest⟩ := top
    refine .inr ⟨v, rest, ⟨rest.items.map (Value.rename r), rest.depth, ?_⟩, rfl,
      Stack.pop?_eq_some_iff.mpr ?_, rfl⟩
    · rw [List.length_map, rest.depth_eq]
    · rw [alike.stack, Stack.pop?_eq_some_iff.mp popped]
      rfl

theorem swap : Agree (Store.Alike r earlier earlier') s.swap t.swap := by
  have taken : (t.stack.take 2).1 = (s.stack.take 2).1.map (Value.rename r) := (alike.take 2).1
  have rest : (t.stack.take 2).2.items = (s.stack.take 2).2.items.map (Value.rename r) :=
    (alike.take 2).2.stack
  unfold Store.swap
  generalize t.stack.take 2 = pair' at taken rest
  generalize s.stack.take 2 = pair at taken rest
  obtain ⟨values, below⟩ := pair
  obtain ⟨values', below'⟩ := pair'
  cases taken
  rw [alike.depth]
  match values with
  | [] => exact .error _
  | [_] => exact .error _
  | [b, a] => exact .ok (alike.restack (by simpa using rest))
  | _ :: _ :: _ :: _ => exact .error _

theorem drop : Agree (Store.Alike r earlier earlier') s.drop t.drop := by
  unfold Store.drop
  rcases alike.pop? with ⟨none_, none_'⟩ | ⟨v, rest, rest', popped, popped', same⟩
  · rw [none_, none_']
    exact .error _
  · rw [popped, popped']
    exact .ok (alike.restack same)

theorem gather (count : Value) :
    Agree (Store.Alike r earlier earlier') (s.gather count) (t.gather (count.rename r)) := by
  refine .bind (.of_eq (alike.readCount "gather" count)) fun n n' same => ?_
  cases same
  refine .bind (.of_eq (alike.require n (some "gather"))) fun _ _ _ => ?_
  obtain ⟨taken, rest⟩ := alike.take n
  have made := rest.advance.push (.list s.nextMark (s.take n).1)
  rw [Value.rename_list, ← taken, ← alike.nextMark] at made
  exact .ok made

theorem spread : Agree (Store.Alike r earlier earlier') s.spread t.spread := by
  unfold Store.spread
  rcases alike.pop? with ⟨none_, none_'⟩ | ⟨v, rest, rest', popped, popped', same⟩
  · rw [none_, none_']
    exact .error _
  · rw [popped, popped']
    have quoted := alike.quoting v .notAComposite
    cases v with
    | list mark items =>
      simp only [Value.rename_list]
      exact .ok (alike.restack (by simp [same]))
    | tuple mark items =>
      simp only [Value.rename_tuple]
      exact .ok (alike.restack (by simp [same]))
    | _ =>
      simp only [Value.rename_none, Value.rename_bool, Value.rename_int, Value.rename_float,
        Value.rename_nan, Value.rename_text, Value.rename_cell] at quoted ⊢
      rw [quoted]
      exact .error _

theorem pluck (index : Value) :
    Agree (fun a b => b.1 = a.1.rename r ∧ a.2.Alike r earlier earlier' b.2) (s.pluck index)
      (t.pluck (index.rename r)) := by
  refine .bind (.of_eq (alike.readCount "pluck" index)) fun i i' same => ?_
  cases same
  refine .bind (.of_eq (alike.require (i + 1) (some "pluck"))) fun _ _ _ => ?_
  refine .ok ⟨alike.getD i, alike.restack ?_⟩
  simp [alike.stack, List.eraseIdx_map]

theorem pick (index : Value) :
    Agree (fun a b => b = a.rename r) (s.pick index) (t.pick (index.rename r)) := by
  refine .bind (.of_eq (alike.readCount "pick" index)) fun i i' same => ?_
  cases same
  refine .bind (.of_eq (alike.require (i + 1) (some "pick"))) fun _ _ _ => ?_
  exact .ok (alike.getD i)

/-! ### Slots, results and output -/

theorem load (v : Value) :
    Agree (fun a b => b = a.rename r) (s.load v) (t.load (v.rename r)) := by
  have quoted := alike.quoting v (.notACell "load")
  cases v with
  | cell slot =>
    simp only [Value.rename_cell, Store.load]
    exact .ok (alike.slots.getD slot)
  | _ =>
    simp only [Value.rename_none, Value.rename_bool, Value.rename_int, Value.rename_float,
      Value.rename_nan, Value.rename_text, Value.rename_list, Value.rename_tuple] at quoted ⊢
    simp only [Store.load, quoted]
    exact .error _

theorem store (v target : Value) :
    Agree (Store.Alike r earlier earlier') (s.store v target)
      (t.store (v.rename r) (target.rename r)) := by
  have quoted := alike.quoting target (.notACell "store")
  cases target with
  | cell slot =>
    simp only [Value.rename_cell, Store.store]
    exact .ok ⟨alike.stack, alike.slots.set slot v, alike.marks, alike.written⟩
  | _ =>
    simp only [Value.rename_none, Value.rename_bool, Value.rename_int, Value.rename_float,
      Value.rename_nan, Value.rename_text, Value.rename_list, Value.rename_tuple] at quoted ⊢
    simp only [Store.store, quoted]
    exact .error _

theorem compute (value value' : Nat → Except Fault Value)
    (same : ∀ mark, value' (r.mark mark) = (value mark).map (Value.rename r)) :
    Agree (fun a b => b.1 = a.1.rename r ∧ a.2.Alike r earlier earlier' b.2) (s.compute value)
      (t.compute value') := by
  unfold Store.compute
  rw [alike.nextMark]
  refine .bind (.of_map (same s.nextMark)) fun a b same => ?_
  exact .ok ⟨same, alike.advance⟩

/-- An operator that commutes with renaming does the same. -/
theorem operate (op op' : Nat → Value → Value → Except Fault Value)
    (same : ∀ mark a b, op' (r.mark mark) (a.rename r) (b.rename r) =
      (op mark a b).map (Value.rename r)) (a b : Value) :
    Agree (fun a b => b.1 = a.1.rename r ∧ a.2.Alike r earlier earlier' b.2)
      (s.compute (op · a b)) (t.compute (op' · (a.rename r) (b.rename r))) :=
  alike.compute _ _ fun mark => same mark a b

theorem emit (v : Value) :
    Agree (Store.Alike r earlier earlier') (s.emit v) (t.emit (v.rename r)) := by
  refine .bind (.of_eq v.characterCode_rename) fun code code' same => ?_
  cases same
  exact .ok (alike.tell _)

end Alike
end Store

/-! ## Primitives -/

/-- A primitive that is handed too many or too few arguments fails. -/
theorem Primitive.apply_of_length_ne {here : Nat} {p : Primitive} {arguments : List Value}
    (s : Store) (wrong : arguments.length ≠ p.arity) :
    p.apply here arguments s = .error .argumentExcess := by
  match arguments with
  | [] => cases p <;> first | rfl | exact absurd rfl wrong
  | [_] => cases p <;> first | rfl | exact absurd rfl wrong
  | [_, _] => cases p <;> first | rfl | exact absurd rfl wrong
  | _ :: _ :: _ :: _ => cases p <;> rfl

/-- The value that the primitive yields, if it is a fixed one, keeps its names. -/
def Primitive.Fixed (r : Renaming) (p : Primitive) : Prop :=
  ∀ v, p = .constant v → v.rename r = v

/-- The results of a primitive and the stores that it leaves are alike. -/
abbrev Primitive.Results (r : Renaming) (earlier earlier' : List Utterance)
    (a b : Value × Store) : Prop :=
  b.1 = a.1.rename r ∧ a.2.Alike r earlier earlier' b.2

section

variable {earlier earlier' : List Utterance} {s t : Store}

theorem Agree.silent {work work' : Except Fault Store}
    (same : Agree (Store.Alike r earlier earlier') work work') :
    Agree (Primitive.Results r earlier earlier')
      (do return Primitive.silent (← work)) (do return Primitive.silent (← work')) :=
  same.bind fun _ _ related => .ok ⟨(Value.rename_none r).symm, related⟩

namespace Store.Alike

variable (alike : s.Alike r earlier earlier' t)

include alike

theorem answered {work work' : Except Fault Value}
    (same : Agree (fun a b => b = a.rename r) work work') :
    Agree (Primitive.Results r earlier earlier')
      (do return (← work, s)) (do return (← work', t)) :=
  same.bind fun _ _ related => .ok ⟨related, alike⟩

theorem told {work work' : Except Fault String} (text : String → String) (same : work' = work) :
    Agree (Primitive.Results r earlier earlier')
      (do return Primitive.silent (s.write (text (← work))))
      (do return Primitive.silent (t.write (text (← work')))) := by
  refine .bind (.of_eq same) fun a b same => ?_
  cases same
  exact .ok ⟨(Value.rename_none r).symm, alike.tell _⟩

theorem apply_none {p : Primitive} (fixed : p.Fixed r) (arity : p.arity = 0)
    (here here' : Nat) :
    Agree (Primitive.Results r earlier earlier') (p.apply here [] s) (p.apply here' [] t) := by
  have nothing := (Value.rename_none r).symm
  cases p with
  | swap => exact alike.swap.silent
  | drop => exact alike.drop.silent
  | spread => exact alike.spread.silent
  | depth =>
    refine .ok ⟨?_, alike⟩
    show Value.int t.stack.depth = _
    rw [alike.depth, Value.rename_int]
  | clear => exact .ok ⟨nothing, alike.restack rfl⟩
  | nop => exact .ok ⟨nothing, alike⟩
  | cr => exact .ok ⟨nothing, alike.tell _⟩
  | constant v => exact .ok ⟨(fixed v rfl).symm, alike⟩
  | _ => cases arity

theorem apply_one {p : Primitive} (calculation : p.IsCalculation) (arity : p.arity = 1)
    (here here' : Nat) (a : Value) :
    Agree (Primitive.Results r earlier earlier') (p.apply here [a] s)
      (p.apply here' [a.rename r] t) := by
  cases p with
  | define => exact absurd rfl calculation.1
  | create => exact absurd rfl calculation.2
  | gather => exact (alike.gather a).silent
  | pluck => exact alike.pluck a
  | pick => exact alike.answered (alike.pick a)
  | load => exact alike.answered (alike.load a)
  | negate => exact alike.compute (Value.negate · a) (Value.negate · (a.rename r)) fun mark =>
      Value.negate_rename mark a
  | print => exact alike.told (· ++ "\n") (Value.plain_rename alike.slots a)
  | dot => exact alike.told (· ++ " ") (Value.brief_rename alike.slots a)
  | emit => exact (alike.emit a).silent
  | type => exact alike.told id (Value.plain_rename alike.slots a)
  | _ => cases arity

theorem apply_two {p : Primitive} (arity : p.arity = 2) (here here' : Nat) (a b : Value) :
    Agree (Primitive.Results r earlier earlier') (p.apply here [a, b] s)
      (p.apply here' [a.rename r, b.rename r] t) := by
  cases p with
  | store => exact (alike.store a b).silent
  | add => exact alike.operate Value.add Value.add Value.add_rename a b
  | sub => exact alike.operate Value.sub Value.sub Value.sub_rename a b
  | mul => exact alike.operate Value.mul Value.mul Value.mul_rename a b
  | div => exact alike.operate Value.div Value.div Value.div_rename a b
  | mod => exact alike.operate _ _ (Value.mod_rename alike.slots) a b
  | equal =>
    refine .ok ⟨?_, alike⟩
    rw [Value.same_rename, Value.rename_bool]
  | compare c =>
    refine .bind (.of_eq (Value.ordered_rename c a b)) fun x y same => ?_
    cases same
    exact .ok ⟨(Value.rename_bool r x).symm, alike⟩
  | _ => cases arity

/-- A primitive that begins no definition does the same to stores that are alike. -/
theorem apply {p : Primitive} (calculation : p.IsCalculation) (fixed : p.Fixed r)
    (here here' : Nat) (arguments : List Value) :
    Agree (Primitive.Results r earlier earlier') (p.apply here arguments s)
      (p.apply here' (arguments.map (Value.rename r)) t) := by
  by_cases length : arguments.length = p.arity
  · match arguments with
    | [] => exact alike.apply_none fixed length.symm here here'
    | [a] => exact alike.apply_one calculation length.symm here here' a
    | [a, b] => exact alike.apply_two length.symm here here' a b
    | _ :: _ :: _ :: _ => cases p <;> cases length
  · rw [Primitive.apply_of_length_ne s length, Primitive.apply_of_length_ne t]
    · exact .error _
    · rwa [List.length_map]

end Store.Alike

/-! ## Calling primitives -/

/-- A call of a primitive that begins no definition ends in the same way on machines whose
stores are alike, and leaves them alike. -/
theorem Machine.callPrimitive_alike (name : String) (n : Native) {p : Primitive}
    (calculation : p.IsCalculation) (fixed : p.Fixed r) (m m' : Machine)
    (alike : m.toStore.Alike r earlier earlier' m'.toStore) :
    Outcome.Alongside m m'
      (fun s t => m.toStore.SameBooks s ∧ m'.toStore.SameBooks t ∧ s.Alike r earlier earlier' t)
      (m.callWith name n p.perform) (m'.callWith name n p.perform) := by
  have taken := m.toStore.sameBooks_take n.arity
  have taken' := m'.toStore.sameBooks_take n.arity
  obtain ⟨arguments, rest⟩ := alike.take n.arity
  unfold callWith
  simp only [Primitive.perform_eq, here]
  rw [alike.depth]
  by_cases short : m.stack.depth < n.arity
  · rw [if_pos short, if_pos short]
    exact .failed ⟨.refl _, .refl _, alike⟩
  · rw [if_neg short, if_neg short]
    have applied := rest.apply calculation fixed m.code.size m'.code.size
      (m.toStore.take n.arity).1
    rw [← arguments] at applied
    generalize ends : p.apply m.code.size (m.toStore.take n.arity).1 (m.toStore.take n.arity).2 = o
      at applied
    generalize ends' :
      p.apply m'.code.size (m'.toStore.take n.arity).1 (m'.toStore.take n.arity).2 = o' at applied
    have books : ∀ {k : Nat} {b : Store} {v : Value} {u : Store} {arguments : List Value},
        p.apply k arguments b = .ok (v, u) → b.SameBooks u := by
      intro k b v u arguments ends
      rcases Store.apply_cases ends with kept | ⟨define, -⟩ | ⟨create, -⟩
      · exact kept
      · exact absurd define calculation.1
      · exact absurd create calculation.2
    cases applied with
    | error f =>
      simp only [Outcome.ofStore, Outcome.onFault, Outcome.bind_failed]
      by_cases interrupt : f.isInterrupt
      · rw [if_pos interrupt, if_pos interrupt]
        exact .failed ⟨taken, taken', rest⟩
      · rw [if_neg interrupt, if_neg interrupt, arguments]
        exact .failed ⟨taken.trans (Store.sameBooks_pushAll _ _),
          taken'.trans (Store.sameBooks_pushAll _ _), rest.pushAll _⟩
    | @ok made made' related =>
      obtain ⟨v, u⟩ := made
      obtain ⟨v', u'⟩ := made'
      obtain ⟨rfl, related⟩ := related
      have kept := taken.trans (books ends)
      have kept' := taken'.trans (books ends')
      simp only [Outcome.ofStore, Outcome.onFault, Outcome.bind_done, pushResult,
        ne_eq, Value.rename_eq_none_iff]
      by_cases pushed : ¬ v = .none ∨ n.pushesNone
      · rw [if_pos pushed, if_pos pushed]
        exact .done ⟨kept.trans (Store.sameBooks_pushAll _ _),
          kept'.trans (Store.sameBooks_pushAll _ _), related.pushAll [v]⟩
      · rw [if_neg pushed, if_neg pushed]
        exact .done ⟨kept, kept', related⟩

end
end ThreadedForth
