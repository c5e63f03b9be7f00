import ThreadedForth.Proofs.Termination

/-!
# Words see only what they use

Two built-in words look at the data stack as a whole: `depth` counts it and `clear` empties
it.  All others name the places they look at, counted from the top, and fail if there is no
such place.  So a run that succeeds has found everything it looked for, and whatever is put
below its data stack is neither seen nor touched.

Only success carries over.  A run that fails for want of a value may find one in what was put
below, and go on.  The failure must therefore be ruled out at every step, and it is: a step
of a run that succeeds has succeeded.

`Machine.on` puts values below the data stack.  Words that run no code, turns, runs and
tokens are then shown to commute with it whenever they succeed, each from the ones before
(`Outcome.Rises`).

What counts is which words a run can come to.  `Word.isLocal` excludes the two words above
and the host callables.  A run comes to a native word by a native cell of the code or by a
token, and it adds no native words itself, so it is enough to look at the cells
(`Machine.Local`) and at the words that the tokens refer to (`Machine.Refers`).  The tokens
can be judged before the run as well (`Machine.isLocal_of_refers`).
-/

namespace ThreadedForth

/-- A computation goes on with what its first part has found. -/
theorem bind_of_ok {α β : Type} {work : Except Fault α} {next : α → Except Fault β} {a : α}
    (h : work = .ok a) : work >>= next = next a := by
  rw [h]
  rfl

/-! ## Values below a stack -/

namespace Stack

variable {α : Type} {s rest : Stack α}

/-- The stack on top of further items, which are given with the oldest first. -/
def on (below : List α) (s : Stack α) : Stack α :=
  ⟨s.items ++ below.reverse, s.depth + below.length, by simp [s.depth_eq]⟩

@[simp] theorem items_on (below : List α) (s : Stack α) :
    (s.on below).items = s.items ++ below.reverse := rfl

@[simp] theorem depth_on (below : List α) (s : Stack α) :
    (s.on below).depth = s.depth + below.length := rfl

theorem toList_on (below : List α) (s : Stack α) :
    (s.on below).toList = below ++ s.toList := by
  simp [toList]

theorem push_on (a : α) (below : List α) (s : Stack α) :
    (s.on below).push a = (s.push a).on below := by
  ext1
  rfl

theorem pushAll_on (as below : List α) (s : Stack α) :
    (s.on below).pushAll as = (s.pushAll as).on below := by
  ext1
  exact (List.append_assoc ..).symm

theorem pop?_on {a : α} (below : List α) (h : s.pop? = some (a, rest)) :
    (s.on below).pop? = some (a, rest.on below) := by
  rw [pop?_eq_some_iff] at h ⊢
  rw [items_on, items_on, h, List.cons_append]

theorem take_on {n : Nat} (below : List α) (enough : n ≤ s.depth) :
    (s.on below).take n = ((s.take n).1, (s.take n).2.on below) := by
  rw [s.depth_eq] at enough
  refine Prod.ext ?_ (Stack.ext ?_)
  · show ((s.items ++ below.reverse).take n).reverse = (s.items.take n).reverse
    rw [List.take_append_of_le_length enough]
  · show (s.items ++ below.reverse).drop n = s.items.drop n ++ below.reverse
    rw [List.drop_append_of_le_length enough]

theorem eraseIdx_on {i : Nat} (below : List α) (inside : i < s.depth) :
    (s.on below).eraseIdx i = (s.eraseIdx i).on below := by
  rw [s.depth_eq] at inside
  ext1
  exact List.eraseIdx_append_of_lt_length inside _

theorem getD_on {i : Nat} (below : List α) (inside : i < s.depth) (default : α) :
    (s.on below).items.getD i default = s.items.getD i default := by
  rw [s.depth_eq] at inside
  simp [List.getElem?_append_left inside]

end Stack

/-! ## Words that run no code -/

namespace Store

variable {s t : Store}

/-- The store with values below its data stack. -/
def on (below : List Value) (s : Store) : Store := { s with stack := s.stack.on below }

theorem pushAll_on (values below : List Value) (s : Store) :
    (s.on below).pushAll values = (s.pushAll values).on below := by
  simp only [on, pushAll, Stack.pushAll_on]

theorem note_on (level : Level) (channel : Channel) (text : String) (below : List Value)
    (s : Store) :
    (s.on below).note level channel text = (s.note level channel text).on below := by
  unfold note
  split
  · next taken =>
    rw [if_pos (show level.isTaken s.verbose = true from taken)]
    rfl
  · next dropped => rw [if_neg (show ¬ level.isTaken s.verbose = true from dropped)]

theorem install_on (w : Word) (below : List Value) (s : Store) :
    (s.on below).install w = (s.install w).on below := by
  unfold install
  simp only [note_on]
  have same : (s.on below).dictionary = s.dictionary := rfl
  rw [same]
  split <;> rfl

/-- What is asked for is there when the word succeeds. -/
theorem enough_of_require {needed : Nat} {word : Option String}
    (h : s.require needed word = .ok ()) : needed ≤ s.stack.depth := by
  unfold require at h
  split at h
  · cases h
  · omega

theorem require_on {needed : Nat} {word : Option String} (below : List Value)
    (enough : needed ≤ s.stack.depth) : (s.on below).require needed word = .ok () := by
  have still : ¬ (s.on below).stack.depth < needed := by
    show ¬ s.stack.depth + below.length < needed
    omega
  exact if_neg still

theorem take_on {n : Nat} (below : List Value) (enough : n ≤ s.stack.depth) :
    (s.on below).take n = ((s.take n).1, (s.take n).2.on below) := by
  simp only [take, on, Stack.take_on below enough]

theorem swap_on (below : List Value) (h : s.swap = .ok t) :
    (s.on below).swap = .ok (t.on below) := by
  unfold swap at h ⊢
  split at h
  · next b a rest taken =>
    cases h
    have enough : 2 ≤ s.stack.depth := by
      have length := congrArg (fun result => result.1.length) taken
      simp [Stack.take, ← s.stack.depth_eq] at length
      omega
    have lifted : (s.on below).stack.take 2 = ([b, a], rest.on below) := by
      show (s.stack.on below).take 2 = _
      rw [Stack.take_on below enough, taken]
    rw [lifted]
    simp only [on, Stack.push_on]
  · cases h

theorem drop_on (below : List Value) (h : s.drop = .ok t) :
    (s.on below).drop = .ok (t.on below) := by
  unfold drop at h ⊢
  split at h
  · next top rest popped =>
    cases h
    rw [show (s.on below).stack.pop? = some (top, rest.on below) from Stack.pop?_on below popped]
    rfl
  · cases h

theorem gather_on {count : Value} (below : List Value) (h : s.gather count = .ok t) :
    (s.on below).gather count = .ok (t.on below) := by
  obtain ⟨n, counted, rest⟩ := exists_of_bind_ok h
  obtain ⟨⟨⟩, there, made⟩ := exists_of_bind_ok rest
  have enough := enough_of_require there
  cases made
  refine (bind_of_ok counted).trans ((bind_of_ok (require_on below enough)).trans ?_)
  simp only [take_on below enough]
  simp only [on, push, make, advance, Stack.push_on]
  rfl

theorem spread_on (below : List Value) (h : s.spread = .ok t) :
    (s.on below).spread = .ok (t.on below) := by
  unfold spread at h ⊢
  split at h
  · next mark items rest popped =>
    cases h
    rw [show (s.on below).stack.pop? = some (.list mark items, rest.on below) from
      Stack.pop?_on below popped]
    simp only [on, Stack.pushAll_on]
  · next mark items rest popped =>
    cases h
    rw [show (s.on below).stack.pop? = some (.tuple mark items, rest.on below) from
      Stack.pop?_on below popped]
    simp only [on, Stack.pushAll_on]
  · cases h
  · cases h

theorem pluck_on {index v : Value} (below : List Value) (h : s.pluck index = .ok (v, t)) :
    (s.on below).pluck index = .ok (v, t.on below) := by
  obtain ⟨i, counted, rest⟩ := exists_of_bind_ok h
  obtain ⟨⟨⟩, there, made⟩ := exists_of_bind_ok rest
  have inside : i < s.stack.depth := enough_of_require there
  cases made
  refine (bind_of_ok counted).trans ((bind_of_ok (require_on below inside)).trans ?_)
  simp only [on, Stack.getD_on below inside, Stack.eraseIdx_on below inside]
  rfl

theorem pick_on {index v : Value} (below : List Value) (h : s.pick index = .ok v) :
    (s.on below).pick index = .ok v := by
  obtain ⟨i, counted, rest⟩ := exists_of_bind_ok h
  obtain ⟨⟨⟩, there, made⟩ := exists_of_bind_ok rest
  have inside : i < s.stack.depth := enough_of_require there
  cases made
  refine (bind_of_ok counted).trans ((bind_of_ok (require_on below inside)).trans ?_)
  simp only [nth, on, Stack.getD_on below inside]
  rfl

theorem define_on {here : Nat} {name : Value} (below : List Value)
    (h : s.define here name = .ok t) : (s.on below).define here name = .ok (t.on below) := by
  obtain ⟨valid, checked, idle, rfl⟩ := define_eq_ok h
  have free : (s.on below).checkIdle valid.1 = .ok () := if_neg (Bool.eq_false_iff.mp idle)
  exact (bind_of_ok checked).trans (bind_of_ok free)

theorem create_on {name v : Value} (below : List Value) (h : s.create name = .ok (v, t)) :
    (s.on below).create name = .ok (v, t.on below) := by
  obtain ⟨valid, checked, made⟩ := exists_of_bind_ok h
  cases made
  refine (bind_of_ok checked).trans ?_
  show Except.ok _ = Except.ok _
  rw [← note_on]
  simp only [install_on]
  rfl

theorem store_on {v target : Value} (below : List Value) (h : s.store v target = .ok t) :
    (s.on below).store v target = .ok (t.on below) := by
  unfold store at h ⊢
  split at h
  · cases h
    rfl
  · cases h

theorem compute_on {value : Nat → Except Fault Value} {v : Value} (below : List Value)
    (h : s.compute value = .ok (v, t)) : (s.on below).compute value = .ok (v, t.on below) := by
  obtain ⟨_, found, made⟩ := exists_of_bind_ok h
  cases made
  exact bind_of_ok found

theorem emit_on {v : Value} (below : List Value) (h : s.emit v = .ok t) :
    (s.on below).emit v = .ok (t.on below) := by
  obtain ⟨code, found, written⟩ := exists_of_bind_ok h
  cases written
  exact bind_of_ok found

end Store

namespace Primitive

/-- Whether a primitive looks at the top of the data stack alone. -/
def isLocal : Primitive → Bool
  | depth | clear => false
  | _ => true

/-- A primitive that succeeds does not see what is below. -/
theorem apply_on {here : Nat} {p : Primitive} {arguments : List Value} {v : Value}
    {s t : Store} (below : List Value) (top : p.isLocal = true)
    (h : p.apply here arguments s = .ok (v, t)) :
    p.apply here arguments (s.on below) = .ok (v, t.on below) := by
  unfold apply at h
  split at h
  case h_7 | h_8 => cases top
  case h_28 => cases h
  case h_5 => exact s.pluck_on below h
  case h_12 => exact s.create_on below h
  case h_13 | h_14 | h_15 | h_16 | h_17 | h_18 => exact Store.compute_on below h
  -- these have their result whatever the data stack holds
  case h_19 | h_21 | h_24 | h_27 =>
    cases h
    rfl
  all_goals
    obtain ⟨result, found, made⟩ := exists_of_bind_ok h
    cases made
  case h_1 => exact bind_of_ok (Store.swap_on below found)
  case h_2 => exact bind_of_ok (Store.drop_on below found)
  case h_3 => exact bind_of_ok (Store.gather_on below found)
  case h_4 => exact bind_of_ok (Store.spread_on below found)
  case h_6 => exact bind_of_ok (Store.pick_on below found)
  case h_9 => exact bind_of_ok (Store.define_on below found)
  case h_11 => exact bind_of_ok (Store.store_on below found)
  case h_25 => exact bind_of_ok (Store.emit_on below found)
  case h_10 | h_20 | h_22 | h_23 | h_26 => exact bind_of_ok found

end Primitive

namespace Machine

variable {m after : Machine}

/-- The machine with values below its data stack. -/
def on (below : List Value) (m : Machine) : Machine := { m with toStore := m.toStore.on below }

theorem pushAll_on (values below : List Value) (m : Machine) :
    (m.on below).pushAll values = (m.pushAll values).on below := by
  simp only [on, pushAll, Store.pushAll_on]

theorem note_on (level : Level) (channel : Channel) (text : String) (below : List Value)
    (m : Machine) :
    (m.on below).note level channel text = (m.note level channel text).on below := by
  simp only [on, note, Store.note_on]

theorem pushResult_on (n : Native) (v : Value) (below : List Value) (m : Machine) :
    (m.on below).pushResult n v = (m.pushResult n v).on below := by
  unfold pushResult
  split
  · exact m.pushAll_on [v] below
  · rfl

theorem installDraft_on (draft : Draft) (below : List Value) (m : Machine) :
    (m.on below).installDraft draft = (m.installDraft draft).on below := by
  unfold installDraft noteDefined
  rw [← note_on]
  simp only [on, Store.install_on]
  rfl

theorem finish_on (below : List Value) (h : m.finish = .ok after) :
    (m.on below).finish = .ok (after.on below) := by
  obtain ⟨⟨⟩, required, closed⟩ := exists_of_bind_ok h
  refine (bind_of_ok required).trans ?_
  cases open_ : m.draft with
  | some draft =>
    have lifted : (m.on below).draft = some draft := open_
    simp only [open_] at closed
    cases closed
    simp only [lifted]
    exact congrArg Except.ok
      (installDraft_on draft below { m.append .exit with compiling := false, draft := none })
  | none =>
    have lifted : (m.on below).draft = none := open_
    simp only [open_] at closed
    cases closed
    simp only [lifted]
    rfl

theorem markImmediate_on (below : List Value) (h : m.markImmediate = .ok after) :
    (m.on below).markImmediate = .ok (after.on below) := by
  obtain ⟨⟨stack, slots, dictionary, compiling, draft, lastDefined, _⟩, _⟩ := m
  cases compiling <;> cases draft <;> cases lastDefined <;> cases h <;> rfl

theorem writeLiterals_on (values : List Value) (joined : Option (List Value)) (below : List Value)
    (m : Machine) :
    (m.on below).writeLiterals values joined = (m.writeLiterals values joined).on below := by
  cases joined with
  | none => rfl
  | some all => rfl

theorem compileValue_on {v : Value} (below : List Value) (h : m.compileValue v = .ok after) :
    (m.on below).compileValue v = .ok (after.on below) := by
  obtain ⟨⟨⟩, required, compiled⟩ := exists_of_bind_ok h
  obtain ⟨joined, found, made⟩ := exists_of_bind_ok compiled
  cases made
  refine (bind_of_ok required).trans ((bind_of_ok found).trans ?_)
  exact congrArg Except.ok (writeLiterals_on [v] joined below m)

end Machine

/-- No directive looks at the data stack. -/
theorem Directive.perform_on {d : Directive} {arguments : List Value} {v : Value}
    {m after : Machine} (below : List Value) (h : d.perform arguments m = .done v after) :
    d.perform arguments (m.on below) = .done v (after.on below) := by
  have lifts : ∀ ended, d.apply arguments m = .ok ended →
      d.apply arguments (m.on below) = .ok (ended.on below) := by
    intro ended applied
    unfold apply at applied
    split at applied
    · exact Machine.finish_on below applied
    · exact Machine.markImmediate_on below applied
    · obtain ⟨⟨⟩, required, made⟩ := exists_of_bind_ok applied
      cases made
      exact bind_of_ok required
    · exact Machine.compileValue_on below applied
    · obtain ⟨⟨⟩, required, made⟩ := exists_of_bind_ok applied
      cases made
      exact bind_of_ok required
    · cases applied
  rw [perform_eq] at h ⊢
  split at h
  · next ended applied =>
    cases h
    rw [lifts _ applied]
  · cases h

/-- Nor does a primitive that looks at its top alone. -/
theorem Primitive.perform_on {p : Primitive} {arguments : List Value} {v : Value}
    {m after : Machine} (below : List Value) (top : p.isLocal = true)
    (h : p.perform arguments m = .done v after) :
    p.perform arguments (m.on below) = .done v (after.on below) := by
  rw [perform_eq] at h ⊢
  unfold Outcome.ofStore at h ⊢
  split at h
  · next result s applied =>
    cases h
    rw [show p.apply (m.on below).here arguments (m.on below).toStore = .ok (v, s.on below) from
      apply_on below top applied]
    rfl
  · cases h

namespace Machine

variable {m after : Machine}

/-- A native word that succeeds has found its arguments and has performed its action. -/
theorem exists_of_callWith {name : String} {n : Native}
    {perform : List Value → Machine → Outcome Value}
    (h : m.callWith name n perform = .done () after) :
    n.arity ≤ m.stack.depth ∧ ∃ v ended, after = ended.pushResult n v ∧
      perform (m.toStore.take n.arity).1 { m with toStore := (m.toStore.take n.arity).2 } =
        .done v ended := by
  unfold callWith at h
  split at h
  · cases h
  · next there =>
    refine ⟨Nat.le_of_not_lt there, ?_⟩
    simp only at h
    cases ends : perform (m.toStore.take n.arity).1
        { m with toStore := (m.toStore.take n.arity).2 } with
    | failed f ended =>
      rw [ends] at h
      cases h
    | done v ended =>
      rw [ends] at h
      cases h
      exact ⟨v, ended, rfl, rfl⟩

/-- The arguments of a native word come off the top. -/
theorem callWith_on {name : String} {n : Native} {perform : List Value → Machine → Outcome Value}
    (below : List Value) (h : m.callWith name n perform = .done () after)
    (lifts : ∀ arguments start v ended, perform arguments start = .done v ended →
      perform arguments (start.on below) = .done v (ended.on below)) :
    (m.on below).callWith name n perform = .done () (after.on below) := by
  obtain ⟨enough, v, ended, rfl, performed⟩ := exists_of_callWith h
  have still : ¬ (m.on below).stack.depth < n.arity := by
    show ¬ m.stack.depth + below.length < n.arity
    omega
  have lifted : perform (m.toStore.take n.arity).1
      { m.on below with toStore := (m.toStore.take n.arity).2.on below } =
        .done v (ended.on below) := lifts _ _ _ _ performed
  unfold callWith
  rw [if_neg still]
  simp only [show (m.on below).toStore.take n.arity = _ from Store.take_on below enough]
  rw [lifted]
  exact congrArg (Outcome.done ()) (pushResult_on n v below ended)

end Machine

/-! ## The native words that a run can come to -/

/-- Whether an action looks at the top of the data stack alone.  A host callable may look
at anything. -/
def Action.isLocal : Action → Bool
  | .primitive p => p.isLocal
  | .directive _ => true
  | .host _ => false

/-- Whether a word looks at the top of the data stack alone.  A word that is not native looks
at nothing by itself. -/
def Word.isLocal (w : Word) : Bool :=
  match w.body with
  | .native n => n.action.isLocal
  | _ => true

namespace Dictionary

variable {d e f : Dictionary}

/-- The native words of the second dictionary are those of the first one, and a name that
means one of them has meant it before. -/
structure NativesStay (d e : Dictionary) : Prop where
  words : d.AddsNoNative e
  names : ∀ {name : String} {entry : Nat} {w : Word} {n : Native}, e.find? name = some entry →
    e.get? entry = some w → w.body = .native n → d.find? name = some entry

theorem NativesStay.of_eq (same : e = d) : d.NativesStay e := by
  subst same
  exact ⟨.of_eq rfl, fun found _ _ => found⟩

theorem NativesStay.trans (first : d.NativesStay e) (second : e.NativesStay f) :
    d.NativesStay f where
  words := first.words.trans second.words
  names {name entry w n} found known native := by
    obtain ⟨_, immediate, _⟩ := w
    cases native
    obtain ⟨marked, before⟩ := second.words entry _ immediate n known
    exact first.names (second.names found known rfl) before rfl

theorem nativesStay_push {w : Word} (other : ∀ n, w.body ≠ .native n) :
    d.NativesStay (d.push w) where
  words := addsNoNative_push other
  names {name entry v n} found known native := by
    rw [find?_push] at found
    split at found
    · cases found
      rw [get?_push_size] at known
      cases known
      exact absurd native (other n)
    · exact found

theorem nativesStay_markImmediate (d : Dictionary) (target : Nat) :
    d.NativesStay (d.markImmediate target) :=
  ⟨addsNoNative_markImmediate d target, fun found _ _ => found⟩

theorem nativesStay_setBehavior (d : Dictionary) (target : Nat) (behavior : Value) :
    d.NativesStay (d.setBehavior target behavior) :=
  ⟨addsNoNative_setBehavior d target behavior,
    fun found _ _ => found⟩

/-- What is local about the words of the first dictionary is local in the second one. -/
theorem NativesStay.isLocal {entry : Nat} {w : Word} (stay : d.NativesStay e)
    (before : ∀ v, d.get? entry = some v → v.isLocal = true) (known : e.get? entry = some w) :
    w.isLocal = true := by
  obtain ⟨name, immediate, body⟩ := w
  cases body with
  | colon address => rfl
  | created slot behavior => rfl
  | native n =>
    obtain ⟨marked, old⟩ := stay.words entry name immediate n known
    exact before ⟨name, marked, .native n⟩ old

end Dictionary

namespace Machine

open Dictionary (NativesStay)

variable {m after : Machine} {base : Nat}

theorem Edit.nativesStay (changed : Edit m after) :
    m.dictionary.NativesStay after.dictionary := by
  cases changed with
  | data same => exact .of_eq same.dictionary
  | markEntry last => exact Dictionary.nativesStay_markImmediate _ _
  | create valid => exact Dictionary.nativesStay_push nofun
  | finish compiling open_ => exact Dictionary.nativesStay_push nofun
  | _ => exact .of_eq rfl

theorem Edits.nativesStay (changed : Edits m after) :
    m.dictionary.NativesStay after.dictionary := by
  induction changed with
  | refl => exact .of_eq rfl
  | tail _ last ih => exact ih.trans last.nativesStay

theorem nativesStay_bindBehavior (behavior : Value) (m : Machine) :
    m.dictionary.NativesStay (m.bindBehavior behavior).machine.dictionary := by
  rcases bindBehavior_cases behavior m with ⟨-, ends⟩ | ⟨entry, s, -, books, ends⟩
  · rw [ends]
    exact .of_eq rfl
  · rw [ends]
    have bound := Dictionary.nativesStay_setBehavior m.dictionary entry behavior
    exact bound.trans (.of_eq books.dictionary)

theorem Leaves.nativesStay (left : m.Leaves after) :
    m.dictionary.NativesStay after.dictionary := by
  cases left with
  | place returns ip => exact .of_eq rfl
  | pushed at_ pushes returns ip => exact .of_eq rfl
  | @primitive entry name immediate n p at_ known kind resume =>
    exact (edits_callPrimitive name n p (m.moved resume)).nativesStay
  | @behavior cell v at_ gives resume => exact nativesStay_bindBehavior v (m.moved resume)

/-- The native cells of the code call words that look at the top of the data stack alone. -/
def Local (m : Machine) : Prop :=
  ∀ entry w, .native entry ∈ m.code → m.dictionary.get? entry = some w → w.isLocal = true

/-- The machine that is left has local code and no new native words. -/
structure StaysLocal (m after : Machine) : Prop where
  code : after.Local
  natives : m.dictionary.NativesStay after.dictionary

theorem Local.stays (code : m.Local) (natives : m.dictionary.NativesStay after.dictionary)
    (cells : ∀ entry, .native entry ∈ after.code → .native entry ∈ m.code) :
    m.StaysLocal after where
  code entry _ inside known := natives.isLocal (fun v => code entry v (cells entry inside)) known
  natives := natives

theorem Local.refl (code : m.Local) : m.StaysLocal m := ⟨code, .of_eq rfl⟩

theorem StaysLocal.trans {ended : Machine} (first : m.StaysLocal after)
    (second : after.StaysLocal ended) : m.StaysLocal ended :=
  ⟨second.code, first.natives.trans second.natives⟩

/-- A cell may be added that is no native one, or whose word is local. -/
theorem Local.append {cell : Cell} (code : m.Local)
    (fits : ∀ entry w, cell = .native entry → m.dictionary.get? entry = some w →
      w.isLocal = true) : m.StaysLocal (m.append cell) where
  code entry w inside known := by
    rcases Array.mem_push.mp inside with old | new
    · exact code entry w old known
    · exact fits entry w new.symm known
  natives := .of_eq rfl

theorem native_mem_writeLiterals {values : List Value} {joined : Option (List Value)} {entry : Nat}
    (inside : .native entry ∈ (m.writeLiterals values joined).code) : .native entry ∈ m.code := by
  cases joined with
  | none => simpa [writeLiterals, append] using inside
  | some all =>
    have popped : .native entry ∈ m.code.pop := by
      simpa [writeLiterals] using inside
    rw [← Array.mem_toList_iff, Array.toList_pop] at popped
    exact Array.mem_toList_iff.mp (List.dropLast_subset _ popped)

end Machine

/-- Directives compile no native cells. -/
theorem Directive.native_mem {d : Directive} {arguments : List Value} {m after : Machine}
    (h : d.apply arguments m = .ok after) {entry : Nat} (inside : .native entry ∈ after.code) :
    .native entry ∈ m.code := by
  unfold apply at h
  split at h
  · obtain ⟨⟨⟩, -, closed⟩ := exists_of_bind_ok h
    have ended : after.code = m.code.push .exit := by
      split at closed <;> cases closed <;> rfl
    simpa [ended] using inside
  · have same : after.code = m.code := by
      unfold Machine.markImmediate at h
      split at h <;> cases h <;> rfl
    exact same ▸ inside
  · obtain ⟨⟨⟩, -, made⟩ := exists_of_bind_ok h
    cases made
    simpa [Machine.append] using inside
  · obtain ⟨⟨⟩, -, compiled⟩ := exists_of_bind_ok h
    obtain ⟨joined, -, made⟩ := exists_of_bind_ok compiled
    cases made
    exact Machine.native_mem_writeLiterals inside
  · obtain ⟨⟨⟩, -, made⟩ := exists_of_bind_ok h
    cases made
    simpa [Machine.append] using inside
  · cases h

/-! ## Turns -/

/-- The turn with values below the data stack. -/
def Turn.on (below : List Value) : Turn → Turn
  | next m => next (m.on below)
  | halt m => halt (m.on below)
  | enter name n m => enter name n (m.on below)
  | fault f m => fault f (m.on below)

/-- Whether a turn fails. -/
def Turn.faults : Turn → Bool
  | fault .. => true
  | _ => false

namespace Machine

variable {m after : Machine} {base : Nat}

theorem nest_on (address : Value) (resume : Int) (below : List Value) (m : Machine) :
    (m.on below).nest address resume = (m.nest address resume).on below := by
  unfold nest
  by_cases full : m.capacity ≤ m.returns.depth
  · rw [if_pos full, if_pos (show (m.on below).capacity ≤ (m.on below).returns.depth from full)]
    rfl
  · rw [if_neg full, if_neg (show ¬ (m.on below).capacity ≤ (m.on below).returns.depth from full)]
    simp only [show (m.on below).locate address = m.locate address from rfl]
    cases m.locate address with
    | ok place => rfl
    | error f => rfl

theorem stepExit_on (base : Nat) (below : List Value) (m : Machine) :
    (m.on below).stepExit base = (m.stepExit base).on below := by
  unfold stepExit
  simp only [show (m.on below).returns = m.returns from rfl]
  cases m.returns.pop? with
  | none => simp only []; split <;> rfl
  | some popped =>
    simp only []
    split
    · rfl
    · split <;> rfl

theorem stepCreated_on (entry : Nat) (resume : Int) (below : List Value) (m : Machine) :
    (m.on below).stepCreated entry resume = (m.stepCreated entry resume).on below := by
  unfold stepCreated
  simp only [show (m.on below).dictionary = m.dictionary from rfl, pushAll_on]
  split
  · split
    · rfl
    · exact nest_on _ resume below _
  · rfl

theorem noteBehavior_on (name : String) (behavior : Value) (below : List Value) (m : Machine) :
    (m.on below).noteBehavior name behavior = (m.noteBehavior name behavior).on below := by
  unfold noteBehavior
  simp only [note_on, show (m.on below).verbose = m.verbose from rfl]
  split
  · split <;> rfl
  · rfl

theorem bindBehavior_on (behavior : Value) (below : List Value) (m : Machine) :
    (m.on below).bindBehavior behavior = (m.bindBehavior behavior).adjust (on below) := by
  unfold bindBehavior
  simp only [show (m.on below).lastCreated = m.lastCreated from rfl]
  split
  · rfl
  · next entry last =>
    exact congrArg (Outcome.done ()) (noteBehavior_on _ behavior below
      { m with dictionary := m.dictionary.setBehavior entry behavior })

theorem ofOutcome_adjust_on (o : Outcome Unit) (below : List Value) :
    Turn.ofOutcome (o.adjust (on below)) = (Turn.ofOutcome o).on below := by
  cases o with
  | done a ended => rfl
  | failed f ended => rfl

theorem stepForeign_on (base : Nat) (resume : Int) (items below : List Value) (m : Machine) :
    (m.on below).stepForeign base resume items = (m.stepForeign base resume items).on below := by
  unfold stepForeign
  split
  case h_7 => exact stepExit_on base below m
  case h_10 =>
    split
    · exact congrArg Turn.next (pushAll_on _ below m)
    · rfl
  case h_11 => exact nest_on _ resume below m
  case h_12 => rw [bindBehavior_on, ofOutcome_adjust_on]
  case h_13 =>
    simp only [show (m.on below).slots = m.slots from rfl]
    split <;> rfl
  all_goals rfl

theorem stepNative_on {entry : Nat} (below : List Value)
    (top : ∀ w, m.dictionary.get? entry = some w → w.isLocal = true)
    (goes : (m.stepNative entry).faults = false) :
    (m.on below).stepNative entry = (m.stepNative entry).on below := by
  unfold stepNative at goes ⊢
  simp only [show (m.on below).dictionary = m.dictionary from rfl]
  split
  · next name immediate n known =>
    have found : n.action.isLocal = true := top _ known
    simp only [known] at goes
    split
    · next p kind =>
      rw [kind] at found
      simp only [kind] at goes
      cases ends : m.callWith name n p.perform with
      | failed f ended =>
        rw [ends] at goes
        cases goes
      | done a ended =>
        rw [callWith_on below ends fun _ _ _ _ => Primitive.perform_on below found]
        rfl
    · rfl
  · rfl

/-- A turn that does not fail does not see what is below. -/
theorem Local.turn_on (code : m.Local) (base : Nat) (below : List Value)
    (goes : (m.turn base).faults = false) : (m.on below).turn base = (m.turn base).on below := by
  unfold turn at goes ⊢
  simp only [show (m.on below).ip = m.ip from rfl]
  cases at_ : m.ip with
  | none => rfl
  | some address =>
    simp only [show (m.on below).fetch address = m.fetch address from rfl, at_] at goes ⊢
    cases fetched : m.fetch address with
    | error f => rfl
    | ok cell =>
      simp only [fetched] at goes
      show step base (address + 1) ((m.moved (address + 1)).on below) cell =
        (step base (address + 1) (m.moved (address + 1)) cell).on below
      cases cell with
      | native entry =>
        exact stepNative_on below (fun w => code entry w (mem_of_fetch fetched)) goes
      | literal values => exact congrArg Turn.next (pushAll_on values below _)
      | call target name => exact nest_on (.int target) (address + 1) below _
      | created entry => exact stepCreated_on entry _ below _
      | does target =>
        show Turn.ofOutcome _ = Turn.on below (Turn.ofOutcome _)
        rw [bindBehavior_on, ofOutcome_adjust_on]
      | exit => exact stepExit_on base below _
      | foreign items => exact stepForeign_on base _ items below _

/-- What is left of local code by a turn that does not fail. -/
theorem Local.turned {t : Turn} (code : m.Local) (below : List Value) (h : m.turn base = t)
    (goes : t.faults = false) :
    m.StaysLocal t.machine ∧ (m.on below).turn base = t.on below := by
  subst h
  have left := leaves_turn base m
  have stays := code.stays left.nativesStay fun entry inside => left.native.1 ▸ inside
  exact ⟨stays, code.turn_on base below goes⟩

end Machine

/-! ## Runs -/

namespace Outcome

variable {α β : Type} {below : List Value} {start m : Machine} {o o' : Outcome α}

/-- Where the first outcome is a success, the second one is the same with values below the
data stack.  The first one is reached from `start` without new native words, and leaves local
code. -/
def Rises (below : List Value) (start : Machine) (o o' : Outcome α) : Prop :=
  ∀ a after, o = .done a after → start.StaysLocal after ∧ o' = .done a (after.on below)

theorem Rises.failed (f : Fault) : Rises below start (.failed f m : Outcome α) o' := nofun

theorem Rises.done {after : Machine} (a : α) (stays : start.StaysLocal after) :
    Rises below start (.done a after) (.done a (after.on below)) := by
  rintro a after ⟨⟩
  exact ⟨stays, rfl⟩

/-- What is reached from a later state is reached from an earlier one. -/
theorem Rises.since (stays : start.StaysLocal m) (rises : Rises below m o o') :
    Rises below start o o' := by
  intro a after done
  obtain ⟨further, same⟩ := rises a after done
  exact ⟨stays.trans further, same⟩

theorem Rises.bind {next : α → Machine → Outcome β} (first : Rises below start o o')
    (second : ∀ a after, o = .done a after → after.Local →
      Rises below after (next a after) (next a (after.on below))) :
    Rises below start (o.bind next) (o'.bind next) := by
  intro b ended done
  cases o with
  | failed f m => cases done
  | done a m =>
    obtain ⟨stays, same⟩ := first a m rfl
    obtain ⟨further, ends⟩ := second a m rfl stays.code b ended done
    exact ⟨stays.trans further, by rw [same]; exact ends⟩

theorem Rises.onFault (g : Machine → Machine) (rises : Rises below start o o') :
    Rises below start (o.onFault g) (o'.onFault g) := by
  intro a after done
  cases o with
  | failed f m => cases done
  | done b m =>
    cases done
    obtain ⟨stays, same⟩ := rises a after rfl
    exact ⟨stays, by rw [same]; rfl⟩

/-- The place of execution may be set back. -/
theorem Rises.atPlace (ip : Option Int) (rises : Rises below start o o') :
    Rises below start (o.adjust fun ended => { ended with ip := ip })
      (o'.adjust fun ended => { ended with ip := ip }) := by
  intro a after done
  cases o with
  | failed f m => cases done
  | done b m =>
    cases done
    obtain ⟨stays, same⟩ := rises a m rfl
    exact ⟨⟨stays.code, stays.natives⟩, by rw [same]; rfl⟩

end Outcome

/-- Performing an action that looks at the top alone. -/
theorem Action.perform_on {action : Action} {arguments : List Value} {v : Value}
    {m after : Machine} (call : Caller) (below : List Value) (top : action.isLocal = true)
    (h : action.perform call arguments m = .done v after) :
    action.perform call arguments (m.on below) = .done v (after.on below) := by
  cases action with
  | host f => cases top
  | primitive p => exact Primitive.perform_on below top h
  | directive d => exact Directive.perform_on below h

namespace Machine

open Outcome (Rises)

variable {m after : Machine} {base : Nat} (call : Caller) (below : List Value)

theorem Local.perform {action : Action} {arguments : List Value} {v : Value} (code : m.Local)
    (top : action.isLocal = true) (h : action.perform call arguments m = .done v after) :
    m.StaysLocal after := by
  cases action with
  | host f => cases top
  | primitive p =>
    have edits := p.edits_perform arguments m
    have frame := frame_perform p arguments m
    rw [show p.perform arguments m = .done v after from h] at edits frame
    refine code.stays edits.nativesStay fun entry inside => ?_
    rw [show after.code = m.code from congrArg Frame.code frame] at inside
    exact inside
  | directive d =>
    have edits := d.edits_perform arguments m
    rw [show d.perform arguments m = .done v after from h] at edits
    refine code.stays edits.nativesStay fun entry inside => ?_
    cases applied : d.apply arguments m with
    | error f => simp [Action.perform, Directive.perform_eq, applied] at h
    | ok ended =>
      simp only [Action.perform, Directive.perform_eq, applied] at h
      cases h
      exact Directive.native_mem applied inside

/-- Calling a native word. -/
theorem Local.callNative {n : Native} (code : m.Local) (name : String)
    (top : n.action.isLocal = true) :
    Rises below m (m.callNative call name n) ((m.on below).callNative call name n) := by
  intro a after done
  refine ⟨?_, callWith_on below done fun _ _ _ _ => Action.perform_on call below top⟩
  obtain ⟨-, v, ended, rfl, performed⟩ := exists_of_callWith done
  have started : Local { m with toStore := (m.toStore.take n.arity).2 } := code
  have stays := started.perform call top performed
  have pushed := stays.code.stays (edits_pushResult n v ended).nativesStay fun entry inside => by
    rwa [show (ended.pushResult n v).code = ended.code from
      congrArg Frame.code (frame_pushResult n v ended)] at inside
  exact ⟨pushed.code, stays.natives.trans pushed.natives⟩

/-- A turn that a native action is handed over by has come to a native cell. -/
theorem Local.enter {name : String} {n : Native} (code : m.Local)
    (turned : m.turn base = .enter name n after) : n.action.isLocal = true := by
  obtain ⟨entry, immediate, resume, at_, known, -, -⟩ := native_of_enter turned
  exact code entry _ (mem_of_current? at_) known

theorem Local.loop (base credit : Nat) (code : m.Local) :
    Rises below m (m.loop call base credit) ((m.on below).loop call base credit) := by
  fun_induction Machine.loop call base credit m with
  | case1 credit m after turned ih =>
    obtain ⟨stays, lifted⟩ := code.turned below turned rfl
    rw [loop_of_next call lifted]
    exact .since stays (ih stays.code)
  | case2 credit m after turned =>
    obtain ⟨stays, lifted⟩ := code.turned below turned rfl
    rw [loop_of_halt call lifted]
    exact .done () stays
  | case3 credit m f after turned => exact .failed f
  | case4 m name n after turned => exact .failed _
  | case5 m name n after turned credit ended called ih =>
    obtain ⟨stays, lifted⟩ := code.turned below turned rfl
    have reached : after.Local := stays.code
    have calls := reached.callNative call below name (code.enter turned)
    obtain ⟨further, lifted_call⟩ := calls () ended called
    rw [loop_of_enter call lifted, lifted_call]
    exact .since (stays.trans further) (ih further.code)
  | case6 m name n after turned credit f ended called => exact .failed f

theorem discardStale_on (below : List Value) (m : Machine) :
    (m.on below).discardStale = m.discardStale.on below := by
  unfold discardStale
  simp only [show (m.on below).ip = m.ip from rfl, show (m.on below).returns = m.returns from rfl]
  split
  · exact note_on _ _ _ below { m with returns := .empty }
  · rfl

theorem Local.executeAddress (address : Value) (code : m.Local) :
    Rises below m (m.executeAddress call address) ((m.on below).executeAddress call address) := by
  obtain ⟨notes, stale⟩ := m.discardStale_eq
  have started : Local m.discardStale := stale ▸ code
  unfold Machine.executeAddress
  simp only [discardStale_on,
    show (m.discardStale.on below).locate address = m.discardStale.locate address from rfl]
  cases m.discardStale.locate address with
  | error f => exact .failed f
  | ok place =>
    have begun : Local { m.discardStale with ip := place } := started
    have reached : m.StaysLocal { m.discardStale with ip := place } :=
      ⟨begun, .of_eq (by rw [stale])⟩
    exact .atPlace m.ip (.since reached (begun.loop call below _ maxEntries))

/-- Running an entry of the dictionary. -/
theorem Local.executeEntry {entry : Nat} (code : m.Local)
    (top : ∀ w, m.dictionary.get? entry = some w → w.isLocal = true) :
    Rises below m (m.executeEntry call entry) ((m.on below).executeEntry call entry) := by
  unfold Machine.executeEntry
  simp only [show (m.on below).dictionary = m.dictionary from rfl, pushAll_on]
  split
  · next name immediate n known => exact code.callNative call below name (top _ known)
  · exact code.executeAddress call below _
  · next slot behavior known =>
    have pushed : m.StaysLocal (m.pushAll [.cell slot]) := ⟨code, .of_eq rfl⟩
    split
    · exact .done () pushed
    · exact .since pushed (pushed.code.executeAddress call below _)
  · exact .failed _

/-! ## Tokens -/

/-- The words that tokens refer to, each in the state in which its token is fed.  The name of
the open definition refers to no word. -/
inductive Refers (call : Caller) : List Token → Machine → Word → Prop where
  | first {name : String} {rest : List Token} {m : Machine} {entry : Nat} {w : Word}
      (other : m.ownAddress? name = none) (found : m.dictionary.find? name = some entry)
      (known : m.dictionary.get? entry = some w) : Refers call (.word name :: rest) m w
  | later {token : Token} {rest : List Token} {m after : Machine} {w : Word}
      (fed : m.interpret call token = .done () after) (refers : Refers call rest after w) :
      Refers call (token :: rest) m w

theorem Local.interpretLiterals (values : List Value) (code : m.Local) :
    Rises below m (m.interpretLiterals values) ((m.on below).interpretLiterals values) := by
  unfold Machine.interpretLiterals
  simp only [show (m.on below).compiling = m.compiling from rfl, pushAll_on, writeLiterals_on,
    show (m.on below).joinedLiterals values = m.joinedLiterals values from rfl]
  split
  · next compiling =>
    split
    · next joined found =>
      have edit := edit_writeLiterals compiling found
      exact .done () (code.stays edit.nativesStay fun _ => native_mem_writeLiterals)
    · exact .failed _
  · exact .done () ⟨code, .of_eq rfl⟩

theorem Local.interpretName {name : String} (code : m.Local)
    (top : ∀ entry w, m.ownAddress? name = none → m.dictionary.find? name = some entry →
      m.dictionary.get? entry = some w → w.isLocal = true) :
    Rises below m (m.interpretName call name) ((m.on below).interpretName call name) := by
  unfold Machine.interpretName
  simp only [show (m.on below).ownAddress? name = m.ownAddress? name from rfl,
    show (m.on below).lookup name = m.lookup name from rfl,
    show (m.on below).dictionary = m.dictionary from rfl,
    show (m.on below).compiling = m.compiling from rfl]
  split
  · exact .done () (code.append nofun)
  · next other =>
    split
    · exact .failed _
    · next entry looked =>
      have found : m.dictionary.find? name = some entry := by
        unfold Store.lookup at looked
        split at looked
        · next found =>
          cases looked
          exact found
        · cases looked
      have means : ∀ w, m.dictionary.get? entry = some w → w.isLocal = true :=
        fun w => top entry w other found
      split
      · exact .failed _
      · next w known =>
        split
        · refine .done () (code.append fun called v native => ?_)
          have same : called = entry := by
            unfold cellOf at native
            split at native <;> cases native
            rfl
          subst same
          exact means v
        · exact code.executeEntry call below means

theorem Local.interpret {token : Token} (code : m.Local)
    (top : ∀ w, Refers call [token] m w → w.isLocal = true) :
    Rises below m (m.interpret call token) ((m.on below).interpret call token) := by
  unfold Machine.interpret
  refine .onFault _ ?_
  cases token with
  | word name =>
    refine code.interpretName call below fun entry w other found known => ?_
    exact top w (.first other found known)
  | datum v => exact code.interpretLiterals below [v]
  | batch values => exact code.interpretLiterals below values
  | malformed content => exact .failed _

/-- What a token refers to does not depend on the tokens after it. -/
theorem Refers.of_single {token : Token} {w : Word} (rest : List Token)
    (refers : Refers call [token] m w) : Refers call (token :: rest) m w := by
  cases refers with
  | first other found known => exact .first other found known
  | later fed none_ => cases none_

theorem Local.run (tokens : List Token) (code : m.Local)
    (top : ∀ w, Refers call tokens m w → w.isLocal = true) :
    Rises below m (m.run call tokens) ((m.on below).run call tokens) := by
  induction tokens generalizing m with
  | nil => exact .done () code.refl
  | cons token rest ih =>
    have first := code.interpret call below fun w refers => top w (refers.of_single call rest)
    refine first.bind fun _ after fed reached => ?_
    exact ih reached fun w refers => top w (.later fed refers)

/-- It is enough to look at the tokens before the run: a name that refers to a native word
later on has meant the same word at the start. -/
theorem Local.isLocal_of_refers {tokens : List Token} {w : Word} (code : m.Local)
    (names : ∀ name entry v, .word name ∈ tokens → m.dictionary.find? name = some entry →
      m.dictionary.get? entry = some v → v.isLocal = true)
    (refers : Refers call tokens m w) : w.isLocal = true := by
  induction refers with
  | first other found known => exact names _ _ _ (List.mem_cons_self ..) found known
  | @later token rest m after w fed refers ih =>
    have first : ∀ v, Refers call [token] m v → v.isLocal = true := by
      intro v single
      cases single with
      | first other found known => exact names _ _ _ (List.mem_cons_self ..) found known
      | later fed none_ => cases none_
    obtain ⟨stays, -⟩ := code.interpret call [] first () after fed
    refine ih stays.code fun name entry v inside found known => ?_
    obtain ⟨word, immediate, body⟩ := v
    cases body with
    | colon address => rfl
    | created slot behavior => rfl
    | native n =>
      have before := stays.natives.names found known rfl
      exact stays.natives.isLocal
        (fun u => names name entry u (List.mem_cons_of_mem _ inside) before) known

end Machine

namespace Session

open Machine

/-- Words see only the values they use.  Where neither the tokens nor the code cells refer to
`depth`, to `clear` or to a host callable, a run that succeeds also succeeds with any values
below the data stack, which it leaves where they are; in all else the two machines end in the
same state. -/
theorem run_on {m after : Machine} {tokens : List Token} (cells : m.Local)
    (words : ∀ w, Refers Host.caller tokens m w → w.isLocal = true)
    (done : run tokens m = .done () after) (below : List Value) :
    run tokens (m.on below) = .done () (after.on below) ∧
      (m.on below).stack.toList = below ++ m.stack.toList ∧
      (after.on below).stack.toList = below ++ after.stack.toList :=
  ⟨(cells.run Host.caller below tokens words () after done).2, Stack.toList_on below m.stack,
    Stack.toList_on below after.stack⟩

/-- Tokens that define a word and run it.  While the word is compiled, a value is taken from
the data stack, and the word looks one place below the top. -/
def scaling : List Token :=
  [.batch [.text "f"], .word "define", .word "literal", .datum (.int 1), .word "pick",
    .word "mul", .word "return", .word "f"]

/-- A machine with two values on its data stack. -/
def scalable : Machine :=
  { bare 8 false with stack := (Stack.empty.push (.int 3)).push (.int 5) }

/-- The machine after the last token. -/
def scaled : Machine :=
  let defined := (run (scaling.take 7) scalable).machine
  { defined with stack := (Stack.empty.push (.int 3)).push (.int 15), nextMark := 1 }

theorem run_scaling : run scaling scalable = .done () scaled := by
  have ended := executeAddress_of_halt Host.caller 3 0 (run (scaling.take 7) scalable).machine
    { scaled with ip := none } rfl
  show ((Machine.executeAddress Host.caller (.int 0)
    (run (scaling.take 7) scalable).machine).onFault abandonIfCompiling).bind
      (fun () after => .done () after) = _
  rw [ended]
  rfl

theorem run_on_scaling :
    run scaling scalable = .done () scaled ∧
      run scaling (scalable.on [.none, .int 8]) = .done () (scaled.on [.none, .int 8]) ∧
      (scalable.on [.none, .int 8]).stack.toList = [.none, .int 8, .int 3, .int 5] ∧
      (scaled.on [.none, .int 8]).stack.toList = [.none, .int 8, .int 3, .int 15] := by
  have cells : scalable.Local := fun entry w inside => absurd inside (Array.not_mem_empty _)
  refine ⟨run_scaling, run_on cells
    (fun w refers => cells.isLocal_of_refers Host.caller ?_ refers) run_scaling [.none, .int 8]⟩
  have checked : ∀ token ∈ scaling, (match token with
      | .word name => ((scalable.dictionary.find? name).bind scalable.dictionary.get?).all
        Word.isLocal
      | _ => true) = true := by decide +kernel
  intro name entry v inside found known
  simpa [found, known] using checked _ inside

end Session
end ThreadedForth
