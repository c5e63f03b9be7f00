import ThreadedForth.Session.Basic

/-!
# Words that do all of their work or none

A routine changes the state as it goes, and if it fails it leaves the state it has come to.
Nothing about routines as such says that this is the state it began with.  For the builtin
words it is, and the reason lies in the order of their statements: whatever can fail comes
before the first change.  A word that checked its second argument after it had used its
first would not be among them, nor would one that took values off before it knew that they
were of the right kind.

So each word is compared with *work in one piece*, a function that yields the state the word
leaves, or a fault and no state at all.

* `Routine.whole` does work in one piece, and on failure leaves the state alone
  (`Routine.whole_keeps`).
* `Routine.check_bind_of_error` and `Routine.check_bind_of_ok`: a check has changed nothing,
  whether it fails or not.
* `Routine.check_bind_whole`: a check in front of work in one piece is work in one piece.
* `Routine.swap_eq`, `Routine.gather_eq`, `Routine.create_eq`, `Routine.finish_eq` and so on:
  what each word does, statement by statement, is work in one piece.
* `Primitive.run_eq` and `Directive.run_eq`: so it is for all primitives and all directives, by
  the functions `Primitive.apply` and `Directive.apply`.
* `Primitive.machine_of_failed` and `Directive.machine_of_failed`: one that fails leaves
  every part of the machine as it was.

The rest of the development speaks of words by the functions `apply`.
-/

namespace ThreadedForth

namespace Routine

variable {σ α β : Type}

/-! ### Work in one piece -/

/-- Does work in one piece: if it fails, nothing has changed. -/
def whole (work : σ → Except Fault (α × σ)) : Routine σ α := fun s =>
  match work s with
  | .ok (a, t) => .ok a t
  | .error f => .error f s

/-- Work in one piece without a result. -/
def change (work : σ → Except Fault σ) : Routine σ Unit := whole fun s => (work s).map ((), ·)

/-- Work in one piece that fails leaves the state alone. -/
theorem whole_keeps {work : σ → Except Fault (α × σ)} {s t : σ} {f : Fault}
    (fails : whole work s = .error f t) : t = s := by
  unfold whole at fails
  split at fails
  · cases fails
  · cases fails
    rfl

theorem whole_of_ok {work : σ → Except Fault (α × σ)} {s t : σ} {a : α}
    (ends : work s = .ok (a, t)) : whole work s = .ok a t := by
  rw [whole, ends]

theorem whole_of_error {work : σ → Except Fault (α × σ)} {s : σ} {f : Fault}
    (ends : work s = .error f) : whole work s = .error f s := by
  rw [whole, ends]

theorem change_of_ok {work : σ → Except Fault σ} {s t : σ} (ends : work s = .ok t) :
    change work s = .ok () t := by
  rw [change, whole, ends]
  rfl

theorem change_of_error {work : σ → Except Fault σ} {s : σ} {f : Fault}
    (ends : work s = .error f) : change work s = .error f s := by
  rw [change, whole, ends]
  rfl

/-- A statement that succeeds hands over its result, with the state it has come to. -/
theorem bind_of_ok {r : Routine σ α} {s t : σ} {a : α} (ends : r s = .ok a t)
    (next : α → Routine σ β) : (r >>= next) s = next a t := by
  simp only [bind, EStateM.bind, ends]

theorem bind_of_error {r : Routine σ α} {s t : σ} {f : Fault} (ends : r s = .error f t)
    (next : α → Routine σ β) : (r >>= next) s = .error f t := by
  simp only [bind, EStateM.bind, ends]

theorem get_apply (s : σ) : (get : Routine σ σ) s = .ok s s := rfl

theorem modify_apply (g : σ → σ) (s : σ) : (modify g : Routine σ Unit) s = .ok () (g s) := rfl

theorem check_of_ok {look : σ → Except Fault α} {s : σ} {a : α} (seen : look s = .ok a) :
    check look s = .ok a s := by
  rw [check, seen]

theorem check_of_error {look : σ → Except Fault α} {s : σ} {f : Fault}
    (seen : look s = .error f) : check look s = .error f s := by
  rw [check, seen]

theorem get_bind (next : σ → Routine σ α) (s : σ) : (get >>= next) s = next s s := rfl

/-- A check that fails ends the routine, and nothing has changed. -/
theorem check_bind_of_error {look : σ → Except Fault α} {s : σ} {f : Fault}
    (seen : look s = .error f) (next : α → Routine σ β) : (check look >>= next) s = .error f s :=
  bind_of_error (check_of_error seen) next

/-- A check that succeeds has changed nothing. -/
theorem check_bind_of_ok {look : σ → Except Fault α} {s : σ} {a : α} (seen : look s = .ok a)
    (next : α → Routine σ β) : (check look >>= next) s = next a s :=
  bind_of_ok (check_of_ok seen) next

/-- A check in front of work in one piece. -/
theorem check_bind_whole {look : σ → Except Fault α} {next : α → Routine σ β}
    {work : α → σ → Except Fault (β × σ)}
    (same : ∀ a s, look s = .ok a → next a s = whole (work a) s) :
    (check look >>= next) = whole fun s => look s >>= fun a => work a s := by
  funext s
  cases seen : look s with
  | error f =>
    rw [check_bind_of_error seen]
    exact (whole_of_error (by rw [seen]; rfl)).symm
  | ok a =>
    rw [check_bind_of_ok seen, same a s seen, whole, whole, seen]
    rfl

theorem check_bind_change {look : σ → Except Fault α} {next : α → Routine σ Unit}
    {work : α → σ → Except Fault σ} (same : ∀ a s, look s = .ok a → next a s = change (work a) s) :
    (check look >>= next) = change fun s => look s >>= fun a => work a s := by
  refine (check_bind_whole same).trans (congrArg whole (funext fun s => ?_))
  simp only [bind, Except.bind]
  cases look s <;> rfl

theorem check_eq_whole (look : σ → Except Fault α) :
    check look = whole fun s => (look s).map (·, s) := by
  funext s
  unfold check whole
  cases seen : look s <;> simp only [seen, Except.map]

theorem silent_change (work : Store → Except Fault Store) :
    silent (change work) = whole fun s => (work s).map (Value.none, ·) := by
  funext s
  unfold silent
  cases ends : work s with
  | error f =>
    rw [bind_of_error (change_of_error ends)]
    exact (whole_of_error (by rw [ends]; rfl)).symm
  | ok t =>
    rw [bind_of_ok (change_of_ok ends)]
    exact (whole_of_ok (by rw [ends]; rfl)).symm

end Routine

/-! ### The data stack -/

namespace Stack

variable {α : Type}

theorem length_take (n : Nat) (s : Stack α) : (s.take n).1.length = min n s.depth := by
  simp [take, s.depth_eq]

theorem pop?_of_lt_one {s : Stack α} (few : s.depth < 1) : s.pop? = none := by
  rw [pop?_eq_none_iff]
  exact List.eq_nil_of_length_eq_zero (s.depth_eq.symm.trans (Nat.lt_one_iff.mp few))

/-- A stack that holds something is a value on top of a stack. -/
theorem exists_push {s : Stack α} (holds : 0 < s.depth) : ∃ top below, s = push top below := by
  cases popped : s.pop? with
  | none =>
    rw [pop?_eq_none_iff] at popped
    rw [s.depth_eq, popped] at holds
    cases holds
  | some found =>
    refine ⟨found.1, found.2, ext ?_⟩
    rw [items_push, pop?_eq_some_iff.mp popped]

theorem take_push (top : α) (below : Stack α) : (push top below).take 1 = ([top], below) :=
  Prod.ext rfl (ext rfl)

theorem take_push_push (b a : α) (below : Stack α) :
    (push b (push a below)).take 2 = ([a, b], below) :=
  Prod.ext rfl (ext rfl)

end Stack

namespace Store

/-- Computes a value that may need a mark, unless that fails. -/
def compute (value : Nat → Except Fault Value) (s : Store) : Except Fault (Value × Store) := do
  return (← value s.nextMark, s.advance)

/-- Takes the top values off: a single value for a count of one, and otherwise a list
with the oldest first. -/
def pop (count : Value) (s : Store) : Except Fault (Value × Store) := do
  let n ← s.readCount "pop" count
  s.require n none
  match s.take n with
  | ([single], rest) => return (single, rest)
  | (values, rest) => return rest.make (.list · values)

/-- Exchanges the two values on top. -/
def swap (s : Store) : Except Fault Store :=
  match s.stack.take 2 with
  | ([b, a], rest) => .ok { s with stack := (rest.push a).push b }
  | _ => .error (.underflow 2 s.stack.depth (some "swap"))

/-- Drops the value on top. -/
def drop (s : Store) : Except Fault Store :=
  match s.stack.pop? with
  | some (_, rest) => .ok { s with stack := rest }
  | none => .error (.underflow 1 0 (some "drop"))

/-- Replaces the top values by the list of them, the oldest first. -/
def gather (count : Value) (s : Store) : Except Fault Store := do
  let n ← s.readCount "gather" count
  s.require n (some "gather")
  let (values, rest) := s.take n
  let (gathered, after) := rest.make (.list · values)
  return after.push gathered

/-- Replaces a list or tuple on top by its items. -/
def spread (s : Store) : Except Fault Store :=
  match s.stack.pop? with
  | some (.list _ items, rest) => .ok { s with stack := rest.pushAll items }
  | some (.tuple _ items, rest) => .ok { s with stack := rest.pushAll items }
  | some (v, _) => .error (v.quoting s.slots .notAComposite)
  | none => .error (.underflow 1 0 (some "spread"))

/-- Removes the value that stands a number of places below the top. -/
def pluck (index : Value) (s : Store) : Except Fault (Value × Store) := do
  let i ← s.readCount "pluck" index
  s.require (i + 1) (some "pluck")
  return (s.stack.items.getD i .none, { s with stack := s.stack.eraseIdx i })

theorem require_of_lt {needed : Nat} {s : Store} (short : s.stack.depth < needed)
    (word : Option String) :
    s.require needed word = .error (.short needed s.stack.depth word) := if_pos short

theorem require_of_le {needed : Nat} {s : Store} (enough : needed ≤ s.stack.depth)
    (word : Option String) : s.require needed word = .ok () := if_neg (Nat.not_lt.mpr enough)

theorem le_of_require {needed : Nat} {word : Option String} {s : Store}
    (enough : s.require needed word = .ok ()) : needed ≤ s.stack.depth := by
  refine Nat.le_of_not_lt fun few => ?_
  rw [require_of_lt few] at enough
  cases enough

/-- A count is the same on behalf of every word. -/
theorem readCount_of_ok {word : String} {v : Value} {s : Store} {n : Nat}
    (counted : s.readCount word v = .ok n) (other : String) : s.readCount other v = .ok n := by
  cases v with
  | int i =>
    simp only [readCount] at counted ⊢
    by_cases negative : i < 0
    · rw [if_pos negative] at counted
      cases counted
    · rw [if_neg negative] at counted ⊢
      exact counted
  | _ => cases counted

theorem swap_of_lt {s : Store} (few : s.stack.depth < 2) :
    s.swap = .error (.short 2 s.stack.depth (some "swap")) := by
  rw [Fault.short_of_lt (Number.lt_decimalBound_of_le_two (Nat.le_refl 2))]
  have length := Stack.length_take 2 s.stack
  unfold swap
  split
  · next taken =>
    rw [taken] at length
    simp only [List.length_cons, List.length_nil] at length
    omega
  · rfl

theorem swap_of_le {s : Store} (enough : 2 ≤ s.stack.depth) :
    s.swap = .ok { s with stack := ((s.stack.take 2).2.push (s.nth 0)).push (s.nth 1) } := by
  obtain ⟨b, above, same⟩ := Stack.exists_push (Nat.lt_of_lt_of_le Nat.zero_lt_two enough)
  obtain ⟨a, below, rfl⟩ : ∃ a below, above = Stack.push a below := by
    refine Stack.exists_push (Nat.lt_of_succ_lt_succ ?_)
    rwa [same] at enough
  simp only [swap, nth, same, Stack.take_push_push, Stack.items_push, List.getD_cons_zero,
    List.getD_cons_succ]

/-- Taking off more than one value, or none, yields the list of them. -/
theorem popped_of_ne_one {n : Nat} {s : Store} (enough : n ≤ s.stack.depth) (several : n ≠ 1) :
    (match s.take n with
      | ([single], rest) => (return (single, rest) : Except Fault (Value × Store))
      | (values, rest) => return rest.make (.list · values)) =
    .ok ((s.take n).2.make (.list · (s.take n).1)) := by
  have length := Stack.length_take n s.stack
  rw [Nat.min_eq_left enough] at length
  split
  · next top rest taken =>
    rw [show (s.stack.take n).1 = [top] from congrArg Prod.fst taken] at length
    exact absurd length.symm several
  · next values rest _ taken =>
    rw [taken]
    rfl

theorem spread_of_lt {s : Store} (few : s.stack.depth < 1) :
    s.spread = .error (.short 1 s.stack.depth (some "spread")) := by
  rw [spread, Stack.pop?_of_lt_one few, Nat.lt_one_iff.mp few,
    Fault.short_of_lt (Number.lt_decimalBound_of_le_two (Nat.le_succ 1))]

theorem drop_of_lt {s : Store} (few : s.stack.depth < 1) :
    s.drop = .error (.short 1 s.stack.depth (some "drop")) := by
  rw [drop, Stack.pop?_of_lt_one few, Nat.lt_one_iff.mp few,
    Fault.short_of_lt (Number.lt_decimalBound_of_le_two (Nat.le_succ 1))]

end Store

namespace Routine

theorem compute_eq (value : Nat → Except Fault Value) :
    compute value = whole (Store.compute value) :=
  check_bind_whole fun _ _ _ => rfl

theorem pop_eq (count : Value) : pop count = whole (Store.pop count) := by
  refine check_bind_whole fun n s _ => congrFun (check_bind_whole fun _ t enough => ?_) s
  by_cases single : n = 1
  · subst single
    obtain ⟨top, below, same⟩ := Stack.exists_push (Store.le_of_require enough)
    simp only [if_pos, whole, popTop, Store.take, same, Stack.pop?_push, Stack.take_push]
    rfl
  · rw [if_neg single, whole_of_ok (Store.popped_of_ne_one (Store.le_of_require enough) single)]
    rfl

/-- What is done behind a check that there are values enough is work in one piece, if the work
fails alike when there are too few. -/
theorem require_bind {needed : Nat} {word : String} {next : Routine Store Unit}
    {work : Store → Except Fault Store}
    (few : ∀ {s : Store}, s.stack.depth < needed →
      work s = .error (.short needed s.stack.depth (some word)))
    (enough : ∀ s : Store, needed ≤ s.stack.depth → next s = change work s) :
    (check (Store.require needed (some word)) >>= fun _ => next) = change work := by
  funext s
  obtain short | held := Nat.lt_or_ge s.stack.depth needed
  · rw [check_bind_of_error (Store.require_of_lt short _)]
    exact (change_of_error (few short)).symm
  · rw [check_bind_of_ok (Store.require_of_le held _)]
    exact enough s held

theorem swap_eq : swap = change Store.swap :=
  require_bind Store.swap_of_lt fun _ enough => (change_of_ok (Store.swap_of_le enough)).symm

theorem drop_eq : drop = change Store.drop := by
  refine require_bind Store.drop_of_lt fun s enough => ?_
  obtain ⟨top, below, same⟩ := Stack.exists_push enough
  simp only [bind, EStateM.bind, popTop, change, whole, Store.drop, same, Stack.pop?_push]
  rfl

theorem gather_eq (count : Value) : gather count = change (Store.gather count) := by
  refine check_bind_change fun n s counted => ?_
  have enough : ∀ u, s.require n (some "gather") = .ok u → n ≤ s.stack.depth :=
    fun _ => Store.le_of_require
  cases required : s.require n (some "gather") with
  | error f =>
    rw [check_bind_of_error required]
    exact (change_of_error (by rw [required]; rfl)).symm
  | ok u =>
    rw [check_bind_of_ok required]
    by_cases single : n = 1
    · subst single
      obtain ⟨top, below, same⟩ := Stack.exists_push (enough u required)
      simp only [change, whole, required, Store.take, same, Stack.take_push]
      simp only [if_pos, bind, EStateM.bind, popTop, same, Stack.pop?_push]
      rfl
    · have popped : s.pop count = .ok ((s.take n).2.make (.list · (s.take n).1)) := by
        rw [← Store.popped_of_ne_one (enough u required) single, Store.pop,
          Store.readCount_of_ok counted "pop"]
        simp only [bind, Except.bind, Store.require_of_le (enough u required) none]
      rw [if_neg single, pop_eq, bind_of_ok (whole_of_ok popped), change, whole, required]
      rfl

theorem spread_eq : spread = change Store.spread := by
  refine require_bind Store.spread_of_lt fun s enough => ?_
  obtain ⟨top, below, same⟩ := Stack.exists_push enough
  have seen : s.nth 0 = top := by
    rw [Store.nth, same]
    rfl
  rw [get_bind]
  simp only [bind, seen, change, whole, Store.spread, same, Stack.pop?_push]
  cases top with
  | list mark items | tuple mark items =>
    simp only [EStateM.bind, popTop, same, Stack.pop?_push]
    rfl
  | _ => rfl

theorem pluck_eq (index : Value) : pluck index = whole (Store.pluck index) := by
  refine check_bind_whole fun i s _ => congrFun (check_bind_whole fun _ t _ => ?_) s
  rfl

theorem clear_eq : clear = change fun s => .ok { s with stack := .empty } := rfl

end Routine

/-! ### The primitives -/

namespace Store

/-- Opens a colon definition whose code begins at `here`. -/
def define (here : Nat) (name : Value) (s : Store) : Except Fault Store := do
  let valid ← s.readName name
  s.checkIdle valid.1
  return { s with
    draft := some (.opened valid here), compiling := true, barrier := here }

/-- Makes a word with a fresh slot, and yields the slot. -/
def create (name : Value) (s : Store) : Except Fault (Value × Store) := do
  let valid ← s.checkName name
  let slot := s.slots.size
  let entry := s.dictionary.size
  let installed := s.install ⟨valid, false, .created slot .none⟩
  let made := { installed with
    slots := installed.slots.push .none
    lastCreated := some entry
    lastDefined := some entry }
  return (.cell slot, made.note .debug .defining ("created '" ++ valid ++ "'"))

/-- Registering an entry and adding a slot can change places. -/
theorem install_addSlot (w : Word) (v : Value) (s : Store) :
    { s with slots := s.slots.push v }.install w =
      { s.install w with slots := (s.install w).slots.push v } := by
  unfold install note
  dsimp only
  split
  · split <;> rfl
  · rfl

/-- Puts a value into the slot of a cell. -/
def store (v target : Value) (s : Store) : Except Fault Store :=
  match target with
  | .cell slot => .ok { s with slots := s.slots.setIfInBounds slot v }
  | _ => .error (target.quoting s.slots (.notACell "store"))

/-- Writes the character with the code that is the integer of a value. -/
def emit (v : Value) (s : Store) : Except Fault Store := do
  return s.tell (.emitted (← v.characterCode))

end Store

namespace Routine

theorem define_eq (here : Nat) (name : Value) :
    define here name = change (Store.define here name) := by
  refine check_bind_change fun valid s _ => congrFun (check_bind_change fun _ t _ => ?_) s
  rfl

theorem install_apply {w : Word} {s : Store} (valid : Text.allBlank w.name.toList = false) :
    install w s = .ok s.dictionary.size (s.install w) := by
  have checked : Store.checkName (.text w.name) s = .ok w.name := Word.checkName_text valid
  unfold install
  rw [check_bind_of_ok checked]
  rfl

theorem create_eq (name : Value) : create name = whole (Store.create name) := by
  funext s
  have checked : s.checkName name = (s.readName name).map Subtype.val := rfl
  unfold create
  cases read : s.readName name with
  | error f =>
    rw [check_bind_of_error read]
    exact (whole_of_error (by rw [Store.create, checked, read]; rfl)).symm
  | ok valid =>
    rw [check_bind_of_ok read, whole, Store.create, checked, read, bind_of_ok (get_apply s),
      bind_of_ok (modify_apply _ s), bind_of_ok (install_apply valid.2), Store.install_addSlot]
    rfl

theorem store_eq (v target : Value) : store v target = change (Store.store v target) := by
  funext s
  cases target <;> rfl

theorem write_eq (text : Store → Except Fault String) :
    write text = change fun s => (text s).map fun shown => s.write shown := by
  funext s
  unfold write
  cases shown : text s with
  | error f =>
    rw [check_bind_of_error shown]
    exact (change_of_error (by rw [shown]; rfl)).symm
  | ok wording =>
    rw [check_bind_of_ok shown]
    exact (change_of_ok (by rw [shown]; rfl)).symm

theorem emit_eq (v : Value) : emit v = change (Store.emit v) := by
  refine check_bind_change fun code s _ => ?_
  rfl

end Routine

namespace Primitive

/-- The outcome of a primitive that has no result. -/
def silent (s : Store) : Value × Store := (.none, s)

/-- Applies a primitive to its arguments.  `here` is the next free address of the
code. -/
def apply (here : Nat) (p : Primitive) (arguments : List Value) (s : Store) :
    Except Fault (Value × Store) :=
  match p, arguments with
  | swap, [] => do return silent (← s.swap)
  | drop, [] => do return silent (← s.drop)
  | gather, [count] => do return silent (← s.gather count)
  | spread, [] => do return silent (← s.spread)
  | pluck, [index] => s.pluck index
  | pick, [index] => do return (← s.pick index, s)
  | depth, [] => .ok (.int s.stack.depth, s)
  | clear, [] => .ok (silent { s with stack := .empty })
  | define, [name] => do return silent (← s.define here name)
  | load, [v] => do return (← s.load v, s)
  | store, [v, target] => do return silent (← s.store v target)
  | create, [name] => s.create name
  | add, [a, b] => s.compute (Value.add · a b)
  | sub, [a, b] => s.compute (Value.sub · a b)
  | mul, [a, b] => s.compute (Value.mul · a b)
  | div, [a, b] => s.compute (Value.div · a b)
  | mod, [a, b] => s.compute (Value.mod s.slots · a b)
  | negate, [a] => s.compute (Value.negate · a)
  | equal, [a, b] => .ok (.bool (a.same b), s)
  | compare c, [a, b] => do return (.bool (← Value.ordered c a b), s)
  | nop, [] => .ok (silent s)
  | print, [v] => do return silent (s.write ((← v.plain s.slots) ++ "\n"))
  | dot, [v] => do return silent (s.write ((← v.brief s.slots) ++ " "))
  | cr, [] => .ok (silent (s.write "\n"))
  | emit, [v] => do return silent (← s.emit v)
  | type, [v] => do return silent (s.write (← v.plain s.slots))
  | constant v, [] => .ok (v, s)
  | _, _ => .error .argumentExcess

theorem silent_eq {r : Routine Store Unit} {work : Store → Except Fault Store}
    (same : r = .change work) : r.silent = .whole fun s => do return silent (← work s) := by
  rw [same, Routine.silent_change]
  refine congrArg Routine.whole (funext fun s => ?_)
  cases work s <;> rfl

theorem check_eq {look : Store → Except Fault Value} :
    Routine.check look = .whole fun s => do return (← look s, s) := by
  rw [Routine.check_eq_whole]
  refine congrArg Routine.whole (funext fun s => ?_)
  cases look s <;> rfl

theorem ordered_eq (c : Value.Comparison) (a b : Value) :
    (Routine.check fun _ : Store => (Value.ordered c a b).map Value.bool) =
      .whole fun s => do return (Value.bool (← Value.ordered c a b), s) := by
  refine check_eq.trans (congrArg Routine.whole (funext fun s => ?_))
  cases Value.ordered c a b <;> rfl

theorem write_eq (text : Store → Except Fault String) :
    (Routine.write text).silent = .whole fun s => do return silent (s.write (← text s)) := by
  refine (silent_eq (Routine.write_eq _)).trans (congrArg Routine.whole (funext fun s => ?_))
  cases text s <;> rfl

/-- Writing a text with something behind it. -/
theorem write_map_eq (text : Store → Except Fault String) (finish : String → String) :
    (Routine.write fun s => (text s).map finish).silent =
      .whole fun s => do return silent (s.write (finish (← text s))) := by
  refine (write_eq _).trans (congrArg Routine.whole (funext fun s => ?_))
  cases text s <;> rfl

/-- Every primitive is work in one piece. -/
theorem run_eq (here : Nat) (p : Primitive) (arguments : List Value) :
    p.run here arguments = .whole (p.apply here arguments) := by
  unfold run
  split
  · exact silent_eq Routine.swap_eq
  · exact silent_eq Routine.drop_eq
  · exact silent_eq (Routine.gather_eq _)
  · exact silent_eq Routine.spread_eq
  · exact Routine.pluck_eq _
  · exact check_eq
  · exact check_eq
  · exact silent_eq Routine.clear_eq
  · exact silent_eq (Routine.define_eq _ _)
  · exact check_eq
  · exact silent_eq (Routine.store_eq _ _)
  · exact Routine.create_eq _
  · exact Routine.compute_eq _
  · exact Routine.compute_eq _
  · exact Routine.compute_eq _
  · exact Routine.compute_eq _
  · next a b =>
    exact funext fun s => congrFun (Routine.compute_eq (Value.mod s.slots · a b)) s
  · exact Routine.compute_eq _
  · rfl
  · exact ordered_eq _ _ _
  · rfl
  · exact write_map_eq _ _
  · exact write_map_eq _ _
  · rfl
  · exact silent_eq (Routine.emit_eq _)
  · exact write_eq _
  · rfl
  · refine funext fun s => (Routine.whole_of_error ?_).symm
    unfold apply
    split
    all_goals first
      | rfl
      | simp_all

/-- The outcome of a primitive, from the function that says what it does. -/
theorem perform_eq (p : Primitive) (arguments : List Value) (m : Machine) :
    p.perform arguments m = .ofStore m (p.apply m.here arguments m.toStore) := by
  unfold perform
  rw [run_eq]
  cases ends : p.apply m.here arguments m.toStore with
  | ok result => rw [Routine.whole_of_ok ends]; rfl
  | error f => rw [Routine.whole_of_error ends]; rfl

/-- A primitive that fails leaves every part of the machine as it was. -/
theorem machine_of_failed {p : Primitive} {arguments : List Value} {m after : Machine} {f : Fault}
    (fails : p.perform arguments m = .failed f after) : after = m := by
  unfold perform at fails
  cases ends : p.run m.here arguments m.toStore with
  | ok v s =>
    rw [ends] at fails
    cases fails
  | error g s =>
    have same : s = m.toStore := Routine.whole_keeps (congrFun (run_eq ..) _ ▸ ends)
    rw [ends, same] at fails
    cases fails
    rfl

end Primitive

/-! ### The directives -/

namespace Machine

/-- Compiles literals. -/
def compileLiterals (values : List Value) (m : Machine) : Except Fault Machine := do
  return m.writeLiterals values (← m.joinedLiterals values)

/-- Registers the word of a finished definition. -/
def installDraft (draft : Draft) (m : Machine) : Machine :=
  let entry := m.dictionary.size
  let store := m.toStore.install ⟨draft.name, draft.immediate, .colon draft.address⟩
  let installed := { m with toStore := { store with lastDefined := some entry } }
  installed.noteDefined draft

/-- Ends the open definition. -/
def finish (m : Machine) : Except Fault Machine := do
  m.requireCompiling "return"
  let closed := { m.append .exit with compiling := false, draft := none }
  match m.draft with
  | some draft => return closed.installDraft draft
  | none => return closed

/-- Marks the open definition as immediate, or else the entry defined last. -/
def markImmediate (m : Machine) : Except Fault Machine :=
  match m.compiling, m.draft, m.lastDefined with
  | true, some draft, _ => .ok { m with draft := some { draft with immediate := true } }
  | _, _, some entry => .ok { m with dictionary := m.dictionary.markImmediate entry }
  | _, _, none => .error .nothingToMark

/-- Compiles an exit into the open definition. -/
def compileExit (m : Machine) : Except Fault Machine := do
  m.requireCompiling "exit"
  return m.append .exit

/-- Compiles a value into the open definition. -/
def compileValue (v : Value) (m : Machine) : Except Fault Machine := do
  m.requireCompiling "literal"
  m.compileLiterals [v]

/-- Ends the making of a word and begins its behavior. -/
def compileDoes (m : Machine) : Except Fault Machine := do
  m.requireCompiling "does"
  let behavior := m.here + 2
  let extended := (m.append (.does behavior)).append .exit
  return { extended with barrier := behavior }

end Machine

namespace Routine

variable {α : Type}

theorem onStore_of_ok {r : Routine Store α} {m : Machine} {s : Store} {a : α}
    (ends : r m.toStore = .ok a s) : onStore r m = .ok a { m with toStore := s } := by
  rw [onStore, focus, ends]

theorem finish_eq : finish = change Machine.finish := by
  refine check_bind_change fun _ m _ => ?_
  rw [bind_of_ok (get_apply m), bind_of_ok (modify_apply _ m), bind_of_ok (modify_apply _ _),
    bind_of_ok (modify_apply _ _)]
  cases open_ : m.draft with
  | none => exact (change_of_ok (by simp only [open_]; rfl)).symm
  | some draft =>
    refine (bind_of_ok (onStore_of_ok (install_apply draft.valid)) _).trans ?_
    exact (change_of_ok (by simp only [open_]; rfl)).symm

theorem markImmediate_eq : markImmediate = change Machine.markImmediate := by
  funext m
  obtain ⟨⟨stack, slots, dictionary, compiling, draft, last, created, barrier, next, transcript,
    journal, verbose⟩, code, returns, ip, capacity⟩ := m
  cases compiling <;> cases draft <;> cases last <;> rfl

theorem compileExit_eq : compileExit = change Machine.compileExit :=
  check_bind_change fun _ _ _ => rfl

theorem compileValue_eq (v : Value) : compileValue v = change (Machine.compileValue v) := by
  refine check_bind_change fun _ m _ => ?_
  refine congrFun (check_bind_change fun joined m _ => ?_) m
  rfl

theorem compileDoes_eq : compileDoes = change Machine.compileDoes := by
  refine check_bind_change fun _ m _ => ?_
  rw [bind_of_ok (get_apply m), bind_of_ok (modify_apply _ m), bind_of_ok (modify_apply _ _),
    modify_apply]
  simp only [Machine.here, Machine.append, Array.size_push]
  rfl

end Routine

namespace Directive

/-- Applies a directive to its arguments. -/
def apply (d : Directive) (arguments : List Value) (m : Machine) : Except Fault Machine :=
  match d, arguments with
  | finish, [] => m.finish
  | immediate, [] => m.markImmediate
  | exit, [] => m.compileExit
  | literal, [v] => m.compileValue v
  | does, [] => m.compileDoes
  | _, _ => .error .argumentExcess

/-- Every directive is work in one piece. -/
theorem run_eq (d : Directive) (arguments : List Value) :
    d.run arguments = .change (d.apply arguments) := by
  unfold run
  split
  · exact Routine.finish_eq
  · exact Routine.markImmediate_eq
  · exact Routine.compileExit_eq
  · exact Routine.compileValue_eq _
  · exact Routine.compileDoes_eq
  · refine funext fun m => (Routine.change_of_error ?_).symm
    unfold apply
    split
    all_goals first
      | rfl
      | simp_all

/-- The outcome of a directive, from the function that says what it does. -/
theorem perform_eq (d : Directive) (arguments : List Value) (m : Machine) :
    d.perform arguments m =
      match d.apply arguments m with
      | .ok after => .done .none after
      | .error f => .failed f m := by
  unfold perform
  rw [run_eq]
  cases ends : d.apply arguments m with
  | ok after => rw [Routine.change_of_ok ends]
  | error f => rw [Routine.change_of_error ends]

/-- A directive that fails leaves every part of the machine as it was. -/
theorem machine_of_failed {d : Directive} {arguments : List Value} {m after : Machine} {f : Fault}
    (fails : d.perform arguments m = .failed f after) : after = m := by
  unfold perform at fails
  cases ends : d.run arguments m with
  | ok _ next =>
    rw [ends] at fails
    cases fails
  | error g reached =>
    have same : reached = m := Routine.whole_keeps (congrFun (run_eq ..) _ ▸ ends)
    rw [ends, same] at fails
    cases fails
    rfl

end Directive

/-! ### The operations of a session on the data stack -/

namespace Session

theorem onStore_whole {α : Type} {r : Routine Store α} {work : Store → Except Fault (α × Store)}
    (same : r = .whole work) (m : Machine) : onStore r m = .ofStore m (work m.toStore) := by
  unfold onStore
  rw [same]
  cases ends : work m.toStore with
  | ok result => rw [Routine.whole_of_ok ends]; rfl
  | error f => rw [Routine.whole_of_error ends]; rfl

theorem onStore_change {r : Routine Store Unit} {work : Store → Except Fault Store}
    (same : r = .change work) (m : Machine) :
    onStore r m = .ofStore m ((work m.toStore).map ((), ·)) :=
  onStore_whole same m

end Session
end ThreadedForth
