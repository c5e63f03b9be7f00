import ThreadedForth.Proofs.Compilation
import ThreadedForth.Proofs.Supervision

/-!
# Words are bound when they are defined

A word that is compiled into another one is put there as a cell that holds its number, or its
address.  Its name is not looked up again.  So defining a word under an old name should leave
the words alone that were compiled before, and `Session.bound_when_defined` says that it does:
a colon word does the same whatever a session has done in between.

A session may do a lot in between.  It can define words, and fail to; it can mark old words
as immediate, hand out marks, make slots and fill them, and join literals to the last cell of
the code.  Two things must not happen, since the word would rightly notice them: storing into
a slot that was there, and giving a behavior to a word that was there (`Session.Spares`).
Where nothing has been created before, they cannot happen (`Session.spares_of_nothing_created`).

The argument has two halves.

* What is there is kept (`Machine.Kept`), except for the last cell of the code.  One move
  keeps it (`Machine.Kept.move`), and a session amounts to moves (`Session.moves_play`).
* What is kept does the same (`Machine.Kept.executeAddress`).  The machines agree on what is
  reached in the first one, in the sense of `Machine.Counterpart`, and the stores are alike up
  to the renaming that moves the new marks and cells of the first machine past those that the
  second one has got since (`Machine.renamingTo`).  Here it is needed that all values in the
  first machine are known: they are not renamed.

The last cell is left out because it can be a literal one of a definition that is open.  Code
that is in order has no part in it.  The condition is needed: `Session.bound_differs_dangling`
has a state in which a word is entered where the code ends.
-/

namespace ThreadedForth
namespace Machine

variable {m n after : Machine} {roots : Nat → Prop}

/-! ## What is kept -/

/-- What there is in `m` is still there: its slots hold the same values, its words are the
same up to their being immediate, and its code is the same.  Only the last cell of the code
may have changed, unless it is an exit. -/
structure Kept (m after : Machine) : Prop where
  capacity : after.capacity = m.capacity
  marks : m.nextMark ≤ after.nextMark
  size : m.slots.size ≤ after.slots.size
  slots : ∀ k < m.slots.size, after.slots[k]? = m.slots[k]?
  words : ∀ entry w, m.dictionary.get? entry = some w →
    ∃ marked, after.dictionary.get? entry = some { w with immediate := marked }
  longer : m.code.size ≤ after.code.size
  cells : ∀ a cell, m.code[a]? = some cell → a + 1 < m.code.size ∨ cell = .exit →
    after.code[a]? = some cell

theorem Kept.refl (m : Machine) : m.Kept m :=
  ⟨rfl, Nat.le_refl _, Nat.le_refl _, fun _ _ => rfl, fun _ w known => ⟨w.immediate, known⟩,
    Nat.le_refl _, fun _ _ known _ => known⟩

/-- What has been made since `m` may be changed. -/
def Permit.since (m : Machine) : Permit where
  slot k := m.slots.size ≤ k
  entry k := m.dictionary.size ≤ k

variable {start : Machine}

/-- Only what concerns the change has to be looked at. -/
theorem Kept.of_changed (kept : start.Kept m) (capacity : after.capacity = m.capacity)
    (marks : m.nextMark ≤ after.nextMark) (size : m.slots.size ≤ after.slots.size)
    (slots : ∀ k < start.slots.size, after.slots[k]? = m.slots[k]?)
    (words : ∀ entry w, entry < start.dictionary.size → m.dictionary.get? entry = some w →
      ∃ marked, after.dictionary.get? entry = some { w with immediate := marked })
    (code : after.code = m.code) : start.Kept after where
  capacity := capacity.trans kept.capacity
  marks := Nat.le_trans kept.marks marks
  size := Nat.le_trans kept.size size
  slots k low := (slots k low).trans (kept.slots k low)
  words entry w known := by
    obtain ⟨marked, before⟩ := kept.words entry w known
    have low := Dictionary.get?_eq_some_iff_lt.mp ⟨w, known⟩
    exact words entry { w with immediate := marked } low before
  longer := code ▸ kept.longer
  cells := code ▸ kept.cells

theorem Kept.of_code (kept : start.Kept m) {code : Array Cell}
    (longer : start.code.size ≤ code.size)
    (cells : ∀ a cell, m.code[a]? = some cell → a + 1 < start.code.size ∨ cell = .exit →
      code[a]? = some cell) : start.Kept { m with code := code } where
  capacity := kept.capacity
  marks := kept.marks
  size := kept.size
  slots := kept.slots
  words := kept.words
  longer := longer
  cells a cell known inner := cells a cell (kept.cells a cell known inner) inner

/-- A move that changes only what is new keeps what was there. -/
theorem Kept.move (kept : start.Kept m) (moved : Move (.since start) m after) :
    start.Kept after := by
  have same : ∀ entry w, entry < start.dictionary.size → m.dictionary.get? entry = some w →
      ∃ marked, m.dictionary.get? entry = some { w with immediate := marked } :=
    fun entry w _ known => ⟨w.immediate, known⟩
  have pushed : ∀ new entry w, entry < start.dictionary.size →
      m.dictionary.get? entry = some w →
      ∃ marked, (m.dictionary.push new).get? entry = some { w with immediate := marked } := by
    intro new entry w _ known
    have low := Dictionary.get?_eq_some_iff_lt.mp ⟨w, known⟩
    exact ⟨w.immediate, (Dictionary.get?_push_of_lt _ low).trans known⟩
  cases moved with
  | books holdings =>
    refine kept.of_changed holdings.capacity (Nat.le_of_eq holdings.nextMark.symm) ?_ ?_ ?_
      holdings.code
    · exact Nat.le_of_eq (congrArg Array.size holdings.slots).symm
    · exact fun k _ => congrArg (·[k]?) holdings.slots
    · rw [holdings.dictionary]
      exact same
  | data reckons =>
    refine kept.of_changed rfl reckons.marks ?_ ?_ ?_ rfl
    · exact Nat.le_of_eq (congrArg Array.size reckons.slots).symm
    · exact fun k _ => congrArg (·[k]?) reckons.slots
    · rw [reckons.books.dictionary]
      exact same
  | @store slot v permitted known =>
    refine kept.of_changed rfl (Nat.le_refl _) ?_ (fun k low => ?_) same rfl
    · exact Nat.le_of_eq Array.size_setIfInBounds.symm
    · have other : slot ≠ k := Nat.ne_of_gt (Nat.lt_of_lt_of_le low permitted)
      exact Array.getElem?_setIfInBounds_ne other
  | append known =>
    refine kept.of_code (by simp; exact Nat.le_succ_of_le kept.longer) fun a cell known _ => ?_
    have low := (Array.getElem?_eq_some_iff.mp known).1
    rw [Array.getElem?_push_lt low]
    exact known ▸ (Array.getElem?_eq_getElem low).symm
  | @join last values all ends known joined =>
    obtain ⟨earlier, same⟩ := Array.back?_eq_some_iff.mp ends
    have longer := kept.longer
    refine kept.of_code ?_ fun a cell known inner => ?_
    · simpa [same] using longer
    -- the last cell of all is neither inside the code that was there nor an exit
    · rw [same, Array.size_push] at longer
      rw [same, Array.getElem?_push] at known
      rw [same, Array.pop_push, Array.getElem?_push]
      split at known
      · cases known
        rcases inner with low | rfl
        · omega
        · cases joined
      · next other => rw [if_neg other, known]
  | mark target =>
    refine kept.of_changed rfl (Nat.le_refl _) (Nat.le_refl _) (fun _ _ => rfl) ?_ rfl
    intro entry w _ known
    simp only [Dictionary.get?_markImmediate, known]
    split
    · exact ⟨true, rfl⟩
    · exact ⟨w.immediate, rfl⟩
  | register known =>
    exact kept.of_changed rfl (Nat.le_refl _) (Nat.le_refl _) (fun _ _ => rfl) (pushed _) rfl
  | create name =>
    refine kept.of_changed rfl (Nat.le_refl _) (by simp) (fun k low => ?_) (pushed _) rfl
    have low : k < m.slots.size := Nat.lt_of_lt_of_le low kept.size
    simp [Array.getElem?_push, Nat.ne_of_lt low]
  | @bind target v permitted known =>
    refine kept.of_changed rfl (Nat.le_refl _) (Nat.le_refl _) (fun _ _ => rfl) ?_ rfl
    intro entry w low known
    have other : target ≠ entry := Nat.ne_of_gt (Nat.lt_of_lt_of_le low permitted)
    simp only [Dictionary.get?_setBehavior, if_neg other]
    exact ⟨w.immediate, known⟩

theorem Moves.kept (moved : Moves (.since m) m after) : m.Kept after := by
  induction moved with
  | refl => exact .refl m
  | tail _ last ih => exact ih.move last

/-! ## Running what is kept -/

/-- How the new marks and cells of the first machine are called in the second one. -/
def renamingTo (m after : Machine) : Renaming :=
  .shift m.bounds (after.nextMark - m.nextMark) (after.slots.size - m.slots.size)

/-- The stores come from `m` and from `after`, whose words are still theirs, and have the same
data. -/
structure InStep (m after : Machine) (s t : Store) : Prop where
  alike : s.Alike (m.renamingTo after) m.transcript after.transcript t
  words : s.dictionary = m.dictionary
  words' : t.dictionary = after.dictionary
  size : s.slots.size = m.slots.size

theorem InStep.pushAll {values : List Value} {s t : Store} (same : m.InStep after s t)
    (known : ∀ v ∈ values, v.Known m.bounds) :
    m.InStep after (s.pushAll values) (t.pushAll values) := by
  have stays : values.map (Value.rename (m.renamingTo after)) = values :=
    Value.map_rename_shift known _ _
  have pushed := same.alike.pushAll values
  rw [stays] at pushed
  exact ⟨pushed, same.words, same.words', same.size⟩

/-- The slots are carried along. -/
theorem Kept.carries (kept : m.Kept after) (tidy : m.Tidy) :
    (m.renamingTo after).Carries m.slots after.slots := by
  intro k
  by_cases low : k < m.slots.size
  · have here : (m.renamingTo after).cell k = k := if_pos low
    have known := tidy.slots _ (Array.getElem_mem low)
    rw [here, kept.slots k low, Array.getElem?_eq_getElem low, Option.map_some]
    exact congrArg some (Value.rename_shift known _ _).symm
  · have there : (m.renamingTo after).cell k = k + (after.slots.size - m.slots.size) := if_neg low
    have size := kept.size
    rw [there, Array.getElem?_eq_none (by omega), Array.getElem?_eq_none (by omega)]
    rfl

/-- Stores with the same data stack start with the same data. -/
theorem Kept.inStep (kept : m.Kept after) (tidy : m.Tidy) (stack : after.stack = m.stack)
    (notes notes' : List Note) :
    m.InStep after { m.toStore with journal := notes }
      { after.toStore with journal := notes' } where
  alike := by
    refine ⟨?_, kept.carries tidy, fun k => ?_, [], rfl, rfl⟩
    · show after.stack.items = m.stack.items.map _
      rw [stack]
      exact (Value.map_rename_shift tidy.stack _ _).symm
    · have marks := kept.marks
      have new : ¬ m.nextMark + k < m.nextMark := by omega
      have moved : (m.renamingTo after).mark (m.nextMark + k) =
          m.nextMark + k + (after.nextMark - m.nextMark) := if_neg new
      show after.nextMark + k = (m.renamingTo after).mark (m.nextMark + k)
      omega
  words := rfl
  words' := rfl
  size := rfl

/-- Reached code that is in order is kept: of a reached cell that is no exit the next one is
reached too, so it is not the last one. -/
theorem Kept.cells_of_reached {a : Nat} {cell : Cell} (kept : m.Kept after)
    (inOrder : m.InOrder roots) (reached : m.Reached roots (.address a))
    (known : m.code[a]? = some cell) : after.code[a]? = some cell := by
  refine kept.cells a cell known ?_
  by_cases last : cell = .exit
  · exact .inr last
  · have fetched : m.fetch a = .ok cell := fetch_eq_ok_iff.mpr known
    obtain ⟨b, _, next, there, -⟩ := inOrder.cells _ (.next reached fetched last)
    have low := (Array.getElem?_eq_some_iff.mp there).1
    have next : a + 1 = b := by exact_mod_cast next
    exact .inl (next ▸ low)

/-- The machines agree on what is reached in the first one. -/
theorem Kept.counterpart (kept : m.Kept after) (tidy : m.Tidy) (inOrder : m.InOrder roots)
    (quiet : m.GivesNothing roots) : m.Counterpart after roots (m.InStep after) where
  capacity := kept.capacity
  cells reached known := kept.cells_of_reached inOrder reached known
  words {s t entry w} same _ known := by
    rw [same.words] at known
    rw [same.words']
    exact kept.words entry w known
  literal {s t address values} same _ fetched :=
    same.pushAll (tidy.code _ (mem_of_fetch fetched))
  slot {s t entry slot name immediate behavior} same _ known := by
    refine same.pushAll fun v inside => ?_
    rw [List.mem_singleton.mp inside]
    exact Value.known_cell.mpr (tidy.words _ _ known).1
  calculation {s t entry name immediate n p} same _ known kind calculation := by
    have fixed : p.Fixed (m.renamingTo after) := by
      rintro v rfl
      exact Value.rename_shift (tidy.words _ _ known v kind) _ _
    refine (callPrimitive_alike name n calculation fixed { m with toStore := s }
      { after with toStore := t } same.alike).mono ?_
    rintro u v ⟨books, books', alike⟩
    exact ⟨books, alike, books.dictionary.trans same.words, books'.dictionary.trans same.words',
      books.size.trans same.size⟩
  behavior _ within fetched := absurd fetched (quiet _ _ within)

/-- Reached code does the same on both machines, when nothing else runs. -/
theorem Kept.executeAddress (kept : m.Kept after) (tidy : m.Tidy) (inOrder : m.InOrder roots)
    (calculates : m.Calculates roots) (quiet : m.GivesNothing roots) (stack : after.stack = m.stack)
    (still : m.ip = none) (still' : after.ip = none) {address : Int}
    (reached : m.Reached roots (.address address)) (call : Caller) :
    (after.executeAddress call (.int address)).fault? =
        (m.executeAddress call (.int address)).fault? ∧
      m.InStep after (m.executeAddress call (.int address)).machine.toStore
        (after.executeAddress call (.int address)).machine.toStore := by
  obtain ⟨notes, first⟩ := executeAddress_follows call address m.toStore m.returns still
  obtain ⟨notes', second⟩ := executeAddress_follows call address after.toStore after.returns still'
  have later : m.Later roots { m.toStore with journal := notes } :=
    (Later.refl m roots).sameBooks ⟨rfl, rfl, rfl, rfl, rfl, rfl, rfl, rfl⟩
  have compared : m.Compared roots (m.InStep after) (0 < 0)
      (m.eval 0 address { m.toStore with journal := notes })
      (after.eval 0 address { after.toStore with journal := notes' }) :=
    eval_compared (kept.counterpart tidy inOrder quiet) inOrder calculates 0 reached later
      (kept.inStep tidy stack notes notes')
  generalize m.eval 0 address { m.toStore with journal := notes } = e at first compared
  generalize after.eval 0 address { after.toStore with journal := notes' } = e' at second compared
  cases compared with
  | overflow below => exact absurd below (Nat.lt_irrefl 0)
  | done later related =>
    obtain ⟨returns, first⟩ := first
    obtain ⟨returns', second⟩ := second
    rw [first, second]
    exact ⟨rfl, related⟩
  | failed later related =>
    obtain ⟨ended, first, rfl⟩ := first
    obtain ⟨ended', second, rfl⟩ := second
    rw [first, second]
    exact ⟨rfl, related⟩

/-- The machine with nothing running and with this data stack. -/
def atRest (stack : Stack Value) (m : Machine) : Machine := { m with stack := stack, ip := none }

/-- What words reach does not depend on the data stack, nor on what is running. -/
theorem reached_of_atRest {stack : Stack Value} {place : Place}
    (reached : (m.atRest stack).Reached roots place) : m.Reached roots place := by
  induction reached with
  | root root => exact .root root
  | colon _ known body ih => exact .colon ih known body
  | behavior _ known body ih => exact .behavior ih known body
  | next _ fetched inner ih => exact .next ih fetched inner
  | call _ fetched ih => exact .call ih fetched
  | native _ fetched ih => exact .native ih fetched
  | created _ fetched ih => exact .created ih fetched
  | does _ fetched last _ ih within => exact .does ih fetched last within

theorem InOrder.atRest (inOrder : m.InOrder roots) (stack : Stack Value) :
    (m.atRest stack).InOrder roots :=
  ⟨fun address reached => inOrder.cells address (reached_of_atRest reached),
    fun entry w reached known => inOrder.entries entry w (reached_of_atRest reached) known⟩

theorem Tidy.atRest {stack : Stack Value} (tidy : m.Tidy)
    (known : ∀ v ∈ stack.items, v.Known m.bounds) : (m.atRest stack).Tidy :=
  ⟨⟨known, tidy.slots⟩, tidy.code, tidy.words⟩

theorem Kept.atRest (kept : m.Kept after) (stack : Stack Value) :
    (m.atRest stack).Kept (after.atRest stack) :=
  ⟨kept.capacity, kept.marks, kept.size, kept.slots, kept.words, kept.longer, kept.cells⟩

end Machine

/-! ## Sessions -/

/-- A run that began in `after` has repeated one that began in `m`: it has failed with the
same fault or has not failed either, it has left the same values on the data stack, and it
has written the same.  Lists and the like that were made by the runs are not the same ones,
so their marks may differ. -/
structure Outcome.Repeats (m after : Machine) (o o' : Outcome Unit) : Prop where
  fault : o'.fault? = o.fault?
  stack : ∃ r : Renaming, (∀ k, r.cell k = k) ∧ (∀ k < m.nextMark, r.mark k = k) ∧
    o'.machine.stack.items = o.machine.stack.items.map (Value.rename r)
  written : ∃ new, o.machine.transcript = new ++ m.transcript ∧
    o'.machine.transcript = new ++ after.transcript

namespace Session

open Machine

/-- Whatever goes on in the session, it stores into no slot that there is in `m` and gives no
word of `m` a behavior. -/
def Spares (session : List Operation) (m : Machine) : Prop :=
  ∀ depth activity state, Begins session m depth activity state →
    (∀ slot, activity.Stores state slot → m.slots.size ≤ slot) ∧
      ∀ entry, activity.Binds state entry → m.dictionary.size ≤ entry

theorem Spares.supervised {session : List Operation} {m : Machine} (spares : Spares session m) :
    Supervised (.since m) (Begins session m) where
  starts around starts := .inner around starts
  stores begun into := (spares _ _ _ begun).1 _ into
  binds begun gives := (spares _ _ _ begun).2 _ gives

/-- Where nothing has been created yet, a session may do whatever it likes. -/
theorem spares_of_nothing_created (session : List Operation) {m : Machine} (tidy : m.Tidy)
    (slots : m.slots.size = 0) (nothing : m.lastCreated = none) : Spares session m := by
  intro depth activity state begun
  refine ⟨fun slot _ => slots ▸ Nat.zero_le slot, fun entry gives => ?_⟩
  obtain ⟨moved, -⟩ := begun.moves (supervised_anywhere .inner) tidy
  obtain ⟨-, since⟩ := moved.created_since nothing
  cases activity with
  | turns base credit =>
    obtain ⟨cell, behavior, -, -, last⟩ := gives
    exact since entry last
  | _ => cases gives

/-- Words are bound when they are defined.  Take a state that a session has reached, and a
colon word that reaches no host callable, no word that begins a definition and no cell that
gives a behavior.  Let a session go on from there in any way, defining and redefining what it
likes, as long as it stores into no slot that was there and gives no word that was there a
behavior.  Then the code of the word still does what it did before.

What the word reaches has to be in order.  It always is when code has been run through words
only and no cells have been handed in. -/
theorem bound_when_defined {before later : List Operation} {capacity : Int}
    {withPrelude verbose : Bool} {m : Machine} {entry address : Nat} {name : String}
    {immediate : Bool} {stack : Stack Value}
    (reached : m = play before (fresh capacity withPrelude verbose))
    (word : m.dictionary.get? entry = some ⟨name, immediate, .colon address⟩)
    (calculates : m.Calculates (· = entry)) (quiet : m.GivesNothing (· = entry))
    (whole : (∀ operation ∈ before, operation.Within (throughWords fun _ => True)) ∨
      m.InOrder (· = entry))
    (known : ∀ v ∈ stack.items, v.Known m.bounds) (spares : Spares later m) :
    Outcome.Repeats m (play later m) (executeAddress (.int address) (m.atRest stack))
      (executeAddress (.int address) ((play later m).atRest stack)) := by
  have tidy : m.Tidy := by
    rw [reached]
    exact tidy_play before (tidy_fresh capacity withPrelude verbose)
  have inOrder : m.InOrder (· = entry) := by
    rcases whole with within | inOrder
    · exact inOrder_of_within reached within _
    · exact inOrder
  have kept : m.Kept (play later m) := (moves_play spares.supervised tidy).kept
  have rested : (m.atRest stack).Tidy := tidy.atRest known
  have enters : (m.atRest stack).Reached (· = entry) (.address address) :=
    .colon (.root rfl) word rfl
  obtain ⟨fault, same⟩ := (kept.atRest stack).executeAddress rested (inOrder.atRest stack)
    (fun entry w n reached => calculates entry w n (reached_of_atRest reached))
    (fun address target reached => quiet address target (reached_of_atRest reached))
    rfl rfl rfl enters Host.caller
  refine ⟨fault, ?_, same.alike.written⟩
  -- the first run has made no slots, so the cells that it leaves are not renamed
  have free : Supervised anywhere fun _ _ _ => True := supervised_anywhere fun _ _ => trivial
  have ended : (executeAddress (.int address) (m.atRest stack)).machine.Tidy :=
    Moves.tidy rested (free.moves_executeAddress (free.obeys_callHost Host.maxDepth) trivial rested)
  have size : (executeAddress (.int address) (m.atRest stack)).machine.slots.size =
    m.slots.size := same.size
  let r := (m.atRest stack).renamingTo ((play later m).atRest stack)
  let q : Renaming := ⟨r.mark, id, r.mark_injective, Function.injective_id⟩
  refine ⟨q, fun _ => rfl, fun k low => if_pos low, ?_⟩
  refine same.alike.stack.trans (List.map_congr_left fun v inside => ?_)
  refine Value.rename_congr (r := r) (q := q) (fun _ _ => rfl) (fun k low => ?_)
    (ended.stack v inside)
  exact if_pos (Nat.lt_of_lt_of_eq low size)

/-- A session that defines a word in terms of another one. -/
def stepping : List Operation := [.define (.text "step") [.datum (.int 1), .word "+"]]

/-- The state in which the session leaves the machine. -/
def stepped : Machine := play stepping (fresh 16 false false)

/-- A session in which the names of both words get another meaning.  Besides, it gives up a
definition, makes a slot and stores into it. -/
def shadowing : List Operation :=
  [.execute ": + drop 7 ;", .execute ": bad 1 step nosuch", .execute "9 \"box\" create store",
    .defineConstant (.text "step") (.int 7)]

/-- A data stack with one value. -/
def five : Stack Value := Stack.empty.push (.int 5)

/-- From the word one gets to its code and to the word for addition. -/
theorem isCalm_stepped : stepped.isCalm [40, 22] [0, 1, 2] := by decide +kernel

theorem bound_when_defined_shadowed :
    stepped.dictionary.find? "+" = some 22 ∧ stepped.dictionary.find? "step" = some 40 ∧
      (play shadowing stepped).dictionary.find? "+" = some 41 ∧
      (play shadowing stepped).dictionary.find? "step" = some 43 ∧
      Outcome.Repeats stepped (play shadowing stepped)
        (executeAddress (.int 0) (stepped.atRest five))
        (executeAddress (.int 0) ((play shadowing stepped).atRest five)) := by
  have played : stepped = play stepping (fresh 16 false false) := rfl
  have word : stepped.dictionary.get? 40 = some ⟨"step", false, .colon 0⟩ := rfl
  have rooted : ∀ entry, entry = 40 → entry ∈ [40, 22] := by
    rintro entry rfl
    decide
  have names : (play shadowing stepped).dictionary.find? "+" = some 41 ∧
      (play shadowing stepped).dictionary.find? "step" = some 43 := by decide +kernel
  refine ⟨by decide +kernel, by decide +kernel, names.1, names.2,
    bound_when_defined played word ?_ ?_ (.inl ?_) ?_ ?_⟩
  · exact calculates_of_isCalm isCalm_stepped rooted
  · exact givesNothing_of_isCalm isCalm_stepped rooted
  · intro operation inside
    rw [List.mem_singleton.mp inside]
    trivial
  · intro v inside
    rw [List.mem_singleton.mp inside]
    exact Value.known_int 5
  · have tidy : stepped.Tidy := tidy_play stepping (tidy_fresh 16 false false)
    exact spares_of_nothing_created shadowing tidy rfl rfl

/-- A session that gives up a definition and then runs what is left of it by its address.
The word `w` gets a behavior that begins where the code ends, and then a definition is opened
there.  The word `x` runs `w`. -/
def dangling : List Operation :=
  [.run [.batch [.text "w"], .word "create", .word "drop"],
    .run [.batch [.text "x"], .word "define", .word "w", .word "return"],
    .run [.batch [.text "bad"], .word "define", .word "does", .word "nosuch"],
    .executeAddress (.int 2), .run [.batch [.text "g"], .word "define"]]

/-- The state before the last operation of the session. -/
def hanging : Machine :=
  let left := play (dangling.take 3) (fresh 16 false false)
  { left with dictionary := left.dictionary.setBehavior 40 (.int 4) }

/-- The state in which the session leaves the machine. -/
def dangled : Machine := play (dangling.drop 4) hanging

theorem play_dangling : play dangling (fresh 16 false false) = dangled := by
  have ended := executeAddress_of_halt Host.caller 1 2
    (play (dangling.take 3) (fresh 16 false false)) { hanging with ip := none } rfl
  show play (dangling.drop 4) (Result.ofSelf (Machine.executeAddress Host.caller (.int 2)
    (play (dangling.take 3) (fresh 16 false false)))).machine = dangled
  rw [ended]
  rfl

/-- A session that compiles a literal into the open definition. -/
def filling : List Operation := [.interpret (.datum (.int 7))]

/-- In a session of one operation only what the operation starts goes on. -/
theorem Begins.of_single {operation own : Operation} {m ready state : Machine} {depth : Nat}
    {activity : Activity} {P : Activity → Prop}
    (begun : Begins [operation] m depth activity state)
    (copied : m.marking (operation.copy m.slots.size) = .done own ready)
    (first : ∀ activity, own.activity? = some activity → P activity)
    (inner : ∀ depth depth' outer activity state state', P outer →
      outer.Starts depth state depth' activity state' → P activity) : P activity := by
  induction begun with
  | @operation before after other own' ready' activity order copied' amounts =>
    cases before with
    | cons _ rest => simp at order
    | nil =>
      cases order
      cases copied.symm.trans copied'
      exact first activity amounts
  | inner around starts ih => exact inner _ _ _ _ _ _ ih starts

/-- From the word one gets to its code, to `w` and to the end of the code. -/
theorem isCalm_dangled : dangled.isCalm [41, 40] [0, 1, 4] := by decide +kernel

theorem spares_filling (m : Machine) : Spares filling m := by
  intro depth activity state begun
  have only : activity = .token (.datum (.int 7)) := by
    refine begun.of_single (P := (· = .token (.datum (.int 7)))) rfl ?_ ?_
    · rintro activity ⟨⟩
      rfl
    · rintro depth depth' outer activity state state' rfl starts
      cases starts
  rw [only]
  exact ⟨nofun, nofun⟩

/-- At first the word runs into the end of the code. -/
theorem fault_dangled :
    (executeAddress (.int 0) (dangled.atRest .empty)).fault? = some (dangled.ranOff (.int 4)) := by
  let called : Machine := { dangled.atRest (Stack.empty.push (.cell 0)) with
    returns := Stack.empty.push 1 }
  have ended := executeAddress_of_fault Host.caller 1 0 (dangled.atRest .empty)
    (dangled.ranOff (.int 4)) { called with ip := some 4 } rfl
  rw [executeAddress, ended]
  rfl

/-- Later it runs into the literal. -/
theorem fault_filled :
    (executeAddress (.int 0) ((play filling dangled).atRest .empty)).fault? =
      some (dangled.ranOff (.int 5)) := by
  let filled : Machine := play filling dangled
  let called : Machine := { filled.atRest ((Stack.empty.push (.cell 0)).push (.int 7)) with
    returns := Stack.empty.push 1 }
  have ended := executeAddress_of_fault Host.caller 2 0 (filled.atRest .empty)
    (dangled.ranOff (.int 5)) { called with ip := some 5 } rfl
  rw [executeAddress, ended]
  rfl

/-- What the word reaches has to be in order.  Here it is not, and what is compiled later
changes what the word does. -/
theorem bound_differs_dangling :
    ∃ m, m = play dangling (fresh 16 false false) ∧
      m.dictionary.get? 41 = some ⟨"x", false, .colon 0⟩ ∧ m.Calculates (· = 41) ∧
      m.GivesNothing (· = 41) ∧ (∀ v ∈ (Stack.empty : Stack Value).items, v.Known m.bounds) ∧
      Spares filling m ∧
      ¬ Outcome.Repeats m (play filling m) (executeAddress (.int 0) (m.atRest .empty))
        (executeAddress (.int 0) ((play filling m).atRest .empty)) := by
  have rooted : ∀ entry, entry = 41 → entry ∈ [41, 40] := by
    rintro entry rfl
    decide
  refine ⟨dangled, play_dangling.symm, rfl, ?_, ?_, nofun, spares_filling dangled,
    fun repeats => ?_⟩
  · exact calculates_of_isCalm isCalm_dangled rooted
  · exact givesNothing_of_isCalm isCalm_dangled rooted
  · have same := repeats.fault
    rw [fault_dangled, fault_filled] at same
    exact absurd same (by decide +kernel)

end Session
end ThreadedForth
