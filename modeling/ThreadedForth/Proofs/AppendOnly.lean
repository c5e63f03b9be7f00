import ThreadedForth.Proofs.Contract.Invariant

/-!
# Code only grows

Compiling writes at the end of the code, with one exception: a literal that follows another
one is joined to the cell of the first, which is overwritten for this.  What keeps the
exception from doing harm is the barrier.  It is set where a definition opens and again where
a behavior begins, and it is left as it stands when a definition is given up.  So the last
cell of the code may well be a literal cell at or behind the barrier although it belongs to
a body that was given up; the point is that nothing is compiled then, and that the next
definition sets the barrier anew before anything is.

Seen from a state of the machine, the code that comes later is the code of that state with
more cells behind it; or a definition was open then, its last cell was a literal one, and
this cell has got further values before more cells came (`Machine.Grown`).  Which of the two
is still possible is told by the barrier: as long as it has not been set anew it stands where
the definition that was open then began, and afterwards it stands behind all the cells that
there were (`Machine.Extended.fenced`).

* `Machine.Extended.edit`: one edit;
* `Contract.extended_placeless`: runs, scripts and operations, by the contract they keep;
* `Session.code_only_grows`: a session, from any state on that sessions can reach.
-/

namespace ThreadedForth
namespace Machine

/-! ## How code grows -/

/-- The code is that of `m` with more cells, and perhaps with more values in the last cell of
the definition that `m` has open. -/
inductive Grown (m : Machine) (code : Array Cell) : Prop where
  | more (added : Array Cell) (kept : code = m.code ++ added)
  | joined {draft : Draft} {earlier : Array Cell} {values : List Value}
      (compiling : m.compiling = true) (open_ : m.draft = some draft)
      (inside : draft.address ≤ earlier.size) (last : m.code = earlier.push (.literal values))
      (further : List Value) (added : Array Cell)
      (kept : code = earlier.push (.literal (values ++ further)) ++ added)

variable {m after start : Machine} {code earlier : Array Cell}

theorem Grown.refl (m : Machine) : m.Grown m.code := .more #[] (by simp)

theorem Grown.push (grown : m.Grown code) (cell : Cell) : m.Grown (code.push cell) := by
  cases grown with
  | more added kept => exact .more (added.push cell) (by simp [kept])
  | joined compiling open_ inside last further added kept =>
    exact .joined compiling open_ inside last further (added.push cell) (by simp [kept])

/-- Literals are joined to the last cell.  If it is a cell of `m`, it has to belong to the
definition that `m` has open. -/
theorem Grown.join {values : List Value} (grown : m.Grown (earlier.push (.literal values)))
    (further : List Value)
    (fence : m.code.size ≤ earlier.size ∨ m.compiling = true ∧
      ∃ draft, m.draft = some draft ∧ draft.address ≤ earlier.size) :
    m.Grown (earlier.push (.literal (values ++ further))) := by
  -- the joined cell is the last of those that were added, or there are none
  cases grown with
  | more added kept =>
    by_cases none_ : added.size = 0
    · rw [Array.eq_empty_of_size_eq_zero none_, Array.append_empty] at kept
      have size : m.code.size = earlier.size + 1 := by rw [← kept, Array.size_push]
      rcases fence with behind | ⟨compiling, draft, open_, inside⟩
      · omega
      · exact .joined compiling open_ inside kept.symm further #[] (by simp)
    · obtain ⟨others, cell, rfl⟩ := Array.eq_push_of_size_ne_zero none_
      rw [Array.append_push, Array.push_eq_push] at kept
      rw [kept.2, Array.push_append]
      exact .more _ rfl
  | joined compiling open_ inside last others added kept =>
    by_cases none_ : added.size = 0
    · rw [Array.eq_empty_of_size_eq_zero none_, Array.append_empty, Array.push_eq_push] at kept
      obtain ⟨same, rfl⟩ := kept
      cases same
      rw [List.append_assoc]
      exact .joined compiling open_ inside last (others ++ further) #[] (by simp)
    · obtain ⟨behind, cell, rfl⟩ := Array.eq_push_of_size_ne_zero none_
      rw [Array.append_push, Array.push_eq_push] at kept
      rw [kept.2, Array.push_append]
      exact .joined compiling open_ inside last others _ rfl

/-- A cell that does not belong to the open definition stays as it is. -/
theorem Grown.getElem? (grown : m.Grown code) {a : Nat} (low : a < m.code.size)
    (outside : ∀ draft, m.compiling = true → m.draft = some draft → a < draft.address) :
    code[a]? = m.code[a]? := by
  cases grown with
  | more added kept => rw [kept, Array.getElem?_append_left low]
  | @joined draft earlier values compiling open_ inside last further added kept =>
    have before : a < earlier.size := by
      have := outside draft compiling open_
      omega
    rw [kept, last, Array.getElem?_append_left (by simp; omega)]
    simp [Array.getElem?_push, Nat.ne_of_lt before]

/-! ## What holds while code grows -/

/-- All cells spell instructions, and while something is compiled a definition is open that
began no later than the barrier.  The barrier is not ahead of the code. -/
structure Orderly (m : Machine) : Prop where
  spelled : ∀ items, .foreign items ∉ m.code
  opened : m.compiling = true → ∃ draft, m.draft = some draft ∧ draft.address ≤ m.barrier
  reached : m.compiling = true → m.barrier ≤ m.code.size

/-- The machine comes after the machine `start`. -/
structure Extended (start m : Machine) : Prop where
  grown : start.Grown m.code
  /-- While something is compiled, the barrier stands behind the cells that there were at the
  start, or it belongs to the definition that was open at the start. -/
  fenced : m.compiling = true → start.code.size ≤ m.barrier ∨
    start.compiling = true ∧ start.barrier ≤ m.barrier

theorem Grown.size_le (grown : start.Grown code) : start.code.size ≤ code.size := by
  cases grown with
  | more added kept => simp [kept]
  | joined compiling open_ inside last further added kept =>
    simp [kept, last]

theorem Extended.refl (m : Machine) : m.Extended m :=
  ⟨.refl m, fun compiling => .inr ⟨compiling, Nat.le_refl _⟩⟩

/-- Both depend on the code and on the state of compilation alone. -/
theorem Orderly.congr (orderly : m.Orderly) (code : after.code = m.code)
    (compiling : after.compiling = m.compiling) (draft : after.draft = m.draft)
    (barrier : after.barrier = m.barrier) : after.Orderly where
  spelled := code ▸ orderly.spelled
  opened := by
    rw [compiling, draft, barrier]
    exact orderly.opened
  reached := by
    rw [compiling, barrier, code]
    exact orderly.reached

theorem Extended.congr (extended : start.Extended m) (code : after.code = m.code)
    (compiling : after.compiling = m.compiling) (barrier : after.barrier = m.barrier) :
    start.Extended after where
  grown := code ▸ extended.grown
  fenced := by
    rw [compiling, barrier]
    exact extended.fenced

theorem ne_foreign_of_compiled {cell : Cell} {items : List Value} (made : Compiled m cell) :
    cell ≠ .foreign items := by
  cases made with
  | exit => nofun
  | literal values => nofun
  | own open_ => nofun
  | @entry entry w known plain =>
    obtain ⟨name, immediate, body⟩ := w
    cases body with
    | _ => exact nofun

theorem Orderly.push {cell : Cell} (orderly : m.Orderly)
    (instruction : ∀ items, cell ≠ .foreign items) :
    ∀ items, .foreign items ∉ m.code.push cell := by
  intro items inside
  rcases Array.mem_push.mp inside with old | same
  · exact orderly.spelled items old
  · exact instruction items same.symm

/-- Once the definition in progress has ended, only the code matters. -/
theorem Orderly.closed (orderly : m.Orderly) (code : after.code = m.code.push .exit)
    (closed : after.compiling = false) : after.Orderly where
  spelled := code ▸ orderly.push (by simp)
  opened compiling := by simp [closed] at compiling
  reached compiling := by simp [closed] at compiling

/-- A cell that can be joined is a literal one. -/
theorem Orderly.literal_of_joined {cell : Cell} {values all : List Value} (orderly : m.Orderly)
    (last : m.code.back? = some cell) (joined : cell.openValues values = .ok (some all)) :
    ∃ (earlier : Array Cell) (old : List Value),
      m.code = earlier.push (.literal old) ∧ all = old ++ values := by
  obtain ⟨earlier, same⟩ := Array.back?_eq_some_iff.mp last
  cases cell with
  | literal old =>
    cases joined
    exact ⟨earlier, old, same, rfl⟩
  | foreign items => exact absurd (same ▸ Array.mem_push_self) (orderly.spelled items)
  | native | call | created | does | exit => cases joined

theorem Orderly.edit (orderly : m.Orderly) (changed : Edit m after) : after.Orderly := by
  cases changed with
  | data same => exact orderly.congr rfl same.compiling same.draft same.barrier
  | openDraft idle =>
    exact ⟨orderly.spelled, fun _ => ⟨_, rfl, Nat.le_refl _⟩, fun _ => Nat.le_refl _⟩
  | dropDraft =>
    refine ⟨orderly.spelled, fun compiling => ?_, fun compiling => ?_⟩
    · cases compiling
    · cases compiling
  | @markDraft draft open_ =>
    refine ⟨orderly.spelled, fun compiling => ⟨_, rfl, ?_⟩, orderly.reached⟩
    obtain ⟨other, open_', begun⟩ := orderly.opened compiling
    rw [open_] at open_'
    cases open_'
    exact begun
  | markEntry last => exact orderly.congr rfl rfl rfl rfl
  | create valid => exact orderly.congr rfl rfl rfl rfl
  | @append cell compiling made =>
    refine ⟨orderly.push fun _ => ne_foreign_of_compiled made, orderly.opened, fun _ => ?_⟩
    have := orderly.reached compiling
    simp only [append, Array.size_push]
    omega
  | join compiling last free joined =>
    obtain ⟨earlier, old, same, rfl⟩ := orderly.literal_of_joined last joined
    refine ⟨fun items inside => ?_, orderly.opened, fun _ => ?_⟩
    · simp only [same, Array.pop_push] at inside
      rcases Array.mem_push.mp inside with before | other
      · exact orderly.spelled items (same ▸ Array.mem_push_of_mem _ before)
      · cases other
    · have := orderly.reached compiling
      simpa [same] using this
  | does compiling =>
    have begun : ∀ items, .foreign items ∉ m.code.push (.does (m.code.size + 2 : Nat)) :=
      orderly.push (by simp)
    obtain ⟨draft, open_, address⟩ := orderly.opened compiling
    have reached := orderly.reached compiling
    refine ⟨fun items inside => ?_, fun _ => ⟨draft, open_, ?_⟩, fun _ => ?_⟩
    · rcases Array.mem_push.mp inside with before | other
      · exact begun items before
      · cases other
    · show draft.address ≤ m.code.size + 2
      omega
    · simp [append]
  | finish compiling open_ => exact orderly.closed rfl rfl
  | close compiling none_ => exact orderly.closed rfl rfl

/-- An edit keeps what came before it in place. -/
theorem Extended.edit (begun : start.Orderly) (orderly : m.Orderly)
    (extended : start.Extended m) (changed : Edit m after) : start.Extended after := by
  have before := extended.grown.size_le
  cases changed with
  | data same => exact extended.congr rfl same.compiling same.barrier
  | openDraft idle => exact ⟨extended.grown, fun _ => .inl before⟩
  | dropDraft => exact ⟨extended.grown, nofun⟩
  | markDraft open_ => exact extended.congr rfl rfl rfl
  | markEntry last => exact extended.congr rfl rfl rfl
  | create valid => exact extended.congr rfl rfl rfl
  | append compiling made => exact ⟨extended.grown.push _, extended.fenced⟩
  | join compiling last free joined =>
    obtain ⟨earlier, old, same, rfl⟩ := orderly.literal_of_joined last joined
    have grown := extended.grown
    rw [same] at grown free
    rw [Array.size_push, Nat.add_sub_cancel] at free
    refine ⟨?_, extended.fenced⟩
    show start.Grown (m.code.pop.push _)
    rw [same, Array.pop_push]
    refine grown.join _ ?_
    -- the cell is not one of the first, or its definition was open then
    rcases extended.fenced compiling with behind | ⟨compiling', barrier⟩
    · exact .inl (Nat.le_trans behind free)
    · obtain ⟨draft, open_, address⟩ := begun.opened compiling'
      have inside : draft.address ≤ earlier.size := by omega
      exact .inr ⟨compiling', draft, open_, inside⟩
  | does compiling =>
    refine ⟨(extended.grown.push _).push _, fun _ => .inl ?_⟩
    show start.code.size ≤ m.code.size + 2
    omega
  | finish compiling open_ => exact ⟨extended.grown.push _, nofun⟩
  | close compiling none_ => exact ⟨extended.grown.push _, nofun⟩

theorem orderly_bare (capacity : Int) (verbose : Bool) : (bare capacity verbose).Orderly :=
  ⟨fun _ inside => Array.not_mem_empty _ inside, nofun, nofun⟩

end Machine

namespace Session

/-- Sessions in which all code is compiled by words: compiling is not switched from outside,
and no cell is handed in. -/
def compilingByWords : Scope where
  callables _ := True
  addresses := True
  switches := False
  cells := False

end Session

namespace Contract

variable {start : Machine}

theorem extended_placeless (begun : start.Orderly) :
    Placeless (fun m => m.Orderly ∧ start.Extended m) fun _ => True where
  edit inv changed := ⟨inv.1.edit changed, inv.2.edit begun inv.1 changed⟩
  placed _ _ inv := ⟨inv.1.congr rfl rfl rfl rfl, inv.2.congr rfl rfl rfl⟩
  bound inv _ _ _ := ⟨inv.1.congr rfl rfl rfl rfl, inv.2.congr rfl rfl rfl⟩
  hosts _ _ _ _ := trivial
  spelled {m items} inv last := by
    obtain ⟨earlier, same⟩ := Array.back?_eq_some_iff.mp last
    exact inv.1.spelled items (same ▸ Array.mem_push_self)

theorem extended_spanning (begun : start.Orderly) :
    (ofInvariant fun m => m.Orderly ∧ start.Extended m).Spanning Session.compilingByWords :=
  (extended_placeless begun).spanning
    (fun inv _ => ⟨inv.1.congr rfl rfl rfl rfl, inv.2.congr rfl rfl rfl⟩) id id

end Contract

namespace Session

/-- Code only grows.  Take a state that a session has reached in which all code was compiled
by words, and let such a session go on from there, whether its operations succeed or fail.
The code of the state is the beginning of the later code, except that its last cell may have
got further values; then a definition was open, and the cell is a literal cell that lies in
it.  So a cell outside the open definition never changes. -/
theorem code_only_grows {before later : List Operation} {capacity : Int}
    {withPrelude verbose : Bool} {m : Machine}
    (reached : m = play before (Machine.fresh capacity withPrelude verbose))
    (within : ∀ operation ∈ before ++ later, operation.Within compilingByWords) :
    m.Grown (play later m).code ∧
      ∀ a < m.code.size, (∀ draft, m.compiling = true → m.draft = some draft → a < draft.address) →
        (play later m).code[a]? = m.code[a]? := by
  have bare := Machine.orderly_bare capacity verbose
  have fresh : (Machine.fresh capacity withPrelude verbose).Orderly ∧
      (Machine.bare capacity verbose).Extended (Machine.fresh capacity withPrelude verbose) :=
    (Contract.extended_spanning bare).inv_fresh ⟨bare, .refl _⟩
  have orderly : m.Orderly := by
    rw [reached]
    refine ((Contract.extended_spanning bare).inv_play (fun operation inside => ?_) fresh).1
    exact within operation (List.mem_append_left later inside)
  have grown : m.Grown (play later m).code := by
    refine ((Contract.extended_spanning orderly).inv_play (fun operation inside => ?_)
      ⟨orderly, .refl m⟩).2.grown
    exact within operation (List.mem_append_right before inside)
  exact ⟨grown, fun a low outside => grown.getElem? low outside⟩

/-- A session that leaves a definition open whose code ends in a literal. -/
def halfway : List Operation :=
  [.run [.batch [.text "one"], .word "define", .datum (.int 1), .word "return"],
    .run [.batch [.text "two"], .word "define", .datum (.int 2)]]

/-- It goes on with another literal, then gives the definition up and opens a new one. -/
def onward : List Operation :=
  [.run [.datum (.int 3), .word "nosuch"],
    .run [.batch [.text "four"], .word "define", .datum (.int 4)]]

/-- The last cell of the open definition gets a further value, and none of the others
changes. -/
theorem code_only_grows_halfway :
    (play halfway (Machine.fresh 16 false false)).code =
      #[.literal [.int 1], .exit, .literal [.int 2]] ∧
    (play onward (play halfway (Machine.fresh 16 false false))).code =
      #[.literal [.int 1], .exit, .literal [.int 2, .int 3], .literal [.int 4]] ∧
    (play halfway (Machine.fresh 16 false false)).Grown
      (play onward (play halfway (Machine.fresh 16 false false))).code := by
  refine ⟨rfl, rfl, (code_only_grows rfl fun operation inside => ?_).1⟩
  simp only [halfway, onward, List.cons_append, List.nil_append, List.mem_cons,
    List.not_mem_nil, or_false] at inside
  rcases inside with rfl | rfl | rfl | rfl <;> trivial

end Session
end ThreadedForth
