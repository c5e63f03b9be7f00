import ThreadedForth.Proofs.Plain

/-!
# Finished code

A run is safe as long as it finds a cell wherever it goes.  Where can it go?  From a cell
to the one after it, unless the cell is an exit; to the target of a call; and, when a
created word is invoked, to the behavior that some `does` cell has given it.  A set of
addresses that is never left in these ways is *closed* (`Code.Closed`), and an address is
*finished* if it lies in a closed set (`Code.Finished`).

The code of a definition is not finished while the definition is open, because its last
cell is followed by nothing.  But nothing is wrong with it either: from each of its cells
one gets to finished code or stays between its start and the end of the code
(`Code.Open`).  The exit that finishes the definition closes this stretch
(`Code.Open.finished_push_exit`).  A definition that is dropped leaves its stretch behind,
and nothing ever refers to it.

`Machine.Sound` says that whatever can be entered is finished: the words, the behaviors,
the return addresses and the place of execution.  It survives all words
(`Machine.Sound.edit`, `Machine.Sound.leads`), because a body that is finished stays so
when the code grows (`Code.Continues.finished`).  The one cell that is ever changed, a
literal cell at the end to which values are joined, is a literal cell afterwards.

* `Session.not_derailed`: in a session without host callables, in which code is run only
  through words, no operation ends by leaving its code.
-/

namespace ThreadedForth

/-- From this cell one stays in a set of addresses, if `next` is the address after it. -/
def Cell.StaysIn (F : Nat → Prop) (next : Nat) : Cell → Prop
  | .exit => True
  | .call target _ => F next ∧ ∃ a : Nat, target = a ∧ F a
  | .does target => F next ∧ ∃ a : Nat, target = a ∧ F a
  | _ => F next

theorem Cell.StaysIn.mono {F G : Nat → Prop} {next : Nat} {cell : Cell}
    (larger : ∀ a, F a → G a) (stays : cell.StaysIn F next) : cell.StaysIn G next := by
  cases cell with
  | exit => trivial
  | call target name =>
    obtain ⟨on, a, same, inside⟩ := stays
    exact ⟨larger next on, a, same, larger a inside⟩
  | does target =>
    obtain ⟨on, a, same, inside⟩ := stays
    exact ⟨larger next on, a, same, larger a inside⟩
  | native | literal | created | foreign => exact larger next stays

namespace Code

/-! ## Closed sets of addresses -/

/-- There is a cell at every address of the set, and from there one stays in the set. -/
def Closed (code : Array Cell) (F : Nat → Prop) : Prop :=
  ∀ a, F a → ∃ cell, code[a]? = some cell ∧ cell.StaysIn F (a + 1)

/-- The address lies in a closed set. -/
def Finished (code : Array Cell) (a : Nat) : Prop := ∃ F, Closed code F ∧ F a

/-- The integer is a finished address. -/
def FinishedAt (code : Array Cell) (target : Int) : Prop :=
  ∃ a : Nat, target = a ∧ Finished code a

/-- The finished addresses are a closed set themselves. -/
theorem closed_finished (code : Array Cell) : Closed code (Finished code) := by
  rintro a ⟨F, closed, inside⟩
  obtain ⟨cell, known, stays⟩ := closed a inside
  have larger : ∀ b, F b → Finished code b := fun b inF => ⟨F, closed, inF⟩
  exact ⟨cell, known, stays.mono larger⟩

/-- One code continues another: it has the same cells at the same addresses, but the values
of a literal cell may differ. -/
def Continues (code further : Array Cell) : Prop :=
  ∀ (a : Nat) (cell : Cell), code[a]? = some cell → ∃ cell', further[a]? = some cell' ∧
    (cell' = cell ∨ ∃ old new, cell = Cell.literal old ∧ cell' = Cell.literal new)

theorem Continues.refl (code : Array Cell) : Continues code code :=
  fun _ cell known => ⟨cell, known, .inl rfl⟩

theorem Continues.trans {first second third : Array Cell} (one : Continues first second)
    (two : Continues second third) : Continues first third := by
  intro a cell known
  obtain ⟨cell', known', same⟩ := one a cell known
  obtain ⟨cell'', known'', same'⟩ := two a cell' known'
  refine ⟨cell'', known'', ?_⟩
  rcases same with rfl | ⟨old, new, rfl, rfl⟩
  · exact same'
  · rcases same' with rfl | ⟨old', new', -, rfl⟩
    · exact .inr ⟨old, new, rfl, rfl⟩
    · exact .inr ⟨old, new', rfl, rfl⟩

theorem continues_push (code : Array Cell) (cell : Cell) : Continues code (code.push cell) := by
  intro a old known
  have low : a < code.size := (Array.getElem?_eq_some_iff.mp known).1
  refine ⟨old, ?_, .inl rfl⟩
  rw [Array.getElem?_push_lt low, ← Array.getElem?_eq_getElem low]
  exact known

/-- Joining values to a literal cell continues the code. -/
theorem continues_join {code : Array Cell} {old : List Value} (new : List Value)
    (last : code.back? = some (.literal old)) :
    Continues code (code.pop.push (.literal new)) := by
  obtain ⟨earlier, rfl⟩ := Array.back?_eq_some_iff.mp last
  rw [Array.pop_push]
  intro a cell known
  rw [Array.getElem?_push] at known ⊢
  by_cases end_ : a = earlier.size
  · rw [if_pos end_] at known ⊢
    cases known
    exact ⟨.literal new, rfl, .inr ⟨old, new, rfl, rfl⟩⟩
  · rw [if_neg end_] at known ⊢
    exact ⟨cell, known, .inl rfl⟩

/-- The values of a literal cell do not matter for where one gets. -/
theorem staysIn_of_continues {F : Nat → Prop} {next : Nat} {cell cell' : Cell}
    (same : cell' = cell ∨ ∃ old new, cell = Cell.literal old ∧ cell' = Cell.literal new)
    (stays : cell.StaysIn F next) : cell'.StaysIn F next := by
  rcases same with rfl | ⟨old, new, rfl, rfl⟩
  · exact stays
  · exact stays

theorem Continues.closed {code further : Array Cell} {F : Nat → Prop}
    (continues : Continues code further) (closed : Closed code F) : Closed further F := by
  intro a inside
  obtain ⟨cell, known, stays⟩ := closed a inside
  obtain ⟨cell', known', same⟩ := continues a cell known
  exact ⟨cell', known', staysIn_of_continues same stays⟩

/-- What is finished stays finished. -/
theorem Continues.finished {code further : Array Cell} {a : Nat}
    (continues : Continues code further) (finished : Finished code a) : Finished further a := by
  obtain ⟨F, closed, inside⟩ := finished
  exact ⟨F, continues.closed closed, inside⟩

theorem Continues.finishedAt {code further : Array Cell} {target : Int}
    (continues : Continues code further) (finished : FinishedAt code target) :
    FinishedAt further target := by
  obtain ⟨a, same, inside⟩ := finished
  exact ⟨a, same, continues.finished inside⟩

/-! ## Open stretches -/

/-- Where one may get from a stretch that begins at `start` and is going to end at `limit`:
to finished code, or to an address in the stretch. -/
def Ahead (code : Array Cell) (start limit a : Nat) : Prop :=
  Finished code a ∨ start ≤ a ∧ a ≤ limit

/-- The code from `start` on is a stretch that lacks nothing but what is still to come, up
to the address `limit`. -/
structure Open (code : Array Cell) (start limit : Nat) : Prop where
  begun : start ≤ code.size
  stays : ∀ a cell, start ≤ a → code[a]? = some cell →
    cell.StaysIn (Ahead code start limit) (a + 1)

theorem open_size (code : Array Cell) (limit : Nat) : Open code code.size limit where
  begun := Nat.le_refl _
  stays a cell high known := by
    have low : a < code.size := (Array.getElem?_eq_some_iff.mp known).1
    omega

theorem Continues.ahead {code further : Array Cell} {start limit a : Nat}
    (continues : Continues code further) (ahead : Ahead code start limit a) :
    Ahead further start limit a := by
  rcases ahead with finished | between
  · exact .inl (continues.finished finished)
  · exact .inr between

theorem Open.widen {code : Array Cell} {start limit limit' : Nat} (open_ : Open code start limit)
    (wider : limit ≤ limit') : Open code start limit' where
  begun := open_.begun
  stays a cell high known := by
    refine (open_.stays a cell high known).mono fun b ahead => ?_
    rcases ahead with finished | ⟨above, below⟩
    · exact .inl finished
    · exact .inr ⟨above, by omega⟩

/-- A cell may be added to a stretch if it stays in the stretch. -/
theorem Open.push {code : Array Cell} {start limit : Nat} {cell : Cell}
    (open_ : Open code start limit)
    (stays : cell.StaysIn (Ahead code start limit) (code.size + 1)) :
    Open (code.push cell) start limit where
  begun := by
    have := open_.begun
    rw [Array.size_push]
    omega
  stays a other high known := by
    have continues := continues_push code cell
    rw [Array.getElem?_push] at known
    by_cases end_ : a = code.size
    · rw [if_pos end_] at known
      cases known
      rw [end_]
      exact stays.mono fun b ahead => continues.ahead ahead
    · rw [if_neg end_] at known
      exact (open_.stays a other high known).mono fun b ahead => continues.ahead ahead

/-- Joining values to the last cell of a stretch changes nothing. -/
theorem Open.join {code : Array Cell} {start limit : Nat} {old : List Value} (new : List Value)
    (open_ : Open code start limit) (last : code.back? = some (.literal old)) :
    Open (code.pop.push (.literal new)) start limit := by
  have continues := continues_join new last
  obtain ⟨earlier, rfl⟩ := Array.back?_eq_some_iff.mp last
  rw [Array.pop_push] at continues ⊢
  have size : (earlier.push (.literal old)).size = (earlier.push (.literal new)).size := by simp
  refine ⟨size ▸ open_.begun, fun a cell high known => ?_⟩
  have low : a < (earlier.push (.literal old)).size := by
    rw [size]
    exact (Array.getElem?_eq_some_iff.mp known).1
  have before := Array.getElem?_eq_getElem low
  obtain ⟨cell', known', same⟩ := continues a _ before
  rw [known] at known'
  cases known'
  have stays := open_.stays a _ high before
  exact staysIn_of_continues same (stays.mono fun b ahead => continues.ahead ahead)

/-- The exit at its end finishes a stretch. -/
theorem Open.finished_push_exit {code : Array Cell} {start : Nat}
    (open_ : Open code start code.size) : Finished (code.push .exit) start := by
  have continues := continues_push code .exit
  refine ⟨Ahead code start code.size, ?_, .inr ⟨Nat.le_refl _, open_.begun⟩⟩
  intro a ahead
  rcases ahead with finished | ⟨low, high⟩
  · obtain ⟨cell, known, stays⟩ := continues.closed (closed_finished code) a finished
    exact ⟨cell, known, stays.mono fun b finished => .inl finished⟩
  · by_cases end_ : a = code.size
    · refine ⟨.exit, ?_, trivial⟩
      rw [end_, Array.getElem?_push_size]
    · have inside : a < code.size := by omega
      have before := Array.getElem?_eq_getElem inside
      have stays := open_.stays a _ low before
      obtain ⟨cell', known', same⟩ := continues a _ before
      exact ⟨cell', known', staysIn_of_continues same stays⟩

end Code

/-! ## Sound machines -/

/-- The word is entered at finished code. -/
def Word.Lands (code : Array Cell) (w : Word) : Prop :=
  match w.body with
  | .colon address => Code.Finished code address
  | .created _ (.int target) => Code.FinishedAt code target
  | _ => True

theorem Word.Lands.mono {code further : Array Cell} {w : Word}
    (continues : Code.Continues code further) (lands : w.Lands code) : w.Lands further := by
  obtain ⟨name, immediate, body⟩ := w
  cases body with
  | native n => trivial
  | colon address => exact continues.finished lands
  | created slot behavior =>
    cases behavior with
    | int target => exact continues.finishedAt lands
    | _ => trivial

theorem Word.Lands.markImmediate {code : Array Cell} {w : Word} (lands : w.Lands code) :
    Word.Lands code { w with immediate := true } := lands

theorem Word.Lands.givenBehavior {code : Array Cell} {w : Word} {target : Int}
    (lands : w.Lands code) (finished : Code.FinishedAt code target) :
    (Dictionary.givenBehavior (.int target) w).Lands code := by
  obtain ⟨name, immediate, body⟩ := w
  cases body with
  | native n => trivial
  | colon address => exact lands
  | created slot behavior => exact finished

@[simp] theorem Word.lands_ofPrimitive {code : Array Cell} (name : String) (p : Primitive)
    (pushesNone : Bool) : (Builtin.ofPrimitive name p pushesNone).Lands code := trivial

@[simp] theorem Word.lands_ofDirective {code : Array Cell} (name : String) (d : Directive) :
    (Builtin.ofDirective name d).Lands code := trivial

theorem Word.lands_builtin {code : Array Cell} : ∀ w ∈ Builtin.words, w.Lands code := by
  simp [Builtin.words, Builtin.stackWords, Builtin.compilingWords, Builtin.memoryWords,
    Builtin.definingWords, Builtin.valueWords, Builtin.outputWords, Builtin.plain,
    Builtin.passing]

/-- Code is plain, and whatever can be entered is finished. -/
structure Machine.Sound (P : Host.Callable → Prop) (m : Machine) : Prop where
  plain : m.Plain P
  entries : ∀ entry w, m.dictionary.get? entry = some w → w.Lands m.code
  draft : ∀ draft, m.draft = some draft → Code.Open m.code draft.address m.code.size
  returns : ∀ r ∈ m.returns.items, Code.FinishedAt m.code r
  ip : ∀ address, m.ip = some address → Code.FinishedAt m.code address

namespace Machine

variable {P : Host.Callable → Prop} {m after : Machine}

/-- Soundness depends on code, dictionary, draft and the state of the execution alone. -/
theorem Sound.congr (sound : m.Sound P) (code : after.code = m.code)
    (dictionary : after.dictionary = m.dictionary) (draft : after.draft = m.draft)
    (point : m.SamePoint after) : after.Sound P := by
  refine ⟨sound.plain.congr code dictionary, ?_, ?_, ?_, ?_⟩
  · rw [code, dictionary]
    exact sound.entries
  · rw [code, draft]
    exact sound.draft
  · rw [code, point.returns]
    exact sound.returns
  · rw [code, point.ip]
    exact sound.ip

/-- When the code is continued, what the dictionary and the execution refer to stays
finished. -/
theorem Sound.continued (sound : m.Sound P) (plain : after.Plain P)
    (continues : Code.Continues m.code after.code)
    (entries : ∀ entry w, after.dictionary.get? entry = some w → w.Lands after.code)
    (draft : ∀ draft, after.draft = some draft →
      Code.Open after.code draft.address after.code.size)
    (point : m.SamePoint after) : after.Sound P := by
  refine ⟨plain, entries, draft, fun r inside => ?_, fun address at_ => ?_⟩
  · rw [point.returns] at inside
    exact continues.finishedAt (sound.returns r inside)
  · rw [point.ip] at at_
    exact continues.finishedAt (sound.ip address at_)

/-- The cells that are compiled stay in the stretch of the open definition. -/
theorem Sound.staysIn_compiled {cell : Cell} {draft : Draft} (sound : m.Sound P)
    (open_ : m.draft = some draft) (made : Compiled m cell) :
    cell.StaysIn (Code.Ahead m.code draft.address (m.code.size + 1)) (m.code.size + 1) := by
  have start := (sound.draft draft open_).begun
  have on : Code.Ahead m.code draft.address (m.code.size + 1) (m.code.size + 1) :=
    .inr ⟨by omega, Nat.le_refl _⟩
  cases made with
  | exit => trivial
  | literal values => exact on
  | @entry entry w known plain =>
    have lands := sound.entries entry w known
    obtain ⟨name, immediate, body⟩ := w
    cases body with
    | native n => exact on
    | colon address => exact ⟨on, address, rfl, .inl lands⟩
    | created slot behavior => exact on
  | @own draft' open' =>
    rw [open_] at open'
    cases open'
    exact ⟨on, draft.address, rfl, .inr ⟨Nat.le_refl _, by omega⟩⟩

theorem Sound.append {cell : Cell} (sound : m.Sound P) (fits : cell.Fits m.dictionary)
    (stays : ∀ draft, m.draft = some draft →
      cell.StaysIn (Code.Ahead m.code draft.address (m.code.size + 1)) (m.code.size + 1)) :
    (m.append cell).Sound P := by
  have continues := Code.continues_push m.code cell
  refine sound.continued (sound.plain.append fits) continues ?_ ?_ ⟨rfl, rfl, rfl⟩
  · intro entry w known
    exact (sound.entries entry w known).mono continues
  · intro draft open_
    have wide := (sound.draft draft open_).widen (Nat.le_succ m.code.size)
    show Code.Open (m.code.push cell) draft.address (m.code.push cell).size
    rw [Array.size_push]
    exact wide.push (stays draft open_)

/-- A behavior that is begun lies ahead in the open definition. -/
theorem Sound.does (sound : m.Sound P) :
    ((m.append (.does (m.code.size + 2 : Nat))).append .exit).Sound P := by
  have begun : (m.append (.does (m.code.size + 2 : Nat))).Plain P := sound.plain.append trivial
  have continues := (Code.continues_push m.code (.does (m.code.size + 2 : Nat))).trans
    (Code.continues_push _ .exit)
  refine sound.continued (begun.append trivial) continues ?_ ?_ ⟨rfl, rfl, rfl⟩
  · intro entry w known
    exact (sound.entries entry w known).mono continues
  · intro draft open_
    have start := (sound.draft draft open_).begun
    -- the stretch is going to end two cells later, which is where the behavior begins
    have wide := (sound.draft draft open_).widen (Nat.le_add_right m.code.size 2)
    have first : Code.Open (m.code.push (.does (m.code.size + 2 : Nat))) draft.address
        (m.code.size + 2) :=
      wide.push ⟨.inr ⟨by omega, by omega⟩, m.code.size + 2, rfl, .inr ⟨by omega, by omega⟩⟩
    have second := first.push (show Cell.exit.StaysIn _ _ from trivial)
    have size : ((m.append (.does (m.code.size + 2 : Nat))).append .exit).code.size =
        m.code.size + 2 := by
      simp [Machine.append]
    rw [size]
    exact second

/-- A finished definition is entered at finished code. -/
theorem Sound.closeDraft {draft : Draft} (sound : m.Sound P) (open_ : m.draft = some draft)
    (plain : (m.closeDraft draft).Plain P) : (m.closeDraft draft).Sound P := by
  have continues := Code.continues_push m.code .exit
  refine sound.continued plain continues (fun entry w known => ?_) ?_ ⟨rfl, rfl, rfl⟩
  · rcases Dictionary.get?_push known with old | ⟨-, rfl⟩
    · exact (sound.entries entry w old).mono continues
    · exact (sound.draft draft open_).finished_push_exit
  · intro other open'
    cases open'

/-- Values are joined to literal cells only. -/
theorem Plain.literal_of_joined {cell : Cell} {values all : List Value} (plain : m.Plain P)
    (last : m.code.back? = some cell) (joined : cell.openValues values = .ok (some all)) :
    ∃ old, cell = .literal old := by
  cases cell with
  | literal old => exact ⟨old, rfl⟩
  | foreign items =>
    obtain ⟨earlier, same⟩ := Array.back?_eq_some_iff.mp last
    exact (plain.cells (.foreign items) (same ▸ Array.mem_push_self)).elim
  | native | call | created | does | exit => cases joined

theorem Sound.join {cell : Cell} {values all : List Value} (sound : m.Sound P)
    (last : m.code.back? = some cell) (joined : cell.openValues values = .ok (some all))
    (plain : Plain P { m with code := m.code.pop.push (.literal all) }) :
    Sound P { m with code := m.code.pop.push (.literal all) } := by
  obtain ⟨old, rfl⟩ := sound.plain.literal_of_joined last joined
  have continues := Code.continues_join all last
  refine sound.continued plain continues ?_ ?_ ⟨rfl, rfl, rfl⟩
  · intro entry w known
    exact (sound.entries entry w known).mono continues
  · intro draft open_
    have stretch := (sound.draft draft open_).join all last
    have size : (m.code.pop.push (.literal all)).size = m.code.size := by
      obtain ⟨earlier, same⟩ := Array.back?_eq_some_iff.mp last
      rw [same, Array.pop_push, Array.size_push, Array.size_push]
    show Code.Open _ draft.address (m.code.pop.push (.literal all)).size
    rw [size]
    exact stretch

/-- Soundness survives every edit. -/
theorem Sound.edit (sound : m.Sound P) (changed : Edit m after) : after.Sound P := by
  have plain := sound.plain.edit changed
  cases changed with
  | data same => exact sound.congr rfl same.dictionary same.draft ⟨rfl, rfl, rfl⟩
  | @openDraft name idle =>
    refine sound.continued plain (.refl _) sound.entries ?_ ⟨rfl, rfl, rfl⟩
    rintro draft open_
    cases open_
    exact Code.open_size m.code _
  | dropDraft =>
    refine sound.continued plain (.refl _) sound.entries ?_ ⟨rfl, rfl, rfl⟩
    intro draft open_
    cases open_
  | @markDraft draft open_ =>
    refine sound.continued plain (.refl _) sound.entries ?_ ⟨rfl, rfl, rfl⟩
    rintro other open'
    cases open'
    exact sound.draft draft open_
  | @markEntry target last =>
    refine sound.continued plain (.refl _) (fun entry w known => ?_) sound.draft ⟨rfl, rfl, rfl⟩
    rw [Dictionary.get?_markImmediate] at known
    split at known
    · obtain ⟨v, old, rfl⟩ := Option.map_eq_some_iff.mp known
      exact (sound.entries entry v old).markImmediate
    · exact sound.entries entry w known
  | @create name valid =>
    refine sound.continued plain (.refl _) (fun entry w known => ?_) sound.draft ⟨rfl, rfl, rfl⟩
    rcases Dictionary.get?_push known with old | ⟨-, rfl⟩
    · exact sound.entries entry w old
    · trivial
  | append compiling made =>
    exact sound.append (sound.plain.fits_compiled made)
      fun draft open_ => sound.staysIn_compiled open_ made
  | join compiling last free joined => exact sound.join last joined plain
  | does compiling => exact sound.does.congr rfl rfl rfl ⟨rfl, rfl, rfl⟩
  | finish compiling open_ => exact sound.closeDraft open_ plain
  | close compiling none_ =>
    have appended : (m.append .exit).Sound P := sound.append trivial fun _ _ => trivial
    refine appended.continued plain (.refl _) appended.entries ?_ ⟨rfl, rfl, rfl⟩
    intro draft open_
    cases open_

/-- Edits continue the code. -/
theorem Sound.continues_edit (sound : m.Sound P) (changed : Edit m after) :
    Code.Continues m.code after.code := by
  cases changed with
  | append compiling made => exact Code.continues_push m.code _
  | @join cell values all compiling last free joined =>
    obtain ⟨old, rfl⟩ := sound.plain.literal_of_joined last joined
    exact Code.continues_join all last
  | does compiling => exact (Code.continues_push m.code _).trans (Code.continues_push _ _)
  | finish compiling open_ => exact Code.continues_push m.code .exit
  | close compiling none_ => exact Code.continues_push m.code .exit
  | _ => exact .refl _

/-! ## Turns -/

/-- There is a cell at a finished address. -/
theorem fetch_finished {a : Nat} (finished : Code.Finished m.code a) :
    ∃ cell, m.fetch a = .ok cell ∧ cell.StaysIn (Code.Finished m.code) (a + 1) := by
  obtain ⟨cell, known, stays⟩ := Code.closed_finished m.code a finished
  exact ⟨cell, fetch_eq_ok_iff.mpr known, stays⟩

/-- The place of execution can be moved to finished code. -/
theorem Sound.moved {place : Int} (sound : m.Sound P)
    (finished : Code.FinishedAt m.code place) : (m.moved place).Sound P := by
  refine ⟨sound.plain.congr rfl rfl, sound.entries, sound.draft, sound.returns, ?_⟩
  rintro address at_
  cases at_
  exact finished

theorem Sound.called {target resume : Int} (sound : m.Sound P)
    (entered : Code.FinishedAt m.code target) (left : Code.FinishedAt m.code resume) :
    (m.called target resume).Sound P := by
  refine ⟨sound.plain.congr rfl rfl, sound.entries, sound.draft, ?_, ?_⟩
  · intro r inside
    rcases List.mem_cons.mp inside with rfl | below
    · exact left
    · exact sound.returns r below
  · rintro address at_
    cases at_
    exact entered

theorem Sound.setBehavior {entry : Nat} {target : Int} {s : Store} (sound : m.Sound P)
    (finished : Code.FinishedAt m.code target)
    (books : Store.SameBooks
      { m.toStore with dictionary := m.dictionary.setBehavior entry (.int target) } s) :
    Sound P { m with toStore := s } := by
  have plain : Plain P { m with toStore := s } :=
    (sound.plain.setBehavior entry target).congr rfl books.dictionary
  refine sound.continued plain (.refl _) ?_ ?_ ⟨rfl, rfl, rfl⟩
  · intro other w known
    have known : s.dictionary.get? other = some w := known
    rw [books.dictionary, Dictionary.get?_setBehavior] at known
    split at known
    · obtain ⟨v, old, rfl⟩ := Option.map_eq_some_iff.mp known
      exact (sound.entries other v old).givenBehavior finished
    · exact sound.entries other w known
  · intro draft open_
    have open_ : s.draft = some draft := open_
    rw [books.draft] at open_
    exact sound.draft draft open_

end Machine

/-! ## The contract -/

namespace Contract

/-- Machines stay sound, and code is only continued.  Without host callables no run is
derailed. -/
def sound (P : Host.Callable → Prop) : Contract where
  inv := Machine.Sound P
  done m after := Code.Continues m.code after.code
  failed m after := Code.Continues m.code after.code
  admits f := (∀ g, ¬ P g) → f.derails = false

theorem sound_kept (P : Host.Callable → Prop) : (sound P).Kept P where
  refl m := .refl m.code
  trans first second := first.trans second
  weaken related := related
  before first second := first.trans second
  after first second := first.trans second
  edit inv changed := ⟨inv.edit changed, inv.continues_edit changed⟩
  calm calm := fun _ => calm
  hosts inv := (plain_kept P).hosts inv.plain
  spelled inv := (plain_kept P).spelled inv.plain

end Contract

/-! ## Runs -/

namespace Machine

variable {P : Host.Callable → Prop} {m start : Machine}

/-- What holds at every turn of a run that was begun by `start`. -/
structure OnCourse (P : Host.Callable → Prop) (base : Nat) (start m : Machine) : Prop where
  sound : m.Sound P
  continues : Code.Continues start.code m.code
  /-- Only host callables can take return addresses away from a run. -/
  covered : (∀ g, ¬ P g) → base ≤ m.returns.depth
  /-- The place to which the execution is put back is finished. -/
  resumes : ∀ address, start.ip = some address → Code.FinishedAt start.code address

/-- How a run ends that was begun by `start`: the contract is kept once the place of
execution has been put back. -/
def Resumed (P : Host.Callable → Prop) (start : Machine) (o : Outcome Unit) : Prop :=
  (Contract.sound P).Holds start (o.adjust fun ended => { ended with ip := start.ip })

/-- A run stays on its course when the execution moves on to finished code. -/
theorem OnCourse.moved {base : Nat} {place : Int} (held : OnCourse P base start m)
    (finished : Code.FinishedAt m.code place) : OnCourse P base start (m.moved place) :=
  ⟨held.sound.moved finished, held.continues, held.covered, held.resumes⟩

theorem OnCourse.pushAll {base : Nat} (values : List Value) (held : OnCourse P base start m) :
    OnCourse P base start (m.pushAll values) :=
  ⟨held.sound.congr rfl rfl rfl ⟨rfl, rfl, rfl⟩, held.continues, held.covered, held.resumes⟩

theorem OnCourse.called {base : Nat} {target resume : Int} (held : OnCourse P base start m)
    (entered : Code.FinishedAt m.code target) (left : Code.FinishedAt m.code resume) :
    OnCourse P base start (m.called target resume) := by
  refine ⟨held.sound.called entered left, held.continues, fun none_ => ?_, held.resumes⟩
  have covered := held.covered none_
  have grown : (m.called target resume).returns.depth = m.returns.depth + 1 := rfl
  omega

/-- The place of execution can be put back. -/
theorem OnCourse.restored {base : Nat} (held : OnCourse P base start m) :
    Sound P { m with ip := start.ip } where
  plain := held.sound.plain.congr rfl rfl
  entries := held.sound.entries
  draft := held.sound.draft
  returns := held.sound.returns
  ip address at_ := held.continues.finishedAt (held.resumes address at_)

theorem OnCourse.resumed_done {base : Nat} (held : OnCourse P base start m) :
    Resumed P start (.done () m) :=
  ⟨held.restored, held.continues⟩

theorem OnCourse.resumed_failed {base : Nat} {f : Fault} (held : OnCourse P base start m)
    (admitted : (Contract.sound P).admits f) : Resumed P start (.failed f m) :=
  ⟨held.restored, held.continues, admitted⟩

theorem OnCourse.leads_callPrimitive {call : Caller} {base : Nat}
    (held : OnCourse P base start m) (name : String) (n : Native) (p : Primitive) :
    (Turn.ofOutcome (m.callWith name n p.perform)).Leads call (OnCourse P base start)
      (Resumed P start) := by
  have changed := edits_callPrimitive name n p m
  have kept := (Contract.sound_kept P).edits held.sound changed
  have called : OnCourse P base start (m.callWith name n p.perform).machine := by
    refine ⟨kept.1, held.continues.trans kept.2, fun none_ => ?_, held.resumes⟩
    rw [changed.samePoint.returns]
    exact held.covered none_
  refine Turn.leads_ofOutcome called fun f after ends kept => ?_
  exact kept.resumed_failed fun _ => calm_of_callPrimitive ends

theorem OnCourse.leads_bindBehavior {call : Caller} {base : Nat} {target : Int}
    (held : OnCourse P base start m) (finished : Code.FinishedAt m.code target) :
    (Turn.ofOutcome (m.bindBehavior (.int target))).Leads call (OnCourse P base start)
      (Resumed P start) := by
  have bound : ∀ {entry : Nat} {s : Store}, Store.SameBooks
      { m.toStore with dictionary := m.dictionary.setBehavior entry (.int target) } s →
      OnCourse P base start { m with toStore := s } := fun books =>
    ⟨held.sound.setBehavior finished books, held.continues, held.covered, held.resumes⟩
  rcases bindBehavior_cases (.int target) m with ⟨-, ends⟩ | ⟨entry, s, -, books, ends⟩
  · rw [ends]
    exact held.resumed_failed fun _ => rfl
  · rw [ends]
    exact bound books

/-- The call of a host callable leaves the run that it interrupts on its course. -/
theorem OnCourse.leads_callNative {call : Caller} {base : Nat} {name : String} {n : Native}
    {f : Host.Callable} (obeys : (Contract.sound P).Obeys P call)
    (held : OnCourse P base start m) (allowed : ∀ g, n.action = .host g → P g)
    (kind : n.action = .host f) :
    (Turn.enter name n m).Leads call (OnCourse P base start) (Resumed P start) := by
  have kept := (Contract.sound_kept P).holds_callNative obeys name held.sound allowed
  have called : ∀ {ended : Machine}, ended.Sound P → Code.Continues m.code ended.code →
      OnCourse P base start ended := fun sound continues =>
    ⟨sound, held.continues.trans continues, fun none_ => absurd (allowed f kind) (none_ f),
      held.resumes⟩
  refine ⟨held.resumed_failed fun _ => rfl, fun ended ends => ?_, fun g ended ends => ?_⟩
  · rw [ends] at kept
    exact called kept.1 kept.2
  · rw [ends] at kept
    exact (called kept.1 kept.2.1).resumed_failed kept.2.2

/-- A run stays on its course. -/
theorem OnCourse.leads {call : Caller} {base : Nat} (obeys : (Contract.sound P).Obeys P call)
    (held : OnCourse P base start m) :
    (m.turn base).Leads call (OnCourse P base start) (Resumed P start) := by
  have sound := held.sound
  -- the cell that is fetched says where the run may go
  have stays : ∀ {address : Int} {cell : Cell}, m.ip = some address →
      m.fetch address = .ok cell →
      ∃ a : Nat, address = a ∧ cell.StaysIn (Code.Finished m.code) (a + 1) := by
    intro address cell at_ fetched
    obtain ⟨a, rfl, finished⟩ := sound.ip address at_
    obtain ⟨cell', fetched', stays⟩ := fetch_finished finished
    rw [fetched] at fetched'
    cases fetched'
    exact ⟨a, rfl, stays⟩
  have turned := sound.plain.turned base
  generalize m.turn base = t at turned
  cases turned with
  | rest idle => exact held.resumed_done
  | lost at_ missing =>
    obtain ⟨a, rfl, finished⟩ := sound.ip _ at_
    obtain ⟨cell, fetched, -⟩ := fetch_finished finished
    rw [missing] at fetched
    cases fetched
  | literal at_ fetched =>
    obtain ⟨a, rfl, on⟩ := stays at_ fetched
    exact (held.moved ⟨a + 1, rfl, on⟩).pushAll _
  | primitive at_ fetched known kind =>
    obtain ⟨a, rfl, on⟩ := stays at_ fetched
    exact (held.moved ⟨a + 1, rfl, on⟩).leads_callPrimitive _ _ _
  | @host address entry name immediate n f at_ fetched known kind =>
    obtain ⟨a, rfl, on⟩ := stays at_ fetched
    have allowed : ∀ g, n.action = .host g → P g := (sound.plain.entries entry _ known).2
    exact (held.moved ⟨a + 1, rfl, on⟩).leads_callNative obeys allowed kind
  | call at_ fetched room =>
    obtain ⟨a, rfl, on, b, rfl, target⟩ := stays at_ fetched
    exact (held.moved ⟨a + 1, rfl, on⟩).called ⟨b, rfl, target⟩ ⟨a + 1, rfl, on⟩
  | callFull at_ fetched full =>
    obtain ⟨a, rfl, on, -⟩ := stays at_ fetched
    exact (held.moved ⟨a + 1, rfl, on⟩).resumed_failed fun _ => Fault.derails_full _
  | created at_ fetched known =>
    obtain ⟨a, rfl, on⟩ := stays at_ fetched
    exact (held.moved ⟨a + 1, rfl, on⟩).pushAll _
  | behavior at_ fetched known room =>
    obtain ⟨a, rfl, on⟩ := stays at_ fetched
    have target : Code.FinishedAt m.code _ := sound.entries _ _ known
    exact ((held.moved ⟨a + 1, rfl, on⟩).pushAll _).called target ⟨a + 1, rfl, on⟩
  | behaviorFull at_ fetched known full =>
    obtain ⟨a, rfl, on⟩ := stays at_ fetched
    exact ((held.moved ⟨a + 1, rfl, on⟩).pushAll _).resumed_failed fun _ =>
      Fault.derails_full _
  | does at_ fetched =>
    obtain ⟨a, rfl, on, b, rfl, target⟩ := stays at_ fetched
    exact (held.moved ⟨a + 1, rfl, on⟩).leads_bindBehavior ⟨b, rfl, target⟩
  | @leave address r rest at_ fetched waits above =>
    have kept : ∀ other ∈ rest.items, Code.FinishedAt m.code other := fun other inside =>
      sound.returns other (waits ▸ List.mem_cons_of_mem r inside)
    have back : Code.FinishedAt m.code r := sound.returns r (waits ▸ List.mem_cons_self)
    refine ⟨⟨sound.plain.congr rfl rfl, sound.entries, sound.draft, kept, ?_⟩, held.continues,
      fun _ => above, held.resumes⟩
    rintro other at_
    cases at_
    exact back
  | finish at_ fetched level => exact held.resumed_done
  | under at_ fetched below =>
    -- there is nothing finished after an exit, but the run is over
    refine held.resumed_failed fun none_ => ?_
    have covered := held.covered none_
    omega

/-- Running finished code keeps the contract. -/
theorem Sound.executeAddress {call : Caller} {address : Value}
    (obeys : (Contract.sound P).Obeys P call) (sound : m.Sound P) (entrance : m.Entrance address) :
    (Contract.sound P).Holds m (m.executeAddress call address) := by
  have finished : ∃ target : Int, address = .int target ∧ Code.FinishedAt m.code target := by
    cases entrance with
    | @colon entry name immediate a known => exact ⟨a, rfl, a, rfl, sound.entries entry _ known⟩
    | @behavior entry slot name immediate behavior known given =>
      rcases sound.plain.entries entry _ known with none_ | ⟨target, rfl⟩
      · exact absurd none_ given
      · exact ⟨target, rfl, sound.entries entry _ known⟩
  obtain ⟨target, rfl, finished⟩ := finished
  obtain ⟨s, books, stale⟩ := discardStale_cases m
  rcases executeAddress_cases call (.int target) m with ⟨f, missing, -⟩ | ⟨place, located, ends⟩
  · cases missing
  · cases located
    rw [ends]
    have begun : OnCourse P m.discardStale.returns.depth m
        { m.discardStale with ip := some target } := by
      rw [stale]
      refine ⟨⟨sound.plain.congr rfl books.dictionary, ?_, ?_, ?_, ?_⟩, .refl _,
        fun _ => Nat.le_refl _, sound.ip⟩
      · intro entry w known
        have known : s.dictionary.get? entry = some w := known
        rw [books.dictionary] at known
        exact sound.entries entry w known
      · intro draft open_
        have open_ : s.draft = some draft := open_
        rw [books.draft] at open_
        exact sound.draft draft open_
      · intro r inside
        split at inside
        · cases inside
        · exact sound.returns r inside
      · rintro other at_
        cases at_
        exact finished
    exact loop_of_turns (fun _ held => OnCourse.leads obeys held) maxEntries _ begun

theorem Sound.abort (sound : m.Sound P) : m.abort.Sound P := by
  have stopped : Sound P { m with returns := .empty, ip := none } := by
    refine ⟨sound.plain.congr rfl rfl, sound.entries, sound.draft, ?_, ?_⟩
    · intro r inside
      cases inside
    · intro address at_
      cases at_
  exact ((Contract.sound_kept P).edits stopped m.edits_abort).1

theorem continues_abort (m : Machine) : Code.Continues m.code m.abort.code := by
  have same : m.abort.code = m.code := by
    unfold Machine.abort Machine.note Store.note
    rfl
  rw [same]
  exact .refl _

theorem sound_bare (capacity : Int) (verbose : Bool) : (bare capacity verbose).Sound P where
  plain := plain_bare capacity verbose
  entries entry w known := by
    exact Word.lands_builtin w (List.mem_toArray.mp (Array.mem_of_getElem? known))
  draft draft open_ := by cases open_
  returns r inside := by cases inside
  ip address at_ := by cases at_

end Machine

/-! ## Sessions -/

/-- Sessions in which code is run through words only, by the callables too.  Callables may
do anything else, and compiling may be switched. -/
def Session.throughWords (callables : Host.Callable → Prop) : Session.Scope where
  callables f := callables f ∧ ∀ address, .executeAddress address ∉ f.script
  addresses := False
  switches := True
  cells := False

namespace Contract

theorem sound_sustained (callables : Host.Callable → Prop) :
    (sound (Session.throughWords callables).callables).Sustained
      (Session.throughWords callables).callables where
  toKept := sound_kept _
  enter obeys inv entrance := inv.executeAddress obeys entrance
  raises {f fault} allowed _ none_ := absurd allowed (none_ f)
  invade {call f action m} _ allowed inside invasive inv := by
    cases action with
    | executeAddress address => exact absurd inside (allowed.2 address)
    | dropReturn =>
      simp only [Host.Action.perform]
      split
      · next r rest popped =>
        refine ⟨⟨inv.plain.congr rfl rfl, inv.entries, inv.draft, ?_, inv.ip⟩, .refl _⟩
        intro other below
        have waits := Stack.pop?_eq_some_iff.mp popped
        exact inv.returns other (waits ▸ List.mem_cons_of_mem r below)
      · exact ⟨inv, .refl _, fun _ => rfl⟩
    | abort => exact ⟨inv.abort, m.continues_abort⟩
    | handle => exact ⟨inv, .refl _⟩
    | _ => cases invasive
  handle _ _ _ continues := continues

theorem sound_spanning (callables : Host.Callable → Prop) :
    (sound (Session.throughWords callables).callables).Spanning
      (Session.throughWords callables) where
  toSustained := sound_sustained callables
  register {m name immediate n} inv _ free host := by
    refine inv.continued (inv.plain.register free host) (.refl _) ?_ inv.draft ⟨rfl, rfl, rfl⟩
    intro entry w known
    rcases Dictionary.get?_push known with old | ⟨-, rfl⟩
    · exact inv.entries entry w old
    · trivial
  stop inv := inv.abort
  jump allowed := allowed.elim
  switch _ inv := inv.congr rfl rfl rfl ⟨rfl, rfl, rfl⟩
  insert allowed := allowed.elim

end Contract

/-- In a session without host callables, in which code is run through words only, no
operation ever ends by leaving its code: there is a cell wherever a run goes, the cell
spells an instruction, and no exit lacks its call. -/
theorem Session.not_derailed {session : List Session.Operation} {capacity : Int}
    {withPrelude verbose : Bool} {f : Fault} {after : Machine}
    (within : ∀ operation ∈ session,
      operation.Within (Session.throughWords fun _ => False))
    (ended : .failed f after ∈
      Session.outcomes session (Machine.fresh capacity withPrelude verbose)) :
    f.derails = false := by
  have spanning := Contract.sound_spanning fun _ => False
  have inv : Machine.Sound _ (Machine.fresh capacity withPrelude verbose) :=
    spanning.inv_fresh (Machine.sound_bare capacity verbose)
  exact spanning.admits_of_mem_outcomes within inv ended fun g allowed => allowed.1

/-- A session that gives up a definition. -/
def Session.givingUp : List Session.Operation :=
  [.run [.batch [.text "bad"], .word "define", .datum (.int 1), .word "does", .word "nosuch"]]

theorem Session.not_derailed_givingUp :
    (∀ operation ∈ Session.givingUp, operation.Within (Session.throughWords fun _ => False)) ∧
      ∃ f after,
        .failed f after ∈ Session.outcomes Session.givingUp (Machine.fresh 16 false false) ∧
        f = .undefinedWord "nosuch" ∧ after.code.size = 3 ∧ f.derails = false := by
  have within : ∀ operation ∈ Session.givingUp,
      operation.Within (Session.throughWords fun _ => False) := by
    intro operation inside
    rw [List.mem_singleton.mp inside]
    trivial
  have ended : ∃ after, .failed (.undefinedWord "nosuch") after ∈
      Session.outcomes Session.givingUp (Machine.fresh 16 false false) ∧ after.code.size = 3 := by
    refine ⟨_, List.mem_singleton.mpr rfl, ?_⟩
    rfl
  obtain ⟨after, ended, size⟩ := ended
  exact ⟨within, _, after, ended, rfl, size, Session.not_derailed within ended⟩

end ThreadedForth
