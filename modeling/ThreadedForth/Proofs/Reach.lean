import ThreadedForth.Proofs.Finished
import ThreadedForth.Proofs.Twin

/-!
# What words reach

A word that runs can reach other words and other code: the code of a colon word, the
behavior of a created one, from each cell the next one and whatever the cell refers to.
`Machine.Reached` collects all of it, starting from some entries.  A `does` cell counts only
if the word that was created last is itself within reach, since otherwise the behavior that
it gives is never run from here.

Reached code is *in order* if there is a cell at every reached address, and the cell and
the words that it names are what they should be (`Machine.InOrder`).  In a machine that is
sound everything is in order (`Machine.Sound.inOrder`).  If, besides, it reaches neither
host callables nor the two words that begin definitions, then all that it can change in
the books are the behaviors of created words (`Machine.Later`).

What is reached on a given machine can be found out by computing (`Machine.isCalm`).
-/

namespace ThreadedForth

/-- A place that can be reached. -/
inductive Place where
  | entry (entry : Nat)
  | address (address : Int)

/-- What is reached from entries with the property `roots`. -/
inductive Machine.Reached (m : Machine) (roots : Nat → Prop) : Place → Prop where
  | root {entry : Nat} (root : roots entry) : Reached m roots (.entry entry)
  | colon {entry address : Nat} {w : Word} (reached : Reached m roots (.entry entry))
      (known : m.dictionary.get? entry = some w) (body : w.body = .colon address) :
      Reached m roots (.address address)
  | behavior {entry slot : Nat} {target : Int} {w : Word}
      (reached : Reached m roots (.entry entry)) (known : m.dictionary.get? entry = some w)
      (body : w.body = .created slot (.int target)) : Reached m roots (.address target)
  | next {address : Int} {cell : Cell} (reached : Reached m roots (.address address))
      (fetched : m.fetch address = .ok cell) (inner : cell ≠ .exit) :
      Reached m roots (.address (address + 1))
  | call {address target : Int} {name : String} (reached : Reached m roots (.address address))
      (fetched : m.fetch address = .ok (.call target name)) : Reached m roots (.address target)
  | native {address : Int} {entry : Nat} (reached : Reached m roots (.address address))
      (fetched : m.fetch address = .ok (.native entry)) : Reached m roots (.entry entry)
  | created {address : Int} {entry : Nat} (reached : Reached m roots (.address address))
      (fetched : m.fetch address = .ok (.created entry)) : Reached m roots (.entry entry)
  | does {address target : Int} {entry : Nat} (reached : Reached m roots (.address address))
      (fetched : m.fetch address = .ok (.does target)) (last : m.lastCreated = some entry)
      (within : Reached m roots (.entry entry)) : Reached m roots (.address target)

namespace Machine

variable {m : Machine} {roots : Nat → Prop}

/-- There is a cell at every reached address, and all cells and words that are reached are
in order. -/
structure InOrder (m : Machine) (roots : Nat → Prop) : Prop where
  cells : ∀ address, m.Reached roots (.address address) →
    ∃ (a : Nat) (cell : Cell), address = a ∧ m.code[a]? = some cell ∧ cell.Fits m.dictionary
  entries : ∀ entry w, m.Reached roots (.entry entry) → m.dictionary.get? entry = some w →
    w.Fits fun _ => True

/-- No host callable and no word that begins a definition is reached. -/
def Calculates (m : Machine) (roots : Nat → Prop) : Prop :=
  ∀ entry w n, m.Reached roots (.entry entry) → m.dictionary.get? entry = some w →
    w.body = .native n →
    (∀ f, n.action ≠ .host f) ∧ n.action ≠ .primitive .define ∧ n.action ≠ .primitive .create

/-- No cell is reached that gives a behavior. -/
def GivesNothing (m : Machine) (roots : Nat → Prop) : Prop :=
  ∀ address target, m.Reached roots (.address address) → m.fetch address ≠ .ok (.does target)

/-- What a reached native word does, unless it is a directive. -/
theorem Calculates.primitive {entry : Nat} {w : Word} {n : Native}
    (calculates : m.Calculates roots) (reached : m.Reached roots (.entry entry))
    (known : m.dictionary.get? entry = some w) (body : w.body = .native n)
    (free : ∀ d, n.action ≠ .directive d) :
    ∃ p, n.action = .primitive p ∧ p.IsCalculation := by
  obtain ⟨hostless, no_define, no_create⟩ := calculates entry w n reached known body
  cases kind : n.action with
  | directive d => exact absurd kind (free d)
  | host f => exact absurd kind (hostless f)
  | primitive p =>
    refine ⟨p, rfl, ?_, ?_⟩
    · rintro rfl
      exact no_define kind
    · rintro rfl
      exact no_create kind

/-! ## Sound machines are in order -/

/-- Whatever a sound machine reaches is finished. -/
theorem Sound.finishedAt_of_reached {P : Host.Callable → Prop} (sound : m.Sound P) {place : Place}
    (reached : m.Reached roots place) :
    ∀ address, place = .address address → Code.FinishedAt m.code address := by
  -- from a reached address one stays in finished code
  have stays : ∀ {address : Int} {cell : Cell}, Code.FinishedAt m.code address →
      m.fetch address = .ok cell →
      ∃ a : Nat, address = a ∧ cell.StaysIn (Code.Finished m.code) (a + 1) := by
    rintro address cell ⟨a, rfl, finished⟩ fetched
    obtain ⟨cell', fetched', stays⟩ := fetch_finished finished
    rw [fetched] at fetched'
    cases fetched'
    exact ⟨a, rfl, stays⟩
  induction reached with
  | root | native | created => exact nofun
  | @colon entry start w reached known body =>
    rintro _ ⟨⟩
    have lands := sound.entries entry w known
    unfold Word.Lands at lands
    rw [body] at lands
    exact ⟨start, rfl, lands⟩
  | @behavior entry slot target w reached known body =>
    rintro _ ⟨⟩
    have lands := sound.entries entry w known
    unfold Word.Lands at lands
    rw [body] at lands
    exact lands
  | @next address cell reached fetched inner ih =>
    rintro _ ⟨⟩
    obtain ⟨a, rfl, on⟩ := stays (ih _ rfl) fetched
    refine ⟨a + 1, rfl, ?_⟩
    cases cell with
    | exit => exact absurd rfl inner
    | call target name => exact on.1
    | does target => exact on.1
    | native | literal | created | foreign => exact on
  | call reached fetched ih =>
    rintro _ ⟨⟩
    obtain ⟨a, rfl, -, b, rfl, target⟩ := stays (ih _ rfl) fetched
    exact ⟨b, rfl, target⟩
  | does reached fetched last within ih =>
    rintro _ ⟨⟩
    obtain ⟨a, rfl, -, b, rfl, target⟩ := stays (ih _ rfl) fetched
    exact ⟨b, rfl, target⟩

/-- In a sound machine everything is in order. -/
theorem Sound.inOrder {P : Host.Callable → Prop} (sound : m.Sound P) (roots : Nat → Prop) :
    m.InOrder roots where
  cells address reached := by
    obtain ⟨a, rfl, finished⟩ := sound.finishedAt_of_reached reached _ rfl
    obtain ⟨cell, fetched, -⟩ := fetch_finished finished
    exact ⟨a, cell, rfl, fetch_eq_ok_iff.mp fetched, sound.plain.fits_of_fetch fetched⟩
  entries entry w _ known := (sound.plain.entries entry w known).mono fun _ _ => trivial

end Machine

/-! ## Computing what is reached

On a given machine it can be computed that some entries and addresses lead to no others, and
that nothing is among them that begins a definition, gives a behavior or is a host
callable. -/

/-- The body is no host callable and begins no definition, and if it has code the code begins
at one of the addresses. -/
def Body.isCalm (addresses : List Int) : Body → Bool
  | .native ⟨.host _, _, _⟩ | .native ⟨.primitive .define, _, _⟩
  | .native ⟨.primitive .create, _, _⟩ => false
  | .colon address => addresses.contains (address : Int)
  | .created _ (.int target) => addresses.contains target
  | _ => true

/-- The cell gives no behavior and leads to nothing but these entries and these addresses.
`next` is the address after it. -/
def Cell.isCalm (entries : List Nat) (addresses : List Int) (next : Int) : Cell → Bool
  | .exit => true
  | .native entry | .created entry => entries.contains entry && addresses.contains next
  | .call target _ => addresses.contains target && addresses.contains next
  | .literal _ | .foreign _ => addresses.contains next
  | .does _ => false

/-- From these entries and addresses one gets nowhere else, and they are calm. -/
def Machine.isCalm (m : Machine) (entries : List Nat) (addresses : List Int) : Bool :=
  entries.all (fun entry => (m.dictionary.get? entry).all fun w => w.body.isCalm addresses) &&
    addresses.all fun address =>
      (m.fetch address).toOption.all fun cell => cell.isCalm entries addresses (address + 1)

/-- The place is one of these. -/
def Place.IsIn (entries : List Nat) (addresses : List Int) : Place → Prop
  | entry e => e ∈ entries
  | address a => a ∈ addresses

namespace Machine

variable {m : Machine} {roots : Nat → Prop} {entries : List Nat} {addresses : List Int}

theorem body_isCalm {entry : Nat} {w : Word} (calm : m.isCalm entries addresses)
    (inside : entry ∈ entries) (known : m.dictionary.get? entry = some w) :
    w.body.isCalm addresses := by
  have each := List.all_eq_true.mp (Bool.and_eq_true_iff.mp calm).1 entry inside
  rw [known] at each
  exact each

theorem cell_isCalm {address : Int} {cell : Cell} (calm : m.isCalm entries addresses)
    (inside : address ∈ addresses) (fetched : m.fetch address = .ok cell) :
    cell.isCalm entries addresses (address + 1) := by
  have each := List.all_eq_true.mp (Bool.and_eq_true_iff.mp calm).2 address inside
  rw [fetched] at each
  exact each

/-- Whatever is reached from inside is inside. -/
theorem Reached.isIn {place : Place} (reached : m.Reached roots place)
    (calm : m.isCalm entries addresses) (rooted : ∀ entry, roots entry → entry ∈ entries) :
    place.IsIn entries addresses := by
  induction reached with
  | root root => exact rooted _ root
  | colon _ known body ih | behavior _ known body ih =>
    have leads := body_isCalm calm ih known
    rw [body] at leads
    exact List.contains_iff_mem.mp leads
  | @next address cell _ fetched inner ih =>
    have leads := cell_isCalm calm ih fetched
    cases cell with
    | exit => exact absurd rfl inner
    | does => cases leads
    | literal | foreign => exact List.contains_iff_mem.mp leads
    | native | created | call =>
      exact List.contains_iff_mem.mp (Bool.and_eq_true_iff.mp leads).2
  | call _ fetched ih | native _ fetched ih | created _ fetched ih =>
    exact List.contains_iff_mem.mp (Bool.and_eq_true_iff.mp (cell_isCalm calm ih fetched)).1
  | does _ fetched _ _ ih => cases cell_isCalm calm ih fetched

theorem calculates_of_isCalm (calm : m.isCalm entries addresses)
    (rooted : ∀ entry, roots entry → entry ∈ entries) : m.Calculates roots := by
  intro entry w n reached known body
  have quiet := body_isCalm calm (reached.isIn calm rooted) known
  rw [body] at quiet
  obtain ⟨action, arity, pushesNone⟩ := n
  refine ⟨?_, ?_, ?_⟩
  · rintro f rfl
    cases quiet
  · rintro rfl
    cases quiet
  · rintro rfl
    cases quiet

theorem givesNothing_of_isCalm (calm : m.isCalm entries addresses)
    (rooted : ∀ entry, roots entry → entry ∈ entries) : m.GivesNothing roots := by
  intro address target reached fetched
  cases cell_isCalm calm (reached.isIn calm rooted) fetched

end Machine

/-! ## Cells whose doing is within reach -/

/-- What the cell refers to is reached, and is of the kind that the cell asks for. -/
def Cell.Covered (m : Machine) (roots : Nat → Prop) : Cell → Prop
  | .native entry => m.Reached roots (.entry entry) ∧
      ∃ name immediate n p, m.dictionary.get? entry = some ⟨name, immediate, .native n⟩ ∧
        n.action = .primitive p ∧ p.IsCalculation
  | .literal _ => True
  | .call target _ => m.Reached roots (.address target)
  | .created entry => m.Reached roots (.entry entry) ∧
      ∃ name immediate slot behavior,
        m.dictionary.get? entry = some ⟨name, immediate, .created slot behavior⟩ ∧
        (behavior = .none ∨ ∃ target, behavior = .int target)
  | .does target => ∀ entry, m.lastCreated = some entry → m.Reached roots (.entry entry) →
      m.Reached roots (.address target)
  | .exit => True
  | .foreign _ => False

namespace Machine

variable {m : Machine} {roots : Nat → Prop}

/-- The cells of reached code that is in order are covered. -/
theorem InOrder.covered_of_fetch {address : Int} {cell : Cell} (inOrder : m.InOrder roots)
    (calculates : m.Calculates roots) (reached : m.Reached roots (.address address))
    (fetched : m.fetch address = .ok cell) : cell.Covered m roots := by
  have fits : cell.Fits m.dictionary := by
    obtain ⟨a, cell', rfl, known, fits⟩ := inOrder.cells address reached
    rw [fetch_eq_ok_iff.mpr known] at fetched
    cases fetched
    exact fits
  cases cell with
  | native entry =>
    obtain ⟨name, immediate, n, known, free⟩ := fits
    have within : m.Reached roots (.entry entry) := .native reached fetched
    obtain ⟨p, kind, calculation⟩ := calculates.primitive within known rfl free
    exact ⟨within, name, immediate, n, p, known, kind, calculation⟩
  | literal values => trivial
  | call target name => exact .call reached fetched
  | created entry =>
    obtain ⟨name, immediate, slot, behavior, known⟩ := fits
    have within : m.Reached roots (.entry entry) := .created reached fetched
    exact ⟨within, name, immediate, slot, behavior, known, inOrder.entries entry _ within known⟩
  | does target => exact fun entry last within => .does reached fetched last within
  | exit => trivial
  | foreign items => exact fits

/-- The cell of a reached word that is not immediate is covered. -/
theorem InOrder.covered_cellOf {entry : Nat} {w : Word} (inOrder : m.InOrder roots)
    (calculates : m.Calculates roots) (reached : m.Reached roots (.entry entry))
    (known : m.dictionary.get? entry = some w) (open_ : w.immediate = false) :
    (cellOf entry w).Covered m roots := by
  have fits := inOrder.entries entry w reached known
  obtain ⟨name, immediate, body⟩ := w
  cases body with
  | native n =>
    have free : ∀ d, n.action ≠ .directive d := by
      intro d kind
      have marked := fits.1 d kind
      rw [open_] at marked
      cases marked
    obtain ⟨p, kind, calculation⟩ := calculates.primitive reached known rfl free
    exact ⟨reached, name, immediate, n, p, known, kind, calculation⟩
  | colon address => exact .colon reached known rfl
  | created slot behavior => exact ⟨reached, name, immediate, slot, behavior, known, fits⟩

/-! ## What reached code leaves of the books -/

/-- A store that reached code of `m` may leave behind.  Nothing is created or defined, and
a word within reach may have got a behavior within reach. -/
structure Later (m : Machine) (roots : Nat → Prop) (s : Store) : Prop where
  compiling : s.compiling = m.compiling
  lastCreated : s.lastCreated = m.lastCreated
  names : ∀ name, s.dictionary.find? name = m.dictionary.find? name
  entries : ∀ entry w, m.Reached roots (.entry entry) → m.dictionary.get? entry = some w →
    s.dictionary.get? entry = some w ∨
      ∃ target, m.Reached roots (.address target) ∧
        s.dictionary.get? entry = some (Dictionary.givenBehavior (.int target) w)

theorem Later.refl (m : Machine) (roots : Nat → Prop) : m.Later roots m.toStore :=
  ⟨rfl, rfl, fun _ => rfl, fun _ _ _ known => .inl known⟩

variable {s u : Store}

theorem Later.sameBooks (later : m.Later roots s) (books : s.SameBooks u) : m.Later roots u where
  compiling := books.compiling.trans later.compiling
  lastCreated := books.lastCreated.trans later.lastCreated
  names := by
    rw [books.dictionary]
    exact later.names
  entries := by
    rw [books.dictionary]
    exact later.entries

/-- Native words stay as they are. -/
theorem Later.native {entry : Nat} {name : String} {immediate : Bool} {n : Native}
    (later : m.Later roots s) (reached : m.Reached roots (.entry entry))
    (known : m.dictionary.get? entry = some ⟨name, immediate, .native n⟩) :
    s.dictionary.get? entry = some ⟨name, immediate, .native n⟩ := by
  rcases later.entries entry _ reached known with same | ⟨target, -, same⟩
  · exact same
  · exact same

/-- Created words have no behavior or one within reach. -/
theorem Later.created {entry slot : Nat} {name : String} {immediate : Bool} {behavior : Value}
    (later : m.Later roots s) (reached : m.Reached roots (.entry entry))
    (known : m.dictionary.get? entry = some ⟨name, immediate, .created slot behavior⟩)
    (proper : behavior = .none ∨ ∃ target, behavior = .int target) :
    s.dictionary.get? entry = some ⟨name, immediate, .created slot .none⟩ ∨
      ∃ target, m.Reached roots (.address target) ∧
        s.dictionary.get? entry = some ⟨name, immediate, .created slot (.int target)⟩ := by
  rcases later.entries entry _ reached known with same | ⟨target, within, same⟩
  · rcases proper with rfl | ⟨target, rfl⟩
    · exact .inl same
    · exact .inr ⟨target, .behavior reached known rfl, same⟩
  · exact .inr ⟨target, within, same⟩

/-- Giving a word a behavior leaves a store of this kind, if the behavior is reached with the
word. -/
theorem Later.setBehavior {last : Nat} {target : Int} (later : m.Later roots s)
    (within : m.Reached roots (.entry last) → m.Reached roots (.address target))
    (books : Store.SameBooks
      { s with dictionary := s.dictionary.setBehavior last (.int target) } u) :
    m.Later roots u := by
  have given : m.Later roots
      { s with dictionary := s.dictionary.setBehavior last (.int target) } := by
    refine ⟨later.compiling, later.lastCreated, fun name => ?_, fun entry w reached known => ?_⟩
    · exact later.names name
    · have before := later.entries entry w reached known
      simp only [Dictionary.get?_setBehavior]
      -- a behavior that was given before is forgotten
      by_cases same : last = entry
      · subst same
        simp only [if_pos]
        refine .inr ⟨target, within reached, ?_⟩
        rcases before with old | ⟨target', -, old⟩
        · rw [old, Option.map_some]
        · rw [old, Option.map_some, Dictionary.givenBehavior_givenBehavior]
      · simp only [if_neg same]
        exact before
  exact given.sameBooks books

end Machine
end ThreadedForth
