import ThreadedForth.Proofs.Comparison
import ThreadedForth.Proofs.Layout

/-!
# Compiling preserves meaning

Tokens can be fed to the machine one by one, or they can be compiled into a word that is run
afterwards.  The first way runs every word by itself, with nothing around it.  The second
one joins literals to each other, lays the cells behind the code that is there, and runs
them inside a call.  `Session.define_preserves` says that the two do the same, provided
that the tokens reach no word that begins definitions and no host callable, and that what
they reach is in order.

The argument goes through the cells of the tokens.  The code of the word does what these
cells do (`Machine.run_define`, `Machine.eval_of_body`).  A token that is fed does what its
cell does, with its code entered from nowhere (`Machine.interpretToken_follows`).  So the
cells are run twice, on twins and one level apart (`Machine.run_matches`).

The last condition is needed: `Session.define_differs_stranded` has a state in which a word
is entered where the code ends, so that new code is laid under it.
-/

namespace ThreadedForth
namespace Machine

variable {m : Machine}

/-! ## Feeding the tokens -/

/-- An operation ends as an evaluation says.  When it is done nothing has changed in `m` but
the store and the return addresses that are left from an earlier run. -/
def Follows (m : Machine) (o : Outcome Unit) : Evaluation → Prop
  | .done t => ∃ returns, o = .done () { m with toStore := t, returns := returns }
  | .failed f t => ∃ after, o = .failed f after ∧ after.toStore = t
  | .stuck => True

variable {s : Store}

/-- Code that is run does what its evaluation does, at the depth that the return stack has.
A note may be made before it begins. -/
theorem executeAddress_evaluates (call : Caller) (target : Int) (s : Store) (returns : Stack Int) :
    ∃ notes, m.Follows
      (executeAddress call (.int target) { m with toStore := s, returns := returns })
      (m.eval (if m.ip = none then .empty else returns : Stack Int).depth target
        { s with journal := notes }) := by
  obtain ⟨notes, stale⟩ := discardStale_eq { m with toStore := s, returns := returns }
  generalize left : (if m.ip = none then .empty else returns : Stack Int) = base at stale ⊢
  have stale : discardStale { m with toStore := s, returns := returns } =
      { m with toStore := { s with journal := notes }, returns := base } := by
    rw [stale, ← left]
  refine ⟨notes, ?_⟩
  have refined : m.Refined call base.depth maxEntries base
      ((m.running { s with journal := notes } base target).loop call base.depth maxEntries)
      (m.eval base.depth target { s with journal := notes }) := loop_refines rfl (Nat.le_refl _)
  rcases executeAddress_cases call (.int target) { m with toStore := s, returns := returns } with
    ⟨f, missing, -⟩ | ⟨place, located, ends⟩
  · cases missing
  · cases located
    -- the run begins with no call of its own, so its exit ends it
    rw [stale] at ends
    rw [ends]
    show m.Follows (((m.running { s with journal := notes } base target).loop call base.depth
      maxEntries).adjust _) _
    cases evaluated : m.eval base.depth target { s with journal := notes } with
    | stuck => trivial
    | done t =>
      rw [evaluated] at refined
      rw [refined.1 rfl]
      exact ⟨base, rfl⟩
    | failed f t =>
      rw [evaluated] at refined
      obtain ⟨after, failed, rfl⟩ := refined
      rw [failed]
      exact ⟨_, rfl, rfl⟩

/-- Code that is run while nothing else runs begins with an empty return stack. -/
theorem executeAddress_follows (call : Caller) (target : Int) (s : Store) (returns : Stack Int)
    (still : m.ip = none) :
    ∃ notes, m.Follows
      (executeAddress call (.int target) { m with toStore := s, returns := returns })
      (m.eval 0 target { s with journal := notes }) := by
  have evaluated := m.executeAddress_evaluates call target s returns
  rwa [if_pos still] at evaluated

/-- The entries that the words among the tokens mean. -/
def Named (m : Machine) (tokens : List Token) (entry : Nat) : Prop :=
  ∃ name, .word name ∈ tokens ∧ m.dictionary.find? name = some entry

theorem Named.mono {first second : List Token} {entry : Nat} (within : first ⊆ second)
    (named : m.Named first entry) : m.Named second entry := by
  obtain ⟨name, inside, meant⟩ := named
  exact ⟨name, within inside, meant⟩

theorem executeEntry_colon (call : Caller) {entry address : Nat} {name : String} {immediate : Bool}
    (known : m.dictionary.get? entry = some ⟨name, immediate, .colon address⟩) :
    m.executeEntry call entry = m.executeAddress call (.int address) := by
  unfold executeEntry
  rw [known]

theorem executeEntry_created (call : Caller) {entry slot : Nat} {name : String} {immediate : Bool}
    (known : m.dictionary.get? entry = some ⟨name, immediate, .created slot .none⟩) :
    m.executeEntry call entry = .done () (m.pushAll [.cell slot]) := by
  unfold executeEntry
  rw [known]

theorem executeEntry_behavior (call : Caller) {entry slot : Nat} {name : String}
    {immediate : Bool} {target : Int}
    (known : m.dictionary.get? entry = some ⟨name, immediate, .created slot (.int target)⟩) :
    m.executeEntry call entry = (m.pushAll [.cell slot]).executeAddress call (.int target) := by
  unfold executeEntry
  rw [known]

variable {roots : Nat → Prop}

/-- A reached word that is run by itself does what its cell does. -/
theorem executeEntry_follows (call : Caller) (returns : Stack Int) {entry : Nat} {w : Word}
    (still : m.ip = none) (later : m.Later roots s) (reached : m.Reached roots (.entry entry))
    (known : m.dictionary.get? entry = some w) (covered : (cellOf entry w).Covered m roots) :
    ∃ notes, m.Follows (executeEntry call entry { m with toStore := s, returns := returns })
      ((cellOf entry w).act m (m.eval 0) { s with journal := notes }) := by
  obtain ⟨name, immediate, body⟩ := w
  cases body with
  | native n =>
    obtain ⟨-, _, _, _, p, same, kind, -⟩ := covered
    obtain ⟨rfl, rfl, rfl⟩ : _ ∧ _ ∧ _ := by simpa using known.symm.trans same
    have known := later.native reached known
    refine ⟨s.journal, ?_⟩
    rw [executeEntry_native call known, callNative, kind]
    show m.Follows (callWith name n p.perform { m with toStore := s, returns := returns })
      ((Cell.native entry).act m (m.eval 0) s)
    rw [Cell.act_primitive known kind]
    rcases callPrimitive_congr name n p { m with toStore := s }
      { m with toStore := s, returns := returns } rfl rfl with ⟨t, one, two⟩ | ⟨f, t, one, two⟩
    · rw [one, two]
      exact ⟨returns, rfl⟩
    · rw [one, two]
      exact ⟨_, rfl, rfl⟩
  | colon address =>
    have known : s.dictionary.get? entry = some ⟨name, immediate, .colon address⟩ := by
      rcases later.entries entry _ reached known with same | ⟨target, -, same⟩
      · exact same
      · exact same
    rw [executeEntry_colon call known]
    exact executeAddress_follows call address s returns still
  | created slot behavior =>
    obtain ⟨-, _, _, _, _, same, proper⟩ := covered
    obtain ⟨rfl, rfl, rfl, rfl⟩ : _ ∧ _ ∧ _ ∧ _ := by simpa using known.symm.trans same
    rcases later.created reached known proper with known | ⟨target, -, known⟩
    · refine ⟨s.journal, ?_⟩
      rw [executeEntry_created call known]
      show m.Follows _ ((Cell.created entry).act m (m.eval 0) s)
      rw [Cell.act_created known]
      exact ⟨returns, rfl⟩
    · obtain ⟨notes, follows⟩ :=
        executeAddress_follows call target (s.pushAll [.cell slot]) returns still
      refine ⟨notes, ?_⟩
      rw [executeEntry_behavior call known]
      show m.Follows _ ((Cell.created entry).act m (m.eval 0) { s with journal := notes })
      have known : Dictionary.get? { s with journal := notes }.dictionary entry = _ := known
      rw [Cell.act_behavior known]
      exact follows

/-- A token that is fed does what its cell does. -/
theorem interpretToken_follows (call : Caller) (returns : Stack Int) {token : Token} {cell : Cell}
    (idle : m.compiling = false) (still : m.ip = none) (inOrder : m.InOrder roots)
    (calculates : m.Calculates roots) (rooted : ∀ entry, m.Named [token] entry → roots entry)
    (found : m.cellOf? token = some cell) (later : m.Later roots s) :
    cell.Covered m roots ∧ ∃ notes, m.Follows
      (interpretToken call { m with toStore := s, returns := returns } token)
      (cell.act m (m.eval 0) { s with journal := notes }) := by
  have idle : s.compiling = false := later.compiling.trans idle
  have pushes : ∀ values, ∃ notes, m.Follows
      (interpretLiterals values { m with toStore := s, returns := returns })
      ((Cell.literal values).act m (m.eval 0) { s with journal := notes }) := by
    intro values
    refine ⟨s.journal, ?_⟩
    unfold interpretLiterals
    rw [if_neg (by rw [idle]; exact nofun)]
    exact ⟨returns, rfl⟩
  cases token with
  | datum v =>
    cases found
    exact ⟨trivial, pushes [v]⟩
  | batch values =>
    cases found
    exact ⟨trivial, pushes values⟩
  | malformed content => cases found
  | word name =>
    obtain ⟨entry, w, meant, known, open_, rfl⟩ := cellOf?_word found
    have reached : m.Reached roots (.entry entry) :=
      .root (rooted entry ⟨name, List.mem_singleton.mpr rfl, meant⟩)
    have covered := inOrder.covered_cellOf calculates reached known open_
    refine ⟨covered, ?_⟩
    have meant : s.dictionary.find? name = some entry := (later.names name).trans meant
    obtain ⟨v, known'⟩ : ∃ v, s.dictionary.get? entry = some v := by
      rcases later.entries entry w reached known with same | ⟨target, -, same⟩
      · exact ⟨_, same⟩
      · exact ⟨_, same⟩
    show ∃ notes, m.Follows
      (interpretName call name { m with toStore := s, returns := returns }) _
    rw [interpretName_of_idle (m := { m with toStore := s, returns := returns }) call idle meant
      known']
    exact executeEntry_follows call returns still later reached known covered

/-! ## The comparison -/

/-- How feeding tokens compares with the cells of the tokens on another machine: these run out
of return stack, or both succeed and leave related stores, or both fail alike and leave
related stores. -/
inductive Matches (capacity : Int) (R : Store → Store → Prop) : Outcome Unit → Evaluation → Prop
  | overflow {o : Outcome Unit} {t : Store} :
      Matches capacity R o (.failed (.full capacity) t)
  | done {after : Machine} {t : Store} (related : R after.toStore t) :
      Matches capacity R (.done () after) (.done t)
  | failed {f : Fault} {after : Machine} {t : Store} (related : R after.toStore t)
      (idle : t.compiling = false) : Matches capacity R (.failed f after) (.failed f t)

/-- Literals and notes keep the relation, and it tells whether something is compiled. -/
structure Indifferent (R : Store → Store → Prop) : Prop where
  pushes {s t : Store} (values : List Value) : R s t → R (s.pushAll values) (t.pushAll values)
  notes {s t : Store} (notes : List Note) : R s t → R { s with journal := notes } t
  compiling {s t : Store} : R s t → t.compiling = s.compiling

theorem ne_does_of_cellOf? {token : Token} {cell : Cell} (found : m.cellOf? token = some cell)
    (target : Int) : cell ≠ .does target := by
  cases token with
  | datum v =>
    cases found
    exact nofun
  | batch values =>
    cases found
    exact nofun
  | malformed content => cases found
  | word name =>
    obtain ⟨entry, ⟨_, _, body⟩, -, -, -, rfl⟩ := cellOf?_word found
    cases body with
    | _ => exact nofun

/-- Feeding tokens does what their cells do one level deeper on a counterpart. -/
theorem run_matches (call : Caller) {m' : Machine} {R : Store → Store → Prop}
    {tokens : List Token} (idle : m.compiling = false) (still : m.ip = none)
    (common : m.Counterpart m' roots R) (indifferent : Indifferent R)
    (inOrder : m.InOrder roots) (calculates : m.Calculates roots)
    (compiled : ∀ token ∈ tokens, (m.cellOf? token).isSome)
    (rooted : ∀ entry, m.Named tokens entry → roots entry) :
    ∀ {s t : Store} (returns : Stack Int), m.Later roots s → R s t →
      Matches m.capacity R (run call tokens { m with toStore := s, returns := returns })
        (Cell.actAll m' (m'.evalCall 0) (tokens.filterMap m.cellOf?) t) := by
  induction tokens with
  | nil =>
    intro s t returns later related
    exact .done related
  | cons token rest ih =>
    intro s t returns later related
    obtain ⟨cell, found⟩ := Option.isSome_iff_exists.mp (compiled token List.mem_cons_self)
    have rooted_here : ∀ entry, m.Named [token] entry → roots entry := fun entry named =>
      rooted entry (named.mono (List.cons_subset_cons token (List.nil_subset rest)))
    have rooted_rest : ∀ entry, m.Named rest entry → roots entry := fun entry named =>
      rooted entry (named.mono (List.subset_cons_self token rest))
    obtain ⟨covered, notes, follows⟩ :=
      interpretToken_follows call returns idle still inOrder calculates rooted_here found later
    have noted : m.Later roots { s with journal := notes } :=
      later.sameBooks ⟨rfl, rfl, rfl, rfl, rfl, rfl, rfl, rfl⟩
    have related := indifferent.notes notes related
    -- the same cell inside the word, where its code is entered by a call
    have compared : m.Compared roots R True (cell.act m (m.eval 0) { s with journal := notes })
        (cell.act m' (m'.evalCall 0) t) := by
      refine act_compared common (fun target u v within later related => ?_) covered noted related
        (fun values _ => indifferent.pushes values related) fun target same => ?_
      · exact evalCall_compared common inOrder calculates within later related
      · exact absurd same (ne_does_of_cellOf? found target)
    rw [List.filterMap_cons_some found, Cell.actAll, run, interpret]
    generalize cell.act m (m.eval 0) { s with journal := notes } = e at compared follows
    generalize cell.act m' (m'.evalCall 0) t = e' at compared
    cases compared with
    | overflow below => exact .overflow
    | done later related =>
      obtain ⟨returns', ends⟩ := follows
      rw [ends]
      exact ih (fun t inside => compiled t (List.mem_cons_of_mem token inside)) rooted_rest _
        later related
    | failed later related =>
      obtain ⟨after, ends, rfl⟩ := follows
      have quiet : after.compiling = false := later.compiling.trans idle
      rw [ends, onFault_of_idle quiet]
      exact .failed related ((indifferent.compiling related).trans quiet)

/-- A machine with more code and one more word that takes no behavior is a counterpart. -/
theorem counterpart_twin {m' : Machine} {w : Word} {more : Array Cell}
    (fixed : ∀ target, Dictionary.givenBehavior (.int target) w = w)
    (code : m'.code = m.code ++ more) (capacity : m'.capacity = m.capacity) :
    m.Counterpart m' roots (Store.Twin w) where
  capacity := capacity
  cells {a cell} _ known := by
    have low : a < m.code.size := (Array.getElem?_eq_some_iff.mp known).1
    rw [code, Array.getElem?_append_left low]
    exact known
  words {s t entry w} twin _ known := ⟨w.immediate, twin.get? known⟩
  literal twin _ _ := twin.pushAll _
  slot twin _ _ := twin.pushAll _
  calculation {s t entry name immediate n p} twin _ _ _ calculation :=
    callPrimitive_twin name n calculation { m with toStore := s } { m' with toStore := t } twin
  behavior {s t address target} twin _ _ :=
    bindBehavior_twin { m with toStore := s } { m' with toStore := t } twin (fixed target)

theorem indifferent_twin (w : Word) : Indifferent (Store.Twin w) where
  pushes values twin := twin.pushAll values
  notes notes twin := twin.journal notes _
  compiling twin := twin.compiling

/-- A word that was made of tokens does, when it is fed, what its cells do. -/
theorem run_defined_follows (call : Caller) {name : String} {tokens : List Token} {after : Machine}
    (defined : m.Defined name tokens after) (idle : m.compiling = false) (still : m.ip = none) :
    ∃ notes, after.Follows (after.interpretToken call (.word name))
      (Cell.actAll after (after.evalCall 0) (tokens.filterMap m.cellOf?)
        { after.toStore with journal := notes }) := by
  have twin := defined.twin
  obtain ⟨body, laid, inner, acts⟩ := defined.code
  have found : after.dictionary.find? name = some m.dictionary.size := by
    rw [twin.dictionary]
    exact m.dictionary.find?_push_self ⟨name, false, .colon m.code.size⟩
  have known : after.dictionary.get? m.dictionary.size =
      some ⟨name, false, .colon m.code.size⟩ := by
    rw [twin.dictionary, Dictionary.get?_push_size]
  obtain ⟨notes, follows⟩ := executeAddress_follows call m.code.size after.toStore after.returns
    (defined.ip.trans still)
  refine ⟨notes, ?_⟩
  rw [interpretToken, interpretName_of_idle call (twin.compiling.trans idle) found known,
    executeEntry_colon call known]
  have evaluated := eval_of_body 0 inner (s := { after.toStore with journal := notes }) laid
  rw [Array.length_toList, acts] at evaluated
  rw [← evaluated]
  exact follows

end Machine

/-- Two stores hold the same values and have written the same. -/
structure Store.SameData (s t : Store) : Prop where
  stack : t.stack = s.stack
  slots : t.slots = s.slots
  transcript : t.transcript = s.transcript

/-- Two operations end alike: both succeed, or both fail with the same fault, and the values
and the output that they leave are the same. -/
def Outcome.SameEffect : Outcome Unit → Outcome Unit → Prop
  | .done () m, .done () m' => m.toStore.SameData m'.toStore
  | .failed f m, .failed f' m' => f' = f ∧ m.toStore.SameData m'.toStore
  | _, _ => False

namespace Machine

/-- Feeding tokens has the same effect as feeding a word that does what their cells do on
another machine, unless the word runs out of return stack. -/
theorem sameEffect_of_matches (call : Caller) {after : Machine} {name : String} {capacity : Int}
    {R : Store → Store → Prop} {o : Outcome Unit} {e : Evaluation}
    (data : ∀ s t, R s t → s.SameData t) (matches_ : Matches capacity R o e)
    (follows : after.Follows (after.interpretToken call (.word name)) e) :
    (∃ ended, after.run call [.word name] = .failed (.full capacity) ended) ∨
      o.SameEffect (after.run call [.word name]) := by
  have fed : after.run call [.word name] =
      ((after.interpretToken call (.word name)).onFault abandonIfCompiling).bind
        fun () ended => .done () ended := rfl
  rw [fed]
  cases matches_ with
  | overflow =>
    obtain ⟨ended, ends, -⟩ := follows
    rw [ends]
    exact .inl ⟨_, rfl⟩
  | done related =>
    obtain ⟨returns, ends⟩ := follows
    rw [ends]
    exact .inr (data _ _ related)
  | failed related quiet =>
    obtain ⟨ended, ends, rfl⟩ := follows
    rw [ends, onFault_of_idle quiet]
    exact .inr ⟨rfl, data _ _ related⟩

/-- A word that was made of tokens does what the tokens do, unless the return stack is not
deep enough for it. -/
theorem run_defined (call : Caller) {m after : Machine} {name : String} {tokens : List Token}
    (defined : m.Defined name tokens after) (idle : m.compiling = false) (still : m.ip = none)
    (inOrder : m.InOrder (m.Named tokens)) (calculates : m.Calculates (m.Named tokens))
    (compiled : ∀ token ∈ tokens, (m.cellOf? token).isSome) :
    (∃ ended, after.run call [.word name] = .failed (.full m.capacity) ended) ∨
      (m.run call tokens).SameEffect (after.run call [.word name]) := by
  have grown : ∃ more, after.code = m.code ++ more := by
    obtain ⟨body, laid, -⟩ := defined.code
    refine ⟨(body ++ [Cell.exit]).toArray, Array.toList_inj.mp ?_⟩
    rw [laid, Array.toList_append, List.append_assoc]
  obtain ⟨more, code⟩ := grown
  obtain ⟨notes, follows⟩ := run_defined_follows call defined idle still
  have twin := defined.twin.journal m.journal notes
  have common : m.Counterpart after (m.Named tokens)
      (Store.Twin ⟨name, false, .colon m.code.size⟩) :=
    counterpart_twin (fun _ => rfl) code defined.capacity
  have matches_ := run_matches call idle still common (indifferent_twin _) inOrder calculates
    compiled (fun _ named => named) m.returns (.refl m _) twin
  exact sameEffect_of_matches call (fun s t twin => ⟨twin.stack, twin.slots, twin.transcript⟩)
    matches_ follows

end Machine

/-- The fault of an operation that has failed. -/
def Outcome.fault? {α : Type} : Outcome α → Option Fault
  | .done _ _ => none
  | .failed f _ => some f

theorem Outcome.SameEffect.fault? {o o' : Outcome Unit} (same : o.SameEffect o') :
    o'.fault? = o.fault? := by
  cases o with
  | done a m =>
    cases o' with
    | done a' m' => rfl
    | failed f' m' => exact same.elim
  | failed f m =>
    cases o' with
    | done a' m' => exact same.elim
    | failed f' m' => exact congrArg some same.1

/-- All code is in order when code has been run through words only and no cells have been
handed in. -/
theorem Session.inOrder_of_within {session : List Session.Operation} {capacity : Int}
    {withPrelude verbose : Bool} {m : Machine}
    (reached : m = Session.play session (Machine.fresh capacity withPrelude verbose))
    (within : ∀ operation ∈ session, operation.Within (Session.throughWords fun _ => True))
    (roots : Nat → Prop) : m.InOrder roots := by
  have spanning := Contract.sound_spanning fun _ => True
  have sound : m.Sound (Session.throughWords fun _ => True).callables := by
    rw [reached]
    exact spanning.inv_play within (spanning.inv_fresh (Machine.sound_bare capacity verbose))
  exact sound.inOrder roots

/-- Compiling preserves meaning.  Take a state that a session has reached, in which nothing
runs and nothing is compiled, and tokens that are literals or names of words that are not
immediate, and that reach no host callable and no word that begins a definition.  Then the
tokens can be made into a word, and feeding the word has the same effect as feeding the
tokens, unless the word runs out of return stack.  That fault is `Fault.full`: it names the
capacity of the return stack, and is the fault of writing a number where the capacity has too many
digits to be named.

What the tokens reach has to be in order.  It always is when code has been run through words
only and no cells have been handed in. -/
theorem Session.define_preserves {session : List Session.Operation} {capacity : Int}
    {withPrelude verbose : Bool} {m : Machine} {name : String} {tokens : List Token}
    (reached : m = Session.play session (Machine.fresh capacity withPrelude verbose))
    (idle : m.compiling = false) (still : m.ip = none)
    (valid : Text.allBlank name.toList = false) (other : .word name ∉ tokens)
    (different : name ≠ "return")
    (define : m.Knows "define" (Builtin.plain "define" .define))
    (return_ : m.Knows "return" (Builtin.ofDirective "return" .finish))
    (compiled : ∀ token ∈ tokens, (m.cellOf? token).isSome)
    (calculates : m.Calculates (m.Named tokens))
    (whole : (∀ operation ∈ session, operation.Within (Session.throughWords fun _ => True)) ∨
      m.InOrder (m.Named tokens)) :
    ∃ after, Session.define (.text name) tokens m = .done () after ∧
      ((∃ ended, Session.run [.word name] after = .failed (.full m.capacity) ended) ∨
        (Session.run tokens m).SameEffect (Session.run [.word name] after)) := by
  have inOrder : m.InOrder (m.Named tokens) := by
    rcases whole with within | inOrder
    · exact Session.inOrder_of_within reached within _
    · exact inOrder
  obtain ⟨after, made, defined⟩ :=
    Machine.run_define Host.caller idle valid different define return_ compiled other
  refine ⟨after, made, ?_⟩
  exact Machine.run_defined Host.caller defined idle still inOrder calculates compiled

namespace Session

/-- A session that defines a word. -/
def pairing : List Operation := [.define (.text "pair") [.datum (.int 1), .datum (.int 2)]]

/-- The state in which the session leaves the machine. -/
def paired : Machine := play pairing (Machine.fresh 16 false false)

/-- Tokens that run the word and add what it leaves. -/
def adding : List Token := [.word "pair", .word "+"]

/-- From the tokens one gets to the two words and to the code of the first one. -/
theorem reached_adding {place : Place} (reached : paired.Reached (paired.Named adding) place) :
    place = .entry 22 ∨ place = .entry 40 ∨ place = .address 0 ∨ place = .address 1 := by
  have named_add : paired.dictionary.find? "+" = some 22 := rfl
  have named_pair : paired.dictionary.find? "pair" = some 40 := rfl
  have add_ : paired.dictionary.get? 22 = some (Builtin.plain "+" .add) := rfl
  have pair_ : paired.dictionary.get? 40 = some ⟨"pair", false, .colon 0⟩ := rfl
  have first : paired.fetch 0 = .ok (.literal [.int 1, .int 2]) := rfl
  have second : paired.fetch 1 = .ok .exit := rfl
  induction reached with
  | root named =>
    obtain ⟨name, inside, meant⟩ := named
    simp only [adding, List.mem_cons, Token.word.injEq, List.not_mem_nil, or_false] at inside
    rcases inside with rfl | rfl
    · exact .inr (.inl (congrArg Place.entry (Option.some.inj (meant.symm.trans named_pair))))
    · exact .inl (congrArg Place.entry (Option.some.inj (meant.symm.trans named_add)))
  | colon reached known body ih =>
    rcases ih with ⟨⟨⟩⟩ | ⟨⟨⟩⟩ | ⟨⟨⟩⟩ | ⟨⟨⟩⟩
    · rw [add_] at known
      cases known
      cases body
    · rw [pair_] at known
      cases known
      cases body
      exact .inr (.inr (.inl rfl))
  | behavior reached known body ih =>
    rcases ih with ⟨⟨⟩⟩ | ⟨⟨⟩⟩ | ⟨⟨⟩⟩ | ⟨⟨⟩⟩
    · rw [add_] at known
      cases known
      cases body
    · rw [pair_] at known
      cases known
      cases body
  | next reached fetched inner ih =>
    rcases ih with ⟨⟨⟩⟩ | ⟨⟨⟩⟩ | ⟨⟨⟩⟩ | ⟨⟨⟩⟩
    · exact .inr (.inr (.inr rfl))
    · rw [second] at fetched
      cases fetched
      exact absurd rfl inner
  | call reached fetched ih | native reached fetched ih | created reached fetched ih
  | does reached fetched _ _ ih =>
    rcases ih with ⟨⟨⟩⟩ | ⟨⟨⟩⟩ | ⟨⟨⟩⟩ | ⟨⟨⟩⟩
    · rw [first] at fetched
      cases fetched
    · rw [second] at fetched
      cases fetched

theorem define_preserves_adding :
    ∃ after, define (.text "sum") adding paired = .done () after ∧
      ((∃ ended, run [.word "sum"] after = .failed (.returnOverflow 16) ended) ∨
        (run adding paired).SameEffect (run [.word "sum"] after)) := by
  have played : paired = play pairing (Machine.fresh 16 false false) := rfl
  have full : Fault.full paired.capacity = .returnOverflow 16 :=
    Fault.full_of_lt (by decide +kernel)
  rw [← full]
  refine define_preserves played rfl rfl (by decide) (by decide) (by decide) ⟨8, rfl, rfl⟩
    ⟨9, rfl, rfl⟩ ?_ ?_ (.inl ?_)
  · intro token inside
    simp only [adding, List.mem_cons, List.not_mem_nil, or_false] at inside
    rcases inside with rfl | rfl <;> rfl
  · intro entry w n reached known body
    rcases reached_adding reached with ⟨⟨⟩⟩ | ⟨⟨⟩⟩ | ⟨⟨⟩⟩ | ⟨⟨⟩⟩
    · cases (known : some (Builtin.plain "+" .add) = some w)
      cases body
      exact ⟨nofun, nofun, nofun⟩
    · cases (known : some (⟨"pair", false, .colon 0⟩ : Word) = some w)
      cases body
  · intro operation inside
    rw [List.mem_singleton.mp inside]
    trivial

/-- A session that gives up a definition and then runs what is left of it by its address.
The word `w` gets a behavior that begins where the code ends. -/
def stranding : List Operation :=
  [.run [.batch [.text "bad"], .word "define", .word "does", .word "nosuch"],
    .run [.batch [.int 1, .text "w"], .word "create"], .executeAddress (.int 0)]

/-- The state in which the session leaves the machine. -/
def stranded : Machine :=
  let left := play (stranding.take 2) (Machine.fresh 16 false false)
  { left with dictionary := left.dictionary.setBehavior 40 (.int 2) }

/-- Tokens that drop what is on the stack and run the word. -/
def dropping : List Token := [.word "drop", .word "drop", .word "w"]

theorem play_stranding : play stranding (Machine.fresh 16 false false) = stranded := by
  have ended := Machine.executeAddress_of_halt Host.caller 1 0
    (play (stranding.take 2) (Machine.fresh 16 false false)) { stranded with ip := none } rfl
  show (Result.ofSelf (Machine.executeAddress Host.caller (.int 0)
    (play (stranding.take 2) (Machine.fresh 16 false false)))).machine = stranded
  rw [ended]
  rfl

/-- The tokens drop two values and then run into the end of the code. -/
theorem fault_dropping : ∃ f, (run dropping stranded).fault? = some f ∧ f.kind = .machine := by
  let pushed : Machine := { stranded with stack := Stack.empty.push (.cell 0) }
  have ended := Machine.executeAddress_of_fault Host.caller 0 2 pushed (pushed.ranOff (.int 2))
    { pushed with ip := some 2 } rfl
  refine ⟨pushed.ranOff (.int 2), ?_, by decide +kernel⟩
  show Outcome.fault? (Outcome.bind (Outcome.onFault Machine.abandonIfCompiling
    (Machine.executeAddress Host.caller (.int 2) pushed)) _) = _
  rw [ended]
  rfl

/-- The word that is made of them begins where the code ended.  So `w` runs it again, and
there is nothing left to drop. -/
theorem fault_dropped :
    ((define (.text "f") dropping stranded).bind fun () after => run [.word "f"] after).fault? =
      some (.underflow 1 0 (some "drop")) := by
  let after : Machine := (define (.text "f") dropping stranded).machine
  have last : Machine.turns after.discardStale.returns.depth 4
      { after.discardStale with ip := some 2 } = .fault (.short 1 0 (some "drop"))
        { after with stack := .empty, returns := Stack.empty.push 5, ip := some 4 } := by
    decide +kernel
  have ended := Machine.executeAddress_of_fault Host.caller 4 2 after _ _ last
  rw [← Fault.short_of_lt (Number.lt_decimalBound_of_le_two (Nat.le_succ 1))]
  show Outcome.fault? (Outcome.bind (Outcome.onFault Machine.abandonIfCompiling
    (Machine.executeAddress Host.caller (.int 2) after)) _) = _
  rw [ended, Outcome.onFault, Fault.isInterrupt_short]
  rfl

/-- From the tokens one gets to the two words and to the end of the code. -/
theorem reached_dropping {place : Place}
    (reached : stranded.Reached (stranded.Named dropping) place) :
    place = .entry 1 ∨ place = .entry 40 ∨ place = .address 2 := by
  have named_drop : stranded.dictionary.find? "drop" = some 1 := rfl
  have named_w : stranded.dictionary.find? "w" = some 40 := rfl
  have drop_ : stranded.dictionary.get? 1 = some (Builtin.plain "drop" .drop) := rfl
  have w_ : stranded.dictionary.get? 40 = some ⟨"w", false, .created 0 (.int 2)⟩ := rfl
  have end_ : stranded.fetch 2 = .error (stranded.ranOff (.int 2)) := rfl
  induction reached with
  | root named =>
    obtain ⟨name, inside, meant⟩ := named
    simp only [dropping, List.mem_cons, Token.word.injEq, List.not_mem_nil, or_false] at inside
    rcases inside with rfl | rfl | rfl
    · exact .inl (congrArg Place.entry (Option.some.inj (meant.symm.trans named_drop)))
    · exact .inl (congrArg Place.entry (Option.some.inj (meant.symm.trans named_drop)))
    · exact .inr (.inl (congrArg Place.entry (Option.some.inj (meant.symm.trans named_w))))
  | colon reached known body ih =>
    rcases ih with ⟨⟨⟩⟩ | ⟨⟨⟩⟩ | ⟨⟨⟩⟩
    · rw [drop_] at known
      cases known
      cases body
    · rw [w_] at known
      cases known
      cases body
  | behavior reached known body ih =>
    rcases ih with ⟨⟨⟩⟩ | ⟨⟨⟩⟩ | ⟨⟨⟩⟩
    · rw [drop_] at known
      cases known
      cases body
    · rw [w_] at known
      cases known
      cases body
      exact .inr (.inr rfl)
  | next reached fetched _ ih | call reached fetched ih | native reached fetched ih
  | created reached fetched ih | does reached fetched _ _ ih =>
    rcases ih with ⟨⟨⟩⟩ | ⟨⟨⟩⟩ | ⟨⟨⟩⟩
    rw [end_] at fetched
    cases fetched

/-- What the tokens reach has to be in order.  Here it is not, and compiling changes what
they mean. -/
theorem define_differs_stranded :
    ∃ m, m = play stranding (Machine.fresh 16 false false) ∧ m.compiling = false ∧ m.ip = none ∧
      Text.allBlank "f".toList = false ∧ .word "f" ∉ dropping ∧ "f" ≠ "return" ∧
      m.Knows "define" (Builtin.plain "define" .define) ∧
      m.Knows "return" (Builtin.ofDirective "return" .finish) ∧
      (∀ token ∈ dropping, (m.cellOf? token).isSome) ∧ m.Calculates (m.Named dropping) ∧
      ¬ ∃ after, define (.text "f") dropping m = .done () after ∧
        ((∃ ended, run [.word "f"] after = .failed (.full m.capacity) ended) ∨
          (run dropping m).SameEffect (run [.word "f"] after)) := by
  refine ⟨stranded, play_stranding.symm, rfl, rfl, by decide, by decide, by decide, ⟨8, rfl, rfl⟩,
    ⟨9, rfl, rfl⟩, ?_, ?_, ?_⟩
  · intro token inside
    simp only [dropping, List.mem_cons, List.not_mem_nil, or_false] at inside
    rcases inside with rfl | rfl | rfl <;> rfl
  · intro entry w n reached known body
    rcases reached_dropping reached with ⟨⟨⟩⟩ | ⟨⟨⟩⟩ | ⟨⟨⟩⟩
    · cases (known : some (Builtin.plain "drop" .drop) = some w)
      cases body
      exact ⟨nofun, nofun, nofun⟩
    · cases (known : some (⟨"w", false, .created 0 (.int 2)⟩ : Word) = some w)
      cases body
  · rintro ⟨after, made, same⟩
    have dropped := fault_dropped
    rw [made, Outcome.bind_done] at dropped
    have full : Fault.full stranded.capacity = .returnOverflow 16 :=
      Fault.full_of_lt (by decide +kernel)
    rcases same with ⟨ended, overflow⟩ | same
    · rw [overflow, full] at dropped
      cases dropped
    · obtain ⟨f, failed, kind⟩ := fault_dropping
      rw [same.fault?, failed] at dropped
      cases dropped
      cases kind

end Session
end ThreadedForth
