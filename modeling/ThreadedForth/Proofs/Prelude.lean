import ThreadedForth.Proofs.Binding
import ThreadedForth.Proofs.Factory

/-!
# The prelude

The prelude defines four words, of which `constant` is a factory: it makes words whose
behavior loads from their slot.  A machine that has read the prelude has the code of this
factory (`Machine.MakesConstants`), and keeps it whatever a session does, because code that has
been laid is not changed (`Session.makesConstants_play`).

Not more than that is said about the code of a fresh machine.  Where it lies depends on the
definitions before it, and those are known to add code and one word each, as long as the words
that the prelude is made of mean what they meant at first (`Machine.Primed`).
-/

namespace ThreadedForth

namespace Builtin

/-- The built-in words that occur in the prelude. -/
def preludeWords : List Word :=
  [plain "define" .define, ofDirective ";" .finish, passing "pick" .pick, plain "create" .create,
    plain "store" .store, ofDirective "does" .does, passing "load" .load]

/-- Whether a token is a literal or the name of such a word that is compiled. -/
def isOrdinary : Token → Bool
  | .datum _ | .batch _ => true
  | .word name => preludeWords.any fun w => w.name = name && !w.immediate
  | .malformed _ => false

/-- The tokens with which a word of the prelude is defined. -/
def definition (name : String) (tokens : List Token) : List Token :=
  .batch [.text name] :: .word "define" :: tokens ++ [.word ";"]

/-- The definitions of the prelude before the last one. -/
def preludeTokens : List Token :=
  definition "dup" [.datum (.int 0), .word "pick"] ++
    (definition "over" [.datum (.int 1), .word "pick"] ++
      definition "variable" [.word "create", .word "store"])

/-- The last definition of the prelude. -/
def constantTokens : List Token :=
  definition "constant" [.word "create", .word "store", .word "does", .word "load"]

theorem tokenize_prelude : Token.tokenize prelude = .ok (preludeTokens ++ constantTokens) := by
  decide +kernel

end Builtin

namespace Machine

variable {m after : Machine}

/-! ## Reading the prelude -/

/-- Nothing is being compiled, nothing has been created, and the words that the prelude is
made of mean what they meant at first. -/
structure Primed (m : Machine) : Prop where
  idle : m.compiling = false
  slots : m.slots.size = 0
  nothing : m.lastCreated = none
  knows : ∀ w ∈ Builtin.preludeWords, m.Knows w.name w

theorem primed_bare (capacity : Int) (verbose : Bool) : (bare capacity verbose).Primed := by
  have means : ∀ w ∈ Builtin.preludeWords,
      ((Builtin.words.foldl Dictionary.push .empty).find? w.name).bind
        (Builtin.words.foldl Dictionary.push .empty).get? = some w := by decide +kernel
  exact ⟨rfl, rfl, rfl, fun w inside => Option.bind_eq_some_iff.mp (means w inside)⟩

/-- A definition of a new name adds a word, and that is all that matters here. -/
theorem Primed.twin {w : Word} (primed : m.Primed) (twin : m.toStore.Twin w after.toStore)
    (new : ∀ v ∈ Builtin.preludeWords, w.name ≠ v.name) : after.Primed := by
  refine ⟨twin.compiling.trans primed.idle, ?_, twin.lastCreated.trans primed.nothing, ?_⟩
  · rw [twin.slots, primed.slots]
  · intro v inside
    obtain ⟨entry, found, known⟩ := primed.knows v inside
    refine ⟨entry, ?_, twin.get? known⟩
    rw [twin.dictionary, Dictionary.find?_push_of_ne _ (new v inside), found]

theorem Primed.isSome_cellOf? {token : Token} (primed : m.Primed)
    (ordinary : Builtin.isOrdinary token = true) : (m.cellOf? token).isSome := by
  cases token with
  | datum v => rfl
  | batch values => rfl
  | malformed content => cases ordinary
  | word name =>
    obtain ⟨w, inside, named⟩ := List.any_eq_true.mp ordinary
    obtain ⟨rfl, open_⟩ : w.name = name ∧ w.immediate = false := by simpa using named
    obtain ⟨entry, found, known⟩ := primed.knows w inside
    rw [cellOf?_of_find found known open_]
    rfl

/-- The definition of a word that runs other words. -/
theorem Primed.define (primed : m.Primed) (call : Caller) (name : String) (tokens : List Token)
    (valid : Text.allBlank name.toList = false)
    (new : ∀ v ∈ Builtin.preludeWords, name ≠ v.name)
    (ordinary : ∀ token ∈ tokens, Builtin.isOrdinary token = true)
    (other : .word name ∉ tokens) :
    ∃ after, m.run call (Builtin.definition name tokens) = .done () after ∧ after.Primed := by
  have define := primed.knows (Builtin.plain "define" .define) (by simp [Builtin.preludeWords])
  have finish := primed.knows (Builtin.ofDirective ";" .finish) (by simp [Builtin.preludeWords])
  have different := new (Builtin.ofDirective ";" .finish) (by simp [Builtin.preludeWords])
  obtain ⟨after, ran, defined⟩ := run_define call primed.idle valid different define finish
    (fun token inside => primed.isSome_cellOf? (ordinary token inside)) other
  exact ⟨after, ran, primed.twin defined.twin new⟩

/-- At the address there is the factory for constants, with their behavior behind it. -/
structure MakesConstants (m : Machine) (address : Nat) : Prop where
  factory : m.Factory address (address + 4 : Nat)
  loads : ∃ entry name immediate, m.code[address + 4]? = some (.native entry) ∧
    m.dictionary.get? entry = some ⟨name, immediate, .native ⟨.primitive .load, 1, true⟩⟩
  leaves : m.code[address + 5]? = some .exit

/-- Code that has been laid is not changed. -/
theorem MakesConstants.kept {address : Nat} (makes : m.MakesConstants address)
    (kept : m.Kept after) : after.MakesConstants address := by
  obtain ⟨create, name, immediate, at_create, known_create⟩ := makes.factory.create
  obtain ⟨store, name', immediate', at_store, known_store⟩ := makes.factory.store
  obtain ⟨load, name'', immediate'', at_load, known_load⟩ := makes.loads
  obtain ⟨marked, known_create⟩ := kept.words create _ known_create
  obtain ⟨marked', known_store⟩ := kept.words store _ known_store
  obtain ⟨marked'', known_load⟩ := kept.words load _ known_load
  have last : address + 5 < m.code.size := (Array.getElem?_eq_some_iff.mp makes.leaves).1
  have stays : ∀ {a : Nat} {cell : Cell}, a ≤ address + 4 → m.code[a]? = some cell →
      after.code[a]? = some cell := fun low at_ => kept.cells _ _ at_ (.inl (by omega))
  refine ⟨⟨⟨create, name, marked, ?_, known_create⟩, ⟨store, name', marked', ?_, known_store⟩,
    ?_, ?_⟩, ⟨load, name'', marked'', ?_, known_load⟩, kept.cells _ _ makes.leaves (.inr rfl)⟩
  · exact stays (by omega) at_create
  · exact stays (by omega) at_store
  · exact stays (by omega) makes.factory.does
  · exact stays (by omega) makes.factory.exit
  · exact stays (by omega) at_load

/-- The definition of `constant`. -/
theorem Primed.constant (primed : m.Primed) (call : Caller) :
    ∃ after, m.run call Builtin.constantTokens = .done () after ∧
      after.dictionary.find? "constant" = some m.dictionary.size ∧
      after.dictionary.get? m.dictionary.size = some ⟨"constant", false, .colon m.code.size⟩ ∧
      after.MakesConstants m.code.size ∧ after.Primed := by
  have knows : ∀ w ∈ Builtin.preludeWords, m.Knows w.name w := primed.knows
  simp only [Builtin.preludeWords, List.forall_mem_cons] at knows
  obtain ⟨define, finish, -, ⟨create, found_create, known_create⟩,
    ⟨store, found_store, known_store⟩, does, ⟨load, found_load, known_load⟩, -⟩ := knows
  -- the making is laid, and then the behavior, which is a single cell
  let laid : Array Cell := m.withMaking create store
  let draft : Draft := ⟨"constant", m.code.size, false, by decide⟩
  have new : ∀ w ∈ Builtin.preludeWords, "constant" ≠ w.name := by decide
  have prepared : m.run call [.batch [.text "constant"], .word "define", .word "create",
      .word "store", .word "does"] = .done () (drafting { m with code := laid } draft laid) :=
    run_making call primed.idle (by decide) (by decide) define found_create known_create
      found_store known_store does
  have loaded : (drafting { m with code := laid } draft laid).interpret call (.word "load") =
      .done () (drafting { m with code := laid } draft (laid.push (.native load))) :=
    interpret_drafting call (m := { m with code := laid }) found_load known_load rfl
      (new (Builtin.passing "load" .load) (by simp [Builtin.preludeWords]))
  obtain ⟨after, finished, grown, -, -, twin⟩ := interpret_return call
    (m := { m with code := laid }) (laid.push (.native load)) draft
    (new (Builtin.ofDirective ";" .finish) (by simp [Builtin.preludeWords])) primed.idle finish
  have ran : m.run call Builtin.constantTokens = .done () after := by
    show m.run call ([.batch [.text "constant"], .word "define", .word "create", .word "store",
      .word "does"] ++ [.word "load", .word ";"]) = _
    rw [run_append, prepared, Outcome.bind_done, run, loaded, Outcome.bind_done, run, interpret,
      interpretToken]
    exact congrArg (fun o => Outcome.bind (Outcome.onFault abandonIfCompiling o) _) finished
  have twin : m.toStore.Twin ⟨"constant", false, .colon m.code.size⟩ after.toStore := twin
  have code : after.code.toList =
      m.code.toList ++ (making create store (m.code.size + 4) ++ [.native load, .exit]) := by
    rw [grown, Array.toList_push, Array.toList_push, toList_withMaking]
    simp
  have at_ : ∀ i, after.code[m.code.size + i]? =
      (making create store (m.code.size + 4) ++ [.native load, .exit])[i]? := by
    intro i
    rw [← Array.getElem?_toList, code, List.getElem?_append_right (by simp), Array.length_toList,
      Nat.add_sub_cancel_left]
  refine ⟨after, ran, ?_, ?_, ⟨⟨⟨create, _, _, at_ 0, twin.get? known_create⟩,
    ⟨store, _, _, at_ 1, twin.get? known_store⟩, at_ 2, at_ 3⟩,
    ⟨load, _, _, at_ 4, twin.get? known_load⟩, at_ 5⟩, primed.twin twin new⟩
  · rw [twin.dictionary]
    exact m.dictionary.find?_push_self ⟨"constant", false, .colon m.code.size⟩
  · rw [twin.dictionary, Dictionary.get?_push_size]

/-- The prelude is read without a fault, and leaves the factory for constants. -/
theorem loads_prelude (capacity : Int) (verbose : Bool) :
    ∃ after, (bare capacity verbose).execute Host.caller Builtin.prelude = .done () after ∧
      ∃ entry address, after.dictionary.find? "constant" = some entry ∧
        after.dictionary.get? entry = some ⟨"constant", false, .colon address⟩ ∧
        after.MakesConstants address ∧ after.Primed := by
  obtain ⟨first, ran_dup, primed⟩ := (primed_bare capacity verbose).define Host.caller "dup"
    [.datum (.int 0), .word "pick"] (by decide) (by decide) (by decide) (by simp)
  obtain ⟨second, ran_over, primed⟩ := primed.define Host.caller "over"
    [.datum (.int 1), .word "pick"] (by decide) (by decide) (by decide) (by simp)
  obtain ⟨third, ran_variable, primed⟩ := primed.define Host.caller "variable"
    [.word "create", .word "store"] (by decide) (by decide) (by decide) (by simp)
  obtain ⟨after, ran_constant, found, known, makes, primed⟩ := primed.constant Host.caller
  refine ⟨after, ?_, _, _, found, known, makes, primed⟩
  rw [execute, Builtin.tokenize_prelude]
  simp only [Builtin.preludeTokens, run_append, ran_dup, ran_over, ran_variable, ran_constant,
    Outcome.bind_done]

/-- A machine that is ready for use has the factory for constants. -/
theorem makesConstants_fresh (capacity : Int) (verbose : Bool) :
    ∃ entry address, (fresh capacity true verbose).dictionary.find? "constant" = some entry ∧
      (fresh capacity true verbose).dictionary.get? entry =
        some ⟨"constant", false, .colon address⟩ ∧
      (fresh capacity true verbose).MakesConstants address ∧
      (fresh capacity true verbose).Primed := by
  obtain ⟨after, ran, entry, address, found, known, makes, primed⟩ :=
    loads_prelude capacity verbose
  -- the last thing that is done is a note
  have noted : ∃ notes, fresh capacity true verbose = { after with journal := notes } := by
    obtain ⟨notes, noted⟩ := Store.note_eq .debug .repl _ after.toStore
    refine ⟨notes, ?_⟩
    rw [fresh, if_pos rfl, ran]
    exact congrArg (fun s => { after with toStore := s }) noted
  obtain ⟨notes, same⟩ := noted
  rw [same]
  exact ⟨entry, address, found, known,
    makes.kept ((Kept.refl after).move (.books ⟨rfl, rfl, rfl, rfl, rfl, rfl, rfl⟩)),
    ⟨primed.idle, primed.slots, primed.nothing, primed.knows⟩⟩

end Machine

namespace Session

open Machine

/-- Whatever has happened in a session, the factory for constants is still there, and the
entry that `constant` meant at first is still it. -/
theorem makesConstants_play (before : List Operation) (capacity : Int) (verbose : Bool) :
    ∃ entry address immediate,
      (fresh capacity true verbose).dictionary.find? "constant" = some entry ∧
      (play before (fresh capacity true verbose)).dictionary.get? entry =
        some ⟨"constant", immediate, .colon address⟩ ∧
      (play before (fresh capacity true verbose)).MakesConstants address := by
  obtain ⟨entry, address, found, known, makes, primed⟩ := makesConstants_fresh capacity verbose
  have tidy := tidy_fresh capacity true verbose
  have spares := spares_of_nothing_created before tidy primed.slots primed.nothing
  have kept := (moves_play spares.supervised tidy).kept
  obtain ⟨marked, known⟩ := kept.words entry _ known
  exact ⟨entry, address, marked, found, known, makes.kept kept⟩

end Session
end ThreadedForth
