import ThreadedForth.Proofs.Accounts
import ThreadedForth.Proofs.Beginnings
import ThreadedForth.Proofs.Registry

/-!
# Created words and their slots

A created word owns a slot, and it may have a behavior.  Both can be reached from far away.  The
slot can be stored into by whoever has its cell.  The behavior is given by a `does` cell, which
names no word: it is given to the word that has been created last, whichever that is.

* `Machine.Owned`: the slots of the created words are all the slots there are, one for each, and
  the word that is remembered as created last has been created last;
* `Machine.Spares`: a change leaves all created words alone but the last one;
* `Session.tracks_owning`: so does everything that goes on in a session.  Once a newer word is
  created, the behavior of a word stays what it is;
* `Moment.stores?`: the stores of a chronicle;
* `Session.tracks_contents`: a slot holds what has been stored into it last.
-/

namespace ThreadedForth

/-! ## Created words in the dictionary -/

/-- The slot of a created word. -/
def Word.slot? (w : Word) : Option Nat :=
  match w.body with
  | .created slot _ => some slot
  | _ => none

namespace Dictionary

variable {d : Dictionary}

/-- What is behind the name of the entry with the given number. -/
def body? (d : Dictionary) (entry : Nat) : Option Body := (d.get? entry).map Word.body

/-- The slots of the created words, in the order of creation. -/
def slots (d : Dictionary) : List Nat := d.entries.toList.filterMap Word.slot?

theorem slots_push (w : Word) : (d.push w).slots = d.slots ++ w.slot?.toList := by
  unfold slots push
  rw [Array.toList_push, List.filterMap_append]
  cases owns : w.slot? <;> simp [owns]

theorem slots_markImmediate (entry : Nat) : (d.markImmediate entry).slots = d.slots :=
  filterMap_modify Word.slot? entry fun _ => rfl

theorem slots_setBehavior (entry : Nat) (behavior : Value) :
    (d.setBehavior entry behavior).slots = d.slots := by
  refine filterMap_modify Word.slot? entry fun w => ?_
  obtain ⟨name, immediate, body⟩ := w
  cases body <;> rfl

theorem get?_of_body? {entry : Nat} {body : Body} (behind : d.body? entry = some body) :
    ∃ name immediate, d.get? entry = some ⟨name, immediate, body⟩ := by
  obtain ⟨⟨name, immediate, _⟩, known, rfl⟩ := Option.map_eq_some_iff.mp behind
  exact ⟨name, immediate, known⟩

theorem lt_size_of_body? {entry : Nat} {body : Body} (behind : d.body? entry = some body) :
    entry < d.size := by
  obtain ⟨name, immediate, known⟩ := get?_of_body? behind
  exact get?_eq_some_iff_lt.mp ⟨_, known⟩

theorem body?_push_of_lt {entry : Nat} (w : Word) (low : entry < d.size) :
    (d.push w).body? entry = d.body? entry := by
  unfold body?
  rw [get?_push_of_lt w low]

theorem body?_push {w : Word} {entry : Nat} {body : Body}
    (behind : (d.push w).body? entry = some body) :
    d.body? entry = some body ∨ entry = d.size ∧ body = w.body := by
  obtain ⟨v, known, rfl⟩ := Option.map_eq_some_iff.mp behind
  rcases get?_push known with old | ⟨new, rfl⟩
  · exact .inl (by rw [body?, old, Option.map_some])
  · exact .inr ⟨new, rfl⟩

theorem body?_markImmediate (target entry : Nat) :
    (d.markImmediate target).body? entry = d.body? entry := by
  unfold body?
  rw [get?_markImmediate]
  split
  · rw [Option.map_map]
    rfl
  · rfl

theorem body?_setBehavior_of_ne {target entry : Nat} (behavior : Value) (other : target ≠ entry) :
    (d.setBehavior target behavior).body? entry = d.body? entry := by
  unfold body?
  rw [get?_setBehavior, if_neg other]

/-- The words after a behavior was given: only a created word has changed. -/
theorem body?_setBehavior {target entry : Nat} {given : Value} {body : Body}
    (behind : (d.setBehavior target given).body? entry = some body) :
    d.body? entry = some body ∨
      ∃ slot old, d.body? entry = some (.created slot old) ∧ body = .created slot given := by
  by_cases same : target = entry
  · unfold body? at behind ⊢
    rw [get?_setBehavior, if_pos same, Option.map_map] at behind
    obtain ⟨⟨name, immediate, before⟩, known, rfl⟩ := Option.map_eq_some_iff.mp behind
    rw [known, Option.map_some]
    cases before with
    | created slot old => exact .inr ⟨slot, old, rfl, rfl⟩
    | native n => exact .inl rfl
    | colon address => exact .inl rfl
  · rw [body?_setBehavior_of_ne given same] at behind
    exact .inl behind

/-- A created word is listed with its slot. -/
theorem slot?_of_body? {entry slot : Nat} {behavior : Value}
    (owns : d.body? entry = some (.created slot behavior)) :
    ∃ low : entry < d.entries.toList.length, Word.slot? d.entries.toList[entry] = some slot := by
  obtain ⟨name, immediate, known⟩ := get?_of_body? owns
  obtain ⟨low, at_⟩ := Array.getElem?_eq_some_iff.mp known
  refine ⟨by rwa [Array.length_toList], ?_⟩
  rw [Array.getElem_toList, at_]
  rfl

theorem mem_slots {entry slot : Nat} {behavior : Value}
    (owns : d.body? entry = some (.created slot behavior)) : slot ∈ d.slots := by
  obtain ⟨low, slotted⟩ := slot?_of_body? owns
  exact List.mem_filterMap.mpr ⟨_, List.getElem_mem low, slotted⟩

/-- If no slot has two owners, a slot tells its word. -/
theorem eq_of_slot (distinct : d.slots.Nodup) {entry other slot : Nat} {behavior behavior' : Value}
    (owns : d.body? entry = some (.created slot behavior))
    (owns' : d.body? other = some (.created slot behavior')) : entry = other := by
  have apart := List.pairwise_iff_getElem.mp (List.pairwise_filterMap.mp distinct)
  obtain ⟨low, first⟩ := slot?_of_body? owns
  obtain ⟨low', second⟩ := slot?_of_body? owns'
  rcases Nat.lt_trichotomy entry other with before | same | behind
  · exact absurd rfl (apart entry other low low' before slot first slot second)
  · exact same
  · exact absurd rfl (apart other entry low' low behind slot second slot first)

end Dictionary

/-! ## Changes that spare created words -/

namespace Machine

/-- Every slot belongs to one created word, and the word that is remembered as created last has
been created last. -/
structure Owned (m : Machine) : Prop where
  slots : m.dictionary.slots = List.range m.slots.size
  last : ∀ entry slot behavior, m.dictionary.body? entry = some (.created slot behavior) →
    ∃ newest, m.lastCreated = some newest ∧ entry ≤ newest

/-- No created word is changed that is older than another one. -/
structure Spares (m after : Machine) : Prop where
  owned : m.Owned → after.Owned
  grown : m.dictionary.Extends after.dictionary
  older : m.Owned → ∀ entry newer slot behavior, entry < newer →
    m.dictionary.body? newer = some (.created slot behavior) →
    after.dictionary.body? entry = m.dictionary.body? entry

variable {m after : Machine}

/-- In an orderly machine no two created words have the same slot. -/
theorem Owned.eq_of_slot (owned : m.Owned) {entry other slot : Nat} {behavior behavior' : Value}
    (owns : m.dictionary.body? entry = some (.created slot behavior))
    (owns' : m.dictionary.body? other = some (.created slot behavior')) : entry = other := by
  refine Dictionary.eq_of_slot ?_ owns owns'
  rw [owned.slots]
  exact List.nodup_range

/-- The slot of a created word is a slot that there is. -/
theorem Owned.lt_of_slot (owned : m.Owned) {entry slot : Nat} {behavior : Value}
    (owns : m.dictionary.body? entry = some (.created slot behavior)) : slot < m.slots.size := by
  have listed := Dictionary.mem_slots owns
  rwa [owned.slots, List.mem_range] at listed

theorem Spares.refl (m : Machine) : m.Spares m := ⟨id, .refl _, fun _ _ _ _ _ _ _ => rfl⟩

theorem Spares.created (spares : m.Spares after) {entry slot : Nat} {behavior : Value}
    (behind : m.dictionary.body? entry = some (.created slot behavior)) :
    ∃ new, after.dictionary.body? entry = some (.created slot new) := by
  obtain ⟨name, immediate, known⟩ := Dictionary.get?_of_body? behind
  obtain ⟨w, known', becomes⟩ := spares.grown entry _ known
  obtain ⟨new, body⟩ := becomes.created rfl
  exact ⟨new, by rw [Dictionary.body?, known', Option.map_some, body]⟩

theorem Spares.trans {ended : Machine} (first : m.Spares after) (second : after.Spares ended) :
    m.Spares ended where
  owned := second.owned ∘ first.owned
  grown := first.grown.trans second.grown
  older := by
    intro owned entry newer slot behavior before behind
    obtain ⟨new, behind'⟩ := first.created behind
    rw [second.older (first.owned owned) entry newer slot new before behind']
    exact first.older owned entry newer slot behavior before behind

theorem spares_of_eq (dictionary : after.dictionary = m.dictionary)
    (size : after.slots.size = m.slots.size) (last : after.lastCreated = m.lastCreated) :
    m.Spares after where
  owned owned := by
    refine ⟨?_, ?_⟩
    · rw [dictionary, size]
      exact owned.slots
    · rw [dictionary, last]
      exact owned.last
  grown := dictionary ▸ .refl _
  older _ _ _ _ _ _ _ := by rw [dictionary]

theorem spares_sameBooks {s : Store} (books : m.toStore.SameBooks s) :
    m.Spares { m with toStore := s } :=
  spares_of_eq books.dictionary books.size books.lastCreated

/-- A word is registered that is not created. -/
theorem spares_push {w : Word} (other : w.slot? = none)
    (dictionary : after.dictionary = m.dictionary.push w)
    (size : after.slots.size = m.slots.size) (last : after.lastCreated = m.lastCreated) :
    m.Spares after where
  owned owned := by
    refine ⟨?_, fun entry slot behavior behind => ?_⟩
    · rw [dictionary, Dictionary.slots_push, other, size]
      exact (List.append_nil _).trans owned.slots
    · rw [dictionary] at behind
      rcases Dictionary.body?_push behind with old | ⟨-, new⟩
      · rw [last]
        exact owned.last entry slot behavior old
      · unfold Word.slot? at other
        rw [← new] at other
        cases other
  grown := dictionary ▸ Dictionary.extends_push w
  older _ entry newer _ _ before behind := by
    rw [dictionary]
    exact Dictionary.body?_push_of_lt w (Nat.lt_trans before (Dictionary.lt_size_of_body? behind))

/-- A word is created. -/
theorem spares_addCreated (name : String) (m : Machine) :
    m.Spares { m with toStore := m.toStore.addCreated name } where
  owned owned := by
    refine ⟨?_, fun entry slot behavior behind => ?_⟩
    · show (m.dictionary.push _).slots = List.range (m.slots.push Value.none).size
      rw [Dictionary.slots_push, owned.slots, Array.size_push, List.range_succ]
      rfl
    · have low : entry < (m.dictionary.push _).size := Dictionary.lt_size_of_body? behind
      rw [Dictionary.size_push] at low
      exact ⟨m.dictionary.size, rfl, Nat.le_of_lt_succ low⟩
  grown := Dictionary.extends_push _
  older _ entry newer _ _ before behind :=
    Dictionary.body?_push_of_lt _ (Nat.lt_trans before (Dictionary.lt_size_of_body? behind))

theorem spares_markImmediate (entry : Nat) (m : Machine) :
    m.Spares { m with dictionary := m.dictionary.markImmediate entry } where
  owned owned := by
    refine ⟨(Dictionary.slots_markImmediate entry).trans owned.slots, ?_⟩
    intro other slot behavior behind
    exact owned.last other slot behavior (Dictionary.body?_markImmediate entry other ▸ behind)
  grown := Dictionary.extends_markImmediate entry
  older _ other _ _ _ _ _ := Dictionary.body?_markImmediate entry other

/-- A behavior goes to the word created last, and no created word is newer. -/
theorem spares_setBehavior {entry : Nat} (behavior : Value) (last : m.lastCreated = some entry) :
    m.Spares { m with dictionary := m.dictionary.setBehavior entry behavior } where
  owned owned := by
    refine ⟨(Dictionary.slots_setBehavior entry behavior).trans owned.slots, ?_⟩
    intro other slot new behind
    rcases Dictionary.body?_setBehavior behind with before | ⟨slot', old, before, -⟩
    · exact owned.last other slot new before
    · exact owned.last other slot' old before
  grown := Dictionary.extends_setBehavior entry behavior
  older owned other newer slot old before behind := by
    obtain ⟨newest, same, above⟩ := owned.last newer slot old behind
    rw [last] at same
    cases same
    exact Dictionary.body?_setBehavior_of_ne behavior (by omega)

/-! ### What words do -/

theorem Edit.spares (changed : Edit m after) : m.Spares after := by
  cases changed with
  | data same => exact spares_sameBooks same
  | create valid => exact m.spares_addCreated _
  | markEntry last => exact m.spares_markImmediate _
  | finish compiling open_ => exact spares_push rfl rfl rfl rfl
  | _ => exact spares_of_eq rfl rfl rfl

theorem Edits.spares (changed : Edits m after) : m.Spares after := by
  induction changed with
  | refl => exact .refl m
  | tail _ last ih => exact ih.trans last.spares

theorem spares_bindBehavior (behavior : Value) (m : Machine) :
    m.Spares (m.bindBehavior behavior).machine := by
  rcases bindBehavior_cases behavior m with ⟨-, ends⟩ | ⟨entry, s, last, books, ends⟩
  · rw [ends]
    exact .refl m
  · rw [ends]
    exact (spares_setBehavior behavior last).trans (spares_sameBooks books)

theorem Leaves.spares (left : m.Leaves after) : m.Spares after := by
  have moved : ∀ resume, m.Spares (m.moved resume) := fun resume => spares_of_eq rfl rfl rfl
  cases left with
  | place returns ip => exact spares_of_eq rfl rfl rfl
  | pushed at_ pushes returns ip => exact spares_of_eq rfl rfl rfl
  | primitive at_ known kind resume => exact (moved resume).trans (edits_callPrimitive ..).spares
  | behavior at_ gives resume => exact (moved resume).trans (spares_bindBehavior _ _)

theorem Aside.spares {scope : Session.Scope} (changed : m.Aside scope after) : m.Spares after := by
  cases changed with
  | note level channel text other => exact (m.edits_note level channel text).spares
  | abandon => exact m.edits_abandon.spares
  | register valid own allowed => exact spares_push rfl rfl rfl rfl
  | _ => exact spares_of_eq rfl rfl rfl

end Machine

namespace Session

open Machine

/-- The created words are in order, and all created words that there have been are spared. -/
def Owning (past : List Moment) (m : Machine) : Prop :=
  m.Owned ∧ ∀ x ∈ past, x.machine.Owned ∧ x.machine.Spares m

theorem Owning.after {past : List Moment} {m after : Machine} (owning : Owning past m)
    (spares : m.Spares after) : Owning past after :=
  ⟨spares.owned owning.1, fun x before =>
    ⟨(owning.2 x before).1, (owning.2 x before).2.trans spares⟩⟩

theorem Owning.concat {past : List Moment} {x : Moment} (owning : Owning past x.machine) :
    Owning (past ++ [x]) x.machine := by
  refine ⟨owning.1, fun y inside => ?_⟩
  rcases List.mem_append.mp inside with before | now
  · exact owning.2 y before
  · rw [List.mem_singleton.mp now]
    exact ⟨owning.1, .refl _⟩

theorem tracks_owning : Tracks Owning everything where
  begins _ _ owning := owning.concat
  native {_ depth name n m} own owning :=
    Owning.after (Owning.concat (x := ⟨depth, .native name n, m⟩) owning)
      (edits_callNative _ own).spares
  turn {_ m} depth base credit owning :=
    Owning.after (Owning.concat (x := ⟨depth, .turns base credit, m⟩) owning)
      (m.leaves_turn base).spares
  aside changed owning := owning.after changed.spares
  enter _ _ owning := owning.after (spares_of_eq rfl rfl rfl)
  leave _ owning := owning.after (spares_of_eq rfl rfl rfl)
  switch _ owning := owning.after (spares_of_eq rfl rfl rfl)
  insert _ owning := owning.after (spares_of_eq rfl rfl rfl)

theorem owning_bare (capacity : Int) (verbose : Bool) :
    Owning [] (Machine.bare capacity verbose) := by
  have builtin : ∀ w ∈ Builtin.words, w.slot? = none := by decide
  refine ⟨⟨?_, fun entry slot behavior behind => ?_⟩,
    fun x before => absurd before List.not_mem_nil⟩
  · exact List.filterMap_eq_nil_iff.mpr builtin
  · obtain ⟨name, immediate, known⟩ := Dictionary.get?_of_body? behind
    have listed := builtin _ (List.mem_toArray.mp (Array.mem_of_getElem? known))
    cases listed

end Session

/-! ## What words do to the slots -/

namespace Store

variable {s t : Store}

theorem slots_note (level : Level) (channel : Channel) (text : String) (s : Store) :
    (s.note level channel text).slots = s.slots := by
  obtain ⟨notes, noted⟩ := s.note_eq level channel text
  rw [noted]

theorem slots_install (w : Word) (s : Store) : (s.install w).slots = s.slots := by
  obtain ⟨notes, installed⟩ := s.install_eq w
  rw [installed]
  rfl

theorem Shuffles.slots (shuffled : s.Shuffles t) : t.slots = s.slots := by
  obtain ⟨stack, nextMark, rfl⟩ := shuffled
  rfl

theorem slots_of_compute {value : Nat → Except Fault Value} {v : Value}
    (h : s.compute value = .ok (v, t)) : t.slots = s.slots := by
  obtain ⟨_, _, made⟩ := exists_of_bind_ok h
  cases made
  rfl

theorem slots_of_emit {v : Value} (h : s.emit v = .ok t) : t.slots = s.slots := by
  obtain ⟨_, _, written⟩ := exists_of_bind_ok h
  cases written
  rfl

/-- Only `store` changes what a slot holds, and only `create` adds one. -/
theorem slots_apply {here : Nat} {p : Primitive} {arguments : List Value} {v : Value}
    (other : p ≠ .store) (h : p.apply here arguments s = .ok (v, t)) :
    t.slots = s.slots ∨ t.slots = s.slots.push .none := by
  unfold Primitive.apply at h
  split at h
  case h_11 => exact absurd rfl other
  case h_12 =>
    obtain ⟨name, checked, -⟩ := exists_of_bind_ok h
    obtain ⟨rfl, valid⟩ := checkName_eq_ok checked
    obtain ⟨notes, created⟩ := s.create_eq valid
    cases h.symm.trans created
    exact .inr rfl
  case h_28 => cases h
  -- what is left leaves the slots alone
  all_goals left
  case h_5 => exact (shuffles_of_pluck h).slots
  case h_7 | h_8 | h_19 | h_21 | h_24 | h_27 =>
    cases h
    rfl
  case h_13 | h_14 | h_15 | h_16 | h_17 | h_18 => exact slots_of_compute h
  all_goals
    obtain ⟨_, done, made⟩ := exists_of_bind_ok h
    cases made
  case h_1 => exact (shuffles_of_swap done).slots
  case h_2 => exact (shuffles_of_drop done).slots
  case h_3 => exact (shuffles_of_gather done).slots
  case h_4 => exact (shuffles_of_spread done).slots
  case h_9 =>
    obtain ⟨name, -, -, rfl⟩ := define_eq_ok done
    rfl
  case h_25 => exact slots_of_emit done
  case h_6 | h_10 | h_20 | h_22 | h_23 | h_26 => rfl

end Store

namespace Machine

variable {m after : Machine}

theorem slots_finish (finished : m.finish = .ok after) : after.slots = m.slots := by
  obtain ⟨_, required, closed⟩ := exists_of_bind_ok finished
  split at closed
  · cases closed
    exact (Store.slots_note ..).trans (Store.slots_install ..)
  · cases closed
    rfl

theorem slots_writeLiterals (values : List Value) (joined : Option (List Value)) (m : Machine) :
    (m.writeLiterals values joined).slots = m.slots := by
  cases joined <;> rfl

theorem slots_directive {d : Directive} {arguments : List Value}
    (applied : d.apply arguments m = .ok after) : after.slots = m.slots := by
  unfold Directive.apply at applied
  split at applied
  · exact slots_finish applied
  · unfold markImmediate at applied
    split at applied <;> cases applied <;> rfl
  · obtain ⟨_, _, made⟩ := exists_of_bind_ok applied
    cases made
    rfl
  · obtain ⟨_, _, compiled⟩ := exists_of_bind_ok applied
    obtain ⟨joined, _, made⟩ := exists_of_bind_ok compiled
    cases made
    exact slots_writeLiterals ..
  · obtain ⟨_, _, made⟩ := exists_of_bind_ok applied
    cases made
    rfl
  · cases applied

theorem slots_bindBehavior (behavior : Value) (m : Machine) :
    (m.bindBehavior behavior).machine.slots = m.slots := by
  unfold bindBehavior
  split
  · rfl
  · next entry last =>
    simp only [Outcome.machine_done]
    rcases noteBehavior_cases ((m.dictionary.get? entry).elim "" Word.name) behavior
      { m with dictionary := m.dictionary.setBehavior entry behavior } with ⟨text, noted⟩ | noted
    · rw [noted]
      exact Store.slots_note ..
    · rw [noted]

theorem Aside.slots {scope : Session.Scope} (changed : m.Aside scope after) :
    after.slots = m.slots := by
  cases changed with
  | note level channel text other => exact Store.slots_note ..
  | abandon =>
    obtain ⟨notes, abandoned⟩ := m.toStore.abandon_eq
    show m.toStore.abandon.slots = m.slots
    rw [abandoned]
  | _ => rfl

end Machine

/-- The slot and the value, if a native action stores a value when it is applied to these
arguments. -/
def Action.stored? (action : Action) (arguments : List Value) : Option (Nat × Value) :=
  match action, arguments with
  | .primitive .store, [v, .cell slot] => some (slot, v)
  | _, _ => none

namespace Machine

/-- The slot and the value, if a call of the native word stores a value. -/
def storing? (m : Machine) (n : Native) : Option (Nat × Value) :=
  if n.arity ≤ m.stack.depth then n.action.stored? (m.toStore.take n.arity).1 else none

/-- The native word that is at the place of execution. -/
def native? (m : Machine) : Option Native :=
  match m.current? with
  | some (.native entry) =>
    match m.dictionary.get? entry with
    | some ⟨_, _, .native n⟩ => some n
    | _ => none
  | _ => none

end Machine

namespace Moment

/-- The slot and the value, if a value is stored at this moment. -/
def stores? (x : Moment) : Option (Nat × Value) :=
  match x.activity with
  | .native _ n => x.machine.storing? n
  | .turns _ _ => x.machine.native?.bind x.machine.storing?
  | _ => none

/-- The machine after the native word or the turn of this moment. -/
def next (x : Moment) : Machine :=
  match x.activity with
  | .native name n => (x.machine.callNative (Host.callHost x.depth) name n).machine
  | .turns base _ => (x.machine.turn base).machine
  | _ => x.machine

end Moment

/-- The slots after a value has been stored, or none. -/
def written (stored : Option (Nat × Value)) (slots : Array Value) : Array Value :=
  match stored with
  | some (slot, v) => slots.setIfInBounds slot v
  | none => slots

theorem size_written (stored : Option (Nat × Value)) (slots : Array Value) :
    (written stored slots).size = slots.size := by
  unfold written
  split
  · exact Array.size_setIfInBounds
  · rfl

/-- Between the two machines the value is stored, or none is and perhaps there is a new slot. -/
def Machine.Writes (m : Machine) (stored : Option (Nat × Value)) (after : Machine) : Prop :=
  after.slots = written stored m.slots ∨ stored = none ∧ after.slots = m.slots.push .none

namespace Action

open Machine

variable {m : Machine}

theorem writes_store (arguments : List Value) :
    m.Writes (stored? (.primitive .store) arguments)
      (Primitive.store.perform arguments m).machine := by
  refine .inl ?_
  rw [Primitive.perform_eq]
  unfold Outcome.ofStore Primitive.apply stored?
  split
  · next v s ends =>
    split at ends <;> try contradiction
    obtain ⟨_, stored, made⟩ := exists_of_bind_ok ends
    unfold Store.store at stored
    cases made
    split at stored
    · cases stored
      rfl
    · cases stored
  · next f ends =>
    split
    · cases ends
    · rfl

/-- A native action that is no host callable writes what it stores. -/
theorem writes_perform (action : Action) (call : Caller) (own : ∀ f, action ≠ .host f)
    (arguments : List Value) :
    m.Writes (action.stored? arguments) (action.perform call arguments m).machine := by
  cases action with
  | primitive p =>
    by_cases stores : p = .store
    · rw [stores]
      exact writes_store arguments
    · have none_ : stored? (.primitive p) arguments = none := by
        unfold stored?
        split
        · next same =>
          injection same with same
          exact absurd same stores
        · rfl
      rw [none_]
      unfold perform
      simp only [Primitive.perform_eq]
      unfold Outcome.ofStore
      split
      · next ends => exact (Store.slots_apply stores ends).imp_right fun new => ⟨rfl, new⟩
      · exact .inl rfl
  | directive d =>
    unfold perform
    simp only [Directive.perform_eq]
    split
    · next ends => exact .inl (slots_directive ends)
    · exact .inl rfl
  | host f => exact absurd rfl (own f)

end Action

namespace Machine

variable {m after : Machine} {name : String} {n : Native}

/-- What a call does to the slots is what the action does to them. -/
theorem writes_callWith {perform : List Value → Machine → Outcome Value}
    (performs : ∀ arguments (start : Machine), start.Writes (n.action.stored? arguments)
      (perform arguments start).machine) :
    m.Writes (m.storing? n) (m.callWith name n perform).machine := by
  have pushed : ∀ values (after : Machine), m.Writes (m.storing? n) after →
      m.Writes (m.storing? n) (after.pushAll values) := fun _ _ writes => writes
  refine Outcome.endsIn_iff.mp
    (endsIn_callWith pushed pushed (fun missing => ?_) fun enough => ?_)
  · rw [storing?, if_neg (Nat.not_le.mpr missing)]
    exact .inl rfl
  · rw [storing?, if_pos enough]
    exact Outcome.endsIn_iff.mpr (performs _ _)

/-- A native word that is no host callable writes what it stores. -/
theorem writes_callNative (call : Caller) (own : ∀ f, n.action ≠ .host f) :
    m.Writes (m.storing? n) (m.callNative call name n).machine :=
  writes_callWith fun arguments _ => n.action.writes_perform call own arguments

/-- A turn writes what the native word at its cell stores. -/
theorem writes_turn (base : Nat) (m : Machine) :
    m.Writes (m.native?.bind m.storing?) (m.turn base).machine := by
  by_cases primitive : ∃ entry name immediate n p, m.current? = some (.native entry) ∧
      m.dictionary.get? entry = some ⟨name, immediate, .native n⟩ ∧ n.action = .primitive p
  · obtain ⟨entry, name, immediate, n, p, current, known, kind⟩ := primitive
    obtain ⟨resume, turned⟩ := turn_of_primitive base current known kind
    have at_ : m.native? = some n := by simp only [native?, current, known]
    rw [turned, Turn.machine_ofOutcome, at_, Option.bind_some]
    refine writes_callWith (m := m.moved resume) fun arguments _ => ?_
    rw [kind]
    exact Action.writes_perform (.primitive p) Host.caller nofun arguments
  · have none_ : m.native?.bind m.storing? = none := by
      rw [Option.bind_eq_none_iff]
      intro n at_
      unfold native? at at_
      split at at_ <;> try contradiction
      next entry current =>
      split at at_ <;> try contradiction
      next name immediate n' known =>
      cases at_
      have other : ∀ p, n.action ≠ .primitive p := fun p kind =>
        primitive ⟨entry, name, immediate, n, p, current, known, kind⟩
      unfold storing? Action.stored?
      split
      · split
        · next same _ => exact absurd same (other _)
        · rfl
      · rfl
    rw [none_]
    have left := m.leaves_turn base
    generalize (m.turn base).machine = after at left
    cases left with
    | place returns ip => exact .inl rfl
    | pushed at_ pushes returns ip => exact .inl rfl
    | behavior at_ gives resume => exact .inl (slots_bindBehavior ..)
    | primitive at_ known kind resume =>
      exact absurd ⟨_, _, _, _, _, at_, known, kind⟩ primitive

end Machine

/-! ## What the slots hold -/

/-- What has been stored into the slot last, or nothing. -/
def lastStored (past : List Moment) (slot : Nat) : Value :=
  ((past.filterMap Moment.stores?).reverse.lookup slot).getD .none

section

variable {past : List Moment} {x : Moment} {slot : Nat}

theorem lastStored_concat_of_none (silent : x.stores? = none) :
    lastStored (past ++ [x]) slot = lastStored past slot := by
  simp [lastStored, List.filterMap_append, silent]

theorem lastStored_concat_of_some {into : Nat} {v : Value} (stores : x.stores? = some (into, v)) :
    lastStored (past ++ [x]) slot = if slot = into then v else lastStored past slot := by
  unfold lastStored
  rw [List.filterMap_append, List.filterMap_cons_some stores, List.filterMap_nil,
    List.reverse_append, List.reverse_singleton, List.singleton_append, List.lookup_cons]
  by_cases same : slot = into
  · rw [if_pos same, beq_iff_eq.mpr same, Option.getD_some]
  · rw [if_neg same, beq_eq_false_iff_ne.mpr same]

/-- A slot that nothing has been stored into. -/
theorem lastStored_eq_none (never : ∀ x ∈ past, ∀ v, x.stores? ≠ some (slot, v)) :
    lastStored past slot = .none := by
  have missing : (past.filterMap Moment.stores?).reverse.lookup slot = none := by
    rw [List.lookup_eq_none_iff]
    rintro ⟨into, v⟩ inside
    obtain ⟨x, before, stores⟩ := List.mem_filterMap.mp (List.mem_reverse.mp inside)
    rw [bne_iff_ne]
    rintro rfl
    exact never x before v stores
  rw [lastStored, missing]
  rfl

theorem stores?_of_delegates (delegates : x.activity.Delegates) : x.stores? = none := by
  unfold Moment.stores?
  split
  · next name n kind =>
    rw [kind] at delegates
    obtain ⟨f, host⟩ := delegates
    simp [Machine.storing?, Action.stored?, host]
  · next base credit kind =>
    rw [kind] at delegates
    exact delegates.elim
  · rfl

end

namespace Session

open Machine

/-- No slot is taken away, and if values have been stored into slots that were there, then each
slot holds the last of them. -/
structure Contents (past : List Moment) (m : Machine) : Prop where
  grown : ∀ x ∈ past, x.machine.slots.size ≤ m.slots.size
  held : (∀ x ∈ past, ∀ slot v, x.stores? = some (slot, v) → slot < x.machine.slots.size) →
    ∀ slot < m.slots.size, m.slots[slot]? = some (lastStored past slot)

theorem Contents.congr {past : List Moment} {m after : Machine} (contents : Contents past m)
    (same : after.slots = m.slots) : Contents past after := by
  refine ⟨?_, ?_⟩
  · rw [same]
    exact contents.grown
  · rw [same]
    exact contents.held

/-- What each slot holds after a value has been stored, or none. -/
theorem held_written {past : List Moment} {x : Moment} {slots : Array Value} {slot : Nat}
    (within : ∀ into v, x.stores? = some (into, v) → into < slots.size)
    (held : slots[slot]? = some (lastStored past slot)) :
    (written x.stores? slots)[slot]? = some (lastStored (past ++ [x]) slot) := by
  cases stores : x.stores? with
  | none =>
    rw [lastStored_concat_of_none stores]
    exact held
  | some stored =>
    obtain ⟨into, v⟩ := stored
    rw [lastStored_concat_of_some stores]
    unfold written
    simp only
    by_cases same : slot = into
    · subst same
      rw [if_pos rfl, Array.getElem?_setIfInBounds_self_of_lt (within slot v stores)]
    · rw [if_neg same, Array.getElem?_setIfInBounds_ne (Ne.symm same)]
      exact held

/-- A moment goes by that writes what it stores. -/
theorem Contents.step {past : List Moment} {x : Moment} {after : Machine}
    (contents : Contents past x.machine) (writes : x.machine.Writes x.stores? after) :
    Contents (past ++ [x]) after := by
  have size : x.machine.slots.size ≤ after.slots.size := by
    rcases writes with ends | ⟨-, ends⟩
    · rw [ends]
      exact Nat.le_of_eq (size_written ..).symm
    · rw [ends, Array.size_push]
      exact Nat.le_succ _
  refine ⟨fun y inside => ?_, fun within slot low => ?_⟩
  · rcases List.mem_append.mp inside with before | now
    · exact Nat.le_trans (contents.grown y before) size
    · rw [List.mem_singleton.mp now]
      exact size
  · rw [List.forall_mem_append, List.forall_mem_singleton] at within
    have held := contents.held within.1
    rcases writes with ends | ⟨silent, ends⟩
    · rw [ends, size_written] at low
      rw [ends]
      exact held_written within.2 (held slot low)
    · rw [ends, Array.size_push] at low
      rw [ends, lastStored_concat_of_none silent, Array.getElem?_push]
      split
      · next new =>
        -- nothing can have been stored into the new slot
        rw [lastStored_eq_none fun y before v stores => ?_]
        have there := within.1 y before slot v stores
        have room := contents.grown y before
        omega
      · next old => exact held slot (by omega)

theorem tracks_contents : Tracks Contents everything where
  begins {past x} delegates _ contents := by
    refine contents.step (.inl ?_)
    rw [stores?_of_delegates delegates]
    rfl
  native {_ depth name n m} own contents :=
    Contents.step (x := ⟨depth, .native name n, m⟩) contents (writes_callNative _ own)
  turn {_ m} depth base credit contents :=
    Contents.step (x := ⟨depth, .turns base credit, m⟩) contents (writes_turn base m)
  aside changed contents := contents.congr changed.slots
  enter _ _ contents := contents.congr rfl
  leave _ contents := contents.congr rfl
  switch _ contents := contents.congr rfl
  insert _ contents := contents.congr rfl

theorem contents_bare (capacity : Int) (verbose : Bool) :
    Contents [] (Machine.bare capacity verbose) :=
  ⟨fun _ before => absurd before List.not_mem_nil, fun _ _ low => absurd low (Nat.not_lt_zero _)⟩

/-- The cell of a slot that is stored into is a cell that there is. -/
theorem lt_of_stores {session : List Operation} {capacity : Int} {withPrelude verbose : Bool}
    {x : Moment} (inside : x ∈ history capacity withPrelude verbose session) {slot : Nat}
    {v : Value} (stores : x.stores? = some (slot, v)) : slot < x.machine.slots.size := by
  have tidy := tidy_of_mem_history inside
  have taken : ∀ n, x.machine.storing? n = some (slot, v) → slot < x.machine.slots.size := by
    intro n storing
    unfold storing? Action.stored? at storing
    split at storing
    · split at storing
      · next u into _ same =>
        cases storing
        have known := (tidy.take n.arity).1 (.cell slot) (by simp [same])
        exact Value.known_cell.mp known
      · cases storing
    · cases storing
  unfold Moment.stores? at stores
  split at stores
  · exact taken _ stores
  · obtain ⟨n, -, storing⟩ := Option.bind_eq_some_iff.mp stores
    exact taken n storing
  · cases stores

/-- At a moment at which a value is stored, it is stored into the one slot that is given. -/
theorem slots_of_stores {x : Moment} {slot : Nat} {v : Value}
    (stores : x.stores? = some (slot, v)) :
    x.next.slots = x.machine.slots.setIfInBounds slot v := by
  obtain ⟨depth, activity, m⟩ := x
  have writes : m.Writes (some (slot, v)) (Moment.next ⟨depth, activity, m⟩) := by
    cases activity with
    | native name n =>
      have own : ∀ f, n.action ≠ .host f := by
        intro f host
        simp [Moment.stores?, storing?, Action.stored?, host] at stores
      exact stores ▸ writes_callNative (Host.callHost depth) own
    | turns base credit => exact stores ▸ writes_turn base m
    | _ => cases stores
  rcases writes with ends | ⟨silent, -⟩
  · exact ends
  · cases silent

end Session

end ThreadedForth
