import Mathlib.Data.List.Induction
import Mathlib.Data.List.Nodup
import ThreadedForth.Proofs.Arity
import ThreadedForth.Proofs.Registry

/-!
# Importing a library

A library is imported in two passes.  The first one looks at the names of all items, and one bad
name stops it; nothing has been registered by then.  In the second pass a value is always
registered, and so is a callable whose arity can be derived; one whose arity cannot is left out,
with a warning.  The second pass has no failures of its own.  It stops only where the host fails
to say what the warning needs, the text of a callable or its parameters, and so the main result is
about items that explain themselves (`Host.Item.Explains`).  What becomes of the others is said
beside it.

What a library is depends on where it comes from, a mapping or an object, whose attributes are
read before the first pass.  Either way no name comes twice (`Host.Distinct`), and this is what
the result hangs on.  If a name came twice the first of its words would be returned but not found.

* `Host.distinct_collect`, `Host.objectItems_cases`: the items of a mapping, and those of an
  object in the order of their names, as far as its attributes can be read;
* `Dictionary.find?_foldl_push`: what names mean when words with different names have been
  registered;
* `Machine.checkNames_cases`, `Machine.imported_importItems`: what the passes come to;
* `Machine.imports_exactly`: an import changes nothing if it fails, which it does exactly if a
  name is bad, and else does to the dictionary what its items say, and nothing more;
* `Machine.importWords_stopped`, `Machine.importObject_unread`: what is left by an import that the
  host has stopped.
-/

namespace ThreadedForth

/-! ## Libraries -/

namespace Host

section

variable {α : Type}

/-- No name comes twice. -/
def Distinct (items : List (Value × α)) : Prop :=
  items.Pairwise fun a b => a.1.same b.1 = false

/-- Items whose names are texts. -/
def texts (named : List (String × α)) : List (Value × α) :=
  named.map fun pair => (.text pair.1, pair.2)

variable {items : List (Value × α)} {named attributes : List (String × α)}

theorem collect_concat (pairs : List (Value × α)) (pair : Value × α) :
    collect (pairs ++ [pair]) = putItem pair.1 pair.2 (collect pairs) := by
  unfold collect
  rw [List.foldl_append]
  rfl

/-- An item takes the place of another one of the same name, or goes to the end. -/
theorem putItem_cases (name : Value) (item : α) (items : List (Value × α)) :
    (putItem name item items).map Prod.fst = items.map Prod.fst ∨
      (∀ pair ∈ items, pair.1.same name = false) ∧
        putItem name item items = items ++ [(name, item)] := by
  induction items with
  | nil => exact .inr ⟨nofun, rfl⟩
  | cons pair rest ih =>
    obtain ⟨other, old⟩ := pair
    rw [putItem]
    split
    · exact .inl rfl
    · next different =>
      rcases ih with same | ⟨absent, added⟩
      · refine .inl ?_
        rw [List.map_cons, same, List.map_cons]
      · refine .inr ⟨List.forall_mem_cons.mpr ⟨Bool.eq_false_iff.mpr different, absent⟩, ?_⟩
        rw [added, List.cons_append]

theorem distinct_iff : Distinct items ↔
    (items.map Prod.fst).Pairwise fun a b => a.same b = false := by
  rw [Distinct, List.pairwise_map]

theorem Distinct.putItem (distinct : Distinct items) (name : Value) (item : α) :
    Distinct (putItem name item items) := by
  rcases putItem_cases name item items with same | ⟨absent, added⟩
  · rw [distinct_iff, same, ← distinct_iff]
    exact distinct
  · rw [added]
    refine List.pairwise_append.mpr ⟨distinct, List.pairwise_singleton .., ?_⟩
    intro pair inside other last
    rw [List.mem_singleton.mp last]
    exact absent pair inside

/-- In a mapping no name comes twice. -/
theorem distinct_collect (pairs : List (Value × α)) : Distinct (collect pairs) := by
  induction pairs using List.reverseRecOn with
  | nil => exact .nil
  | append_singleton pairs pair ih =>
    rw [collect_concat]
    exact ih.putItem pair.1 pair.2

theorem same_text (a b : String) : (Value.text a).same (.text b) = (a == b) := rfl

theorem texts_injective {named named' : List (String × α)} (same : texts named = texts named') :
    named = named' := by
  refine List.map_injective_iff.mpr (fun a b equal => ?_) same
  cases a
  cases b
  cases equal
  rfl

theorem distinct_texts (distinct : Distinct (texts named)) : (named.map Prod.fst).Nodup := by
  unfold Distinct texts at distinct
  rw [List.pairwise_map] at distinct
  refine List.pairwise_map.mpr (distinct.imp fun different same => ?_)
  rw [same_text, same, beq_self_eq_true] at different
  cases different

/-! ### Attributes -/

theorem lookup_cons (first name : String) (old : α) (rest : List (String × α)) :
    ((first, old) :: rest).lookup name = if name = first then some old else rest.lookup name := by
  rw [List.lookup_cons]
  by_cases here : name = first
  · rw [if_pos here, beq_iff_eq.mpr here]
  · rw [if_neg here, beq_eq_false_iff_ne.mpr here]

/-- An item that is put among others is what its name leads to. -/
theorem exists_putItem_texts (name : String) (item : α) (held : List (String × α)) :
    ∃ next, putItem (.text name) item (texts held) = texts next ∧
      ∀ other, next.lookup other = if other = name then some item else held.lookup other := by
  induction held with
  | nil => exact ⟨[(name, item)], rfl, fun other => lookup_cons name other item []⟩
  | cons pair rest ih =>
    obtain ⟨first, old⟩ := pair
    obtain ⟨next, put, leads⟩ := ih
    have step : putItem (.text name) item (texts ((first, old) :: rest)) =
        if first = name then texts ((first, item) :: rest)
        else (.text first, old) :: putItem (.text name) item (texts rest) := by
      by_cases here : first = name <;> simp [texts, putItem, same_text, here]
    rw [step]
    by_cases here : first = name
    · rw [if_pos here]
      refine ⟨_, rfl, fun other => ?_⟩
      rw [lookup_cons, lookup_cons, here]
      split <;> rfl
    · rw [if_neg here, put]
      refine ⟨(first, old) :: next, rfl, fun other => ?_⟩
      rw [lookup_cons, lookup_cons, leads]
      by_cases asked : other = name
      · have unlike : other ≠ first := fun same => here (same.symm.trans asked)
        rw [if_neg unlike, if_neg unlike]
      · rw [if_neg asked, if_neg asked]

/-- Of the attributes that are given under one name the last one counts. -/
theorem exists_collect_texts (attributes : List (String × α)) :
    ∃ held, collect (texts attributes) = texts held ∧
      ∀ name, held.lookup name = attributes.reverse.lookup name := by
  induction attributes using List.reverseRecOn with
  | nil => exact ⟨[], rfl, fun _ => rfl⟩
  | append_singleton attributes pair ih =>
    obtain ⟨held, collected, leads⟩ := ih
    obtain ⟨next, put, further⟩ := exists_putItem_texts pair.1 pair.2 held
    refine ⟨next, ?_, fun name => ?_⟩
    · have mapped : texts (attributes ++ [pair]) = texts attributes ++ [(.text pair.1, pair.2)] :=
        List.map_append
      rw [mapped, collect_concat, collected, put]
    · rw [further, leads, List.reverse_concat]
      exact (lookup_cons ..).symm

/-- Where no name comes twice, an item is what its name leads to. -/
theorem lookup_eq_some_iff_mem (distinct : (named.map Prod.fst).Nodup) {name : String}
    {item : α} : named.lookup name = some item ↔ (name, item) ∈ named := by
  rw [List.lookup_eq_some_iff]
  constructor
  · rintro ⟨before, behind, rfl, -⟩
    exact List.mem_append_right before List.mem_cons_self
  · intro inside
    obtain ⟨before, behind, rfl⟩ := List.append_of_mem inside
    refine ⟨before, behind, rfl, fun pair earlier => ?_⟩
    rw [List.map_append, List.nodup_append] at distinct
    exact bne_iff_ne.mpr fun same => distinct.2.2 pair.1
      (List.mem_map_of_mem earlier) name List.mem_cons_self same.symm

/-- The public attributes of an object come in the order of their names. -/
theorem publicAttributes_spec (attributes : List (String × α)) :
    (publicAttributes attributes).Pairwise (fun a b => a.1 < b.1) ∧
      ∀ name item, (name, item) ∈ publicAttributes attributes ↔
        isPrivate name = false ∧ attributes.reverse.lookup name = some item := by
  obtain ⟨held, collected, leads⟩ := exists_collect_texts attributes
  have distinct : (held.map Prod.fst).Nodup := by
    refine distinct_texts ?_
    rw [← collected]
    exact distinct_collect _
  let visible := held.filter fun pair => !isPrivate pair.1
  have listed : publicAttributes attributes = visible.mergeSort fun a b => a.1 ≤ b.1 := by
    refine congrArg (fun own : List (String × α) => own.mergeSort fun a b => a.1 ≤ b.1) ?_
    refine (congrArg (List.filterMap _) collected).trans ?_
    rw [texts, List.filterMap_map]
    show _ = held.filter _
    rw [← List.filterMap_eq_filter]
    refine congrArg (List.filterMap · held) (funext fun pair => ?_)
    by_cases hidden : isPrivate pair.1 <;> simp [Option.guard, hidden]
  rw [listed]
  refine ⟨?_, fun name item => ?_⟩
  · have sorted : (visible.mergeSort fun a b => a.1 ≤ b.1).Pairwise
        fun a b => decide (a.1 ≤ b.1) = true :=
      List.pairwise_mergeSort (fun _ _ _ => by simpa using String.le_trans)
        (fun a b => by simpa using String.le_total a.1 b.1) visible
    have unlike : (visible.mergeSort fun a b => a.1 ≤ b.1).Pairwise fun a b => a.1 ≠ b.1 := by
      refine ((List.mergeSort_perm visible _).pairwise_iff Ne.symm).mpr ?_
      exact (List.pairwise_map.mp distinct).sublist List.filter_sublist
    refine (sorted.and unlike).imp fun both => String.not_le.mp fun high => ?_
    exact both.2 (String.le_antisymm (of_decide_eq_true both.1) high)
  · rw [List.mem_mergeSort, List.mem_filter, ← lookup_eq_some_iff_mem distinct, leads]
    simp [and_comm]

theorem distinct_of_sorted (sorted : named.Pairwise fun a b => a.1 < b.1) :
    Distinct (texts named) := by
  refine List.pairwise_map.mpr (sorted.imp fun {a b} below => ?_)
  rw [same_text]
  exact beq_eq_false_iff_ne.mpr fun same => String.lt_irrefl _ (same ▸ below)

end

/-- Attributes are read one after another, up to the first one that cannot be read. -/
theorem mapM_read_cases (listed : List (String × Attribute)) :
    (∃ named, listed = named.map (fun pair => (pair.1, .item pair.2)) ∧
        (listed.mapM fun (name, own) => do return (Value.text name, ← own.read)) =
          (.ok (texts named) : Except Fault _)) ∨
      ∃ before name reason rest, listed = before ++ (name, .failing reason) :: rest ∧
        (∀ own ∈ before, ∃ item, own.2 = .item item) ∧
        (listed.mapM fun (name, own) => do return (Value.text name, ← own.read)) =
          (.error (.foreign reason) : Except Fault _) := by
  induction listed with
  | nil => exact .inl ⟨[], rfl, rfl⟩
  | cons own rest ih =>
    obtain ⟨name, own⟩ := own
    cases own with
    | failing reason => exact .inr ⟨[], name, reason, rest, rfl, nofun, rfl⟩
    | item item =>
      rcases ih with ⟨named, rfl, read⟩ | ⟨before, other, reason, behind, rfl, earlier, unread⟩
      · refine .inl ⟨(name, item) :: named, rfl, ?_⟩
        rw [List.mapM_cons, read]
        rfl
      · refine .inr ⟨(name, .item item) :: before, other, reason, behind, rfl, ?_, ?_⟩
        · exact List.forall_mem_cons.mpr ⟨⟨item, rfl⟩, earlier⟩
        · rw [List.mapM_cons, unread]
          rfl

/-- The items of an object are its public attributes, in the order of their names; or the first
attribute in this order that cannot be read is what reading them fails with. -/
theorem objectItems_cases (attributes : List (String × Attribute)) :
    (∃ named, objectItems attributes = .ok (texts named) ∧
        named.Pairwise (fun a b => a.1 < b.1) ∧
        (∀ name item, (name, item) ∈ named ↔
          isPrivate name = false ∧ attributes.reverse.lookup name = some (.item item)) ∧
        ∀ name own, isPrivate name = false → attributes.reverse.lookup name = some own →
          ∃ item, own = .item item) ∨
      ∃ name reason, isPrivate name = false ∧
        attributes.reverse.lookup name = some (.failing reason) ∧
        (∀ other own, other < name → isPrivate other = false →
          attributes.reverse.lookup other = some own → ∃ item, own = .item item) ∧
        objectItems attributes = .error (.foreign reason) := by
  obtain ⟨sorted, holds⟩ := publicAttributes_spec attributes
  unfold objectItems
  rcases mapM_read_cases (publicAttributes attributes) with
    ⟨named, listed, read⟩ | ⟨before, name, reason, rest, listed, earlier, unread⟩
  · refine .inl ⟨named, read, ?_, fun name item => ?_, fun name own visible held => ?_⟩
    · rw [listed, List.pairwise_map] at sorted
      exact sorted
    · rw [← holds, listed, List.mem_map]
      constructor
      · exact fun inside => ⟨_, inside, rfl⟩
      · rintro ⟨pair, inside, same⟩
        cases same
        exact inside
    · have there := (holds name own).mpr ⟨visible, held⟩
      rw [listed] at there
      obtain ⟨pair, -, same⟩ := List.mem_map.mp there
      cases same
      exact ⟨pair.2, rfl⟩
  · have there : (name, Attribute.failing reason) ∈ publicAttributes attributes := by
      rw [listed]
      exact List.mem_append_right before List.mem_cons_self
    obtain ⟨visible, held⟩ := (holds name _).mp there
    refine .inr ⟨name, reason, visible, held, fun other own below shown leads => ?_, unread⟩
    have inside := (holds other own).mpr ⟨shown, leads⟩
    rw [listed, List.mem_append] at inside
    rw [listed, List.pairwise_append, List.pairwise_cons] at sorted
    rcases inside with first | late
    · exact earlier _ first
    · rcases List.mem_cons.mp late with same | behind
      · cases same
        exact absurd below (String.lt_irrefl _)
      · exact absurd (String.lt_trans below (sorted.2.1.1 _ behind)) (String.lt_irrefl _)

/-! ### Words for items -/

variable {named : List (String × Item)}

theorem Item.name_of_word? {name : String} {item : Item} {w : Word}
    (made : item.word? name = some w) : w.name = name := by
  cases item with
  | value v =>
    cases made
    rfl
  | callable f =>
    unfold Item.word? at made
    simp only at made
    split at made
    · cases made
      rfl
    · cases made

theorem nodup_wordsOf (distinct : (named.map Prod.fst).Nodup) :
    ((wordsOf named).map Word.name).Nodup := by
  refine List.pairwise_map.mpr (List.pairwise_filterMap.mpr ?_)
  refine (List.pairwise_map.mp distinct).imp fun different v made w made' same => different ?_
  rw [← Item.name_of_word? made, ← Item.name_of_word? made', same]

/-- An item that cannot be registered shares its name with no word. -/
theorem ne_of_mem_wordsOf (distinct : (named.map Prod.fst).Nodup) {name : String} {item : Item}
    (inside : (name, item) ∈ named) (skipped : item.word? name = none) :
    ∀ w ∈ wordsOf named, w.name ≠ name := by
  intro w made same
  obtain ⟨⟨other, origin⟩, there, made⟩ := List.mem_filterMap.mp made
  obtain rfl : other = name := (Item.name_of_word? made).symm.trans same
  obtain rfl : origin = item := by
    have first := (lookup_eq_some_iff_mem distinct).mpr there
    have second := (lookup_eq_some_iff_mem distinct).mpr inside
    exact Option.some.inj (first.symm.trans second)
  rw [skipped] at made
  cases made

end Host

/-! ## Several words at once -/

namespace Dictionary

variable {d : Dictionary} {words : List Word} {name : String}

theorem get?_foldl_push (d : Dictionary) (words : List Word) (k : Nat) :
    (words.foldl push d).get? (d.size + k) = words[k]? := by
  rw [get?, entries_foldl_push, size, Array.getElem?_append_right (Nat.le_add_right ..),
    Nat.add_sub_cancel_left, List.getElem?_toArray]

/-- Names that no new word has mean what they did. -/
theorem find?_foldl_push_of_ne (other : ∀ w ∈ words, w.name ≠ name) :
    (words.foldl push d).find? name = d.find? name := by
  induction words generalizing d with
  | nil => rfl
  | cons w rest ih =>
    rw [List.forall_mem_cons] at other
    rw [List.foldl_cons, ih other.2, find?_push_of_ne d other.1]

/-- If the names of the new words are different, each means its own word. -/
theorem find?_foldl_push {k : Nat} {w : Word} (distinct : (words.map Word.name).Nodup)
    (there : words[k]? = some w) : (words.foldl push d).find? w.name = some (d.size + k) := by
  induction words generalizing d k with
  | nil => cases there
  | cons v rest ih =>
    rw [List.map_cons, List.nodup_cons] at distinct
    cases k with
    | zero =>
      obtain rfl : v = w := Option.some.inj there
      have other : ∀ u ∈ rest, u.name ≠ v.name := fun u inside same =>
        distinct.1 (same ▸ List.mem_map_of_mem inside)
      rw [List.foldl_cons, find?_foldl_push_of_ne other, find?_push_self, Nat.add_zero]
    | succ k =>
      rw [List.foldl_cons, ih distinct.2 there, size_push, Nat.add_right_comm, Nat.add_assoc]

end Dictionary

/-! ## The first pass -/

/-- The value is fit to be a name. -/
def Value.IsName (v : Value) : Prop := ∃ name, v = .text name ∧ Text.IsName name

namespace Machine

open Host

variable {m : Machine} {items : List (Value × Item)} {named : List (String × Item)}

/-- A name passes the check exactly if it is one. -/
theorem checkName_cases (m : Machine) (v : Value) :
    (∃ name, v = .text name ∧ Text.IsName name ∧ m.checkName v = .ok name) ∨
      ¬ v.IsName ∧ ∃ f, m.checkName v = .error f := by
  cases checked : m.checkName v with
  | ok name =>
    obtain ⟨rfl, shown⟩ := Store.checkName_eq_ok checked
    exact .inl ⟨name, rfl, Text.isName_iff.mpr shown, rfl⟩
  | error f =>
    refine .inr ⟨?_, f, rfl⟩
    rintro ⟨name, rfl, proper⟩
    have valid : m.checkName (.text name) = .ok name :=
      Word.checkName_text (Text.isName_iff.mp proper)
    cases checked.symm.trans valid

/-- The first pass goes through exactly if all names are names. -/
theorem checkNames_cases (m : Machine) (items : List (Value × Item)) :
    (∃ named, items = texts named ∧ (∀ pair ∈ items, pair.1.IsName) ∧
        m.checkNames items = .ok named) ∨
      (∃ pair ∈ items, ¬ pair.1.IsName) ∧ ∃ f, m.checkNames items = .error f := by
  induction items with
  | nil => exact .inl ⟨[], rfl, nofun, rfl⟩
  | cons pair rest ih =>
    obtain ⟨v, item⟩ := pair
    have step : m.checkNames ((v, item) :: rest) =
        (m.checkName v).bind fun name =>
          (m.checkNames rest).map fun others => (name, item) :: others := by
      unfold checkNames
      rw [List.mapM_cons]
      simp only
      cases m.checkName v <;> rfl
    rw [step]
    rcases checkName_cases m v with ⟨name, rfl, proper, checked⟩ | ⟨improper, f, refused⟩
    · rw [checked]
      rcases ih with ⟨named, rfl, others, passed⟩ | ⟨⟨bad, inside, improper⟩, f, refused⟩
      · refine .inl ⟨(name, item) :: named, rfl, ?_, ?_⟩
        · exact List.forall_mem_cons.mpr ⟨⟨name, rfl, proper⟩, others⟩
        · rw [passed]
          rfl
      · refine .inr ⟨⟨bad, List.mem_cons_of_mem _ inside, improper⟩, f, ?_⟩
        rw [refused]
        rfl
    · refine .inr ⟨⟨_, List.mem_cons_self, improper⟩, f, ?_⟩
      rw [refused]
      rfl

/-! ## The second pass -/

/-- The items have been imported: what the dictionary holds now, what the names mean in it, and
that nothing else is different but the journal. -/
structure Imported (m : Machine) (named : List (String × Item)) (entries : List Nat)
    (after : Machine) : Prop where
  registered : after.dictionary.entries = m.dictionary.entries ++ (wordsOf named).toArray
  returned : entries.map after.dictionary.get? = (wordsOf named).map some
  found : ∀ (k : Nat) w, (wordsOf named)[k]? = some w → ∃ entry, entries[k]? = some entry ∧
    after.lookup w.name = .ok entry
  skipped : ∀ pair ∈ named, pair.2.word? pair.1 = none →
    after.dictionary.find? pair.1 = m.dictionary.find? pair.1
  others : ∀ name, (∀ pair ∈ named, pair.1 ≠ name) →
    after.dictionary.find? name = m.dictionary.find? name
  frame : { after with dictionary := m.dictionary, journal := m.journal } = m

/-- The outcome is that of importing the items.  It is a failure, which changes nothing, exactly
if one of the names is none. -/
structure ImportsExactly (m : Machine) (items : List (Value × Item))
    (o : Outcome (List Nat)) : Prop where
  refused : (∃ f, o = .failed f m) ↔ ∃ pair ∈ items, ¬ pair.1.IsName
  granted : (∀ pair ∈ items, pair.1.IsName) →
    ∃ named entries after, items = texts named ∧ o = .done entries after ∧
      m.Imported named entries after

theorem imported_withWords (distinct : (named.map Prod.fst).Nodup) (m : Machine)
    (notes : List Note) :
    m.Imported named (List.range' m.dictionary.size (wordsOf named).length)
      (m.withWords (wordsOf named) notes) := by
  refine ⟨Dictionary.entries_foldl_push .., ?_, fun k w there => ?_, fun pair inside none_ => ?_,
    fun name other => ?_, rfl⟩
  · refine List.ext_getElem (by simp) fun k low _ => ?_
    rw [List.getElem_map, List.getElem_map, List.getElem_range', Nat.one_mul]
    rw [withWords, Dictionary.get?_foldl_push]
    exact List.getElem?_eq_getElem _
  · obtain ⟨low, -⟩ := List.getElem?_eq_some_iff.mp there
    refine ⟨m.dictionary.size + k, ?_, ?_⟩
    · rw [List.getElem?_range' low, Nat.one_mul]
    · have means := Dictionary.find?_foldl_push (d := m.dictionary) (nodup_wordsOf distinct) there
      exact Store.lookup_of_find means
  · exact Dictionary.find?_foldl_push_of_ne (ne_of_mem_wordsOf distinct inside none_)
  · refine Dictionary.find?_foldl_push_of_ne fun w made => ?_
    obtain ⟨pair, inside, made⟩ := List.mem_filterMap.mp made
    rw [Item.name_of_word? made]
    exact other pair inside

theorem importsExactly_importWords (distinct : Distinct items)
    (explain : ∀ pair ∈ items, pair.2.Explains) (m : Machine) :
    m.ImportsExactly items (m.importWords items) := by
  unfold importWords
  rcases checkNames_cases m items with
    ⟨named, rfl, proper, passed⟩ | ⟨⟨bad, inside, improper⟩, f, refused⟩
  · obtain ⟨notes, imported⟩ := m.importItems_eq named fun pair inside =>
      explain (.text pair.1, pair.2) (List.mem_map_of_mem inside)
    rw [passed]
    simp only [imported]
    refine ⟨⟨nofun, fun ⟨pair, inside, improper⟩ => absurd (proper pair inside) improper⟩, ?_⟩
    exact fun _ => ⟨named, _, _, rfl, rfl, imported_withWords (distinct_texts distinct) m notes⟩
  · rw [refused]
    refine ⟨⟨fun _ => ⟨bad, inside, improper⟩, fun _ => ⟨f, rfl⟩⟩, fun proper => ?_⟩
    exact absurd (proper bad inside) improper

/-- A callable that hides its parameters, and has a text. -/
def reserved : Callable := ⟨.text "<built-in>", .hidden, [], .nothing⟩

/-- A value, and two callables that no arity can be derived for. -/
def library : List (Value × Item) :=
  [(.text "five", .value (.int 5)), (.text "key", .callable placeThenName),
    (.text "w", .callable reserved)]

/-- Attributes out of order, one of them private and impossible to read. -/
def shelf : List (String × Attribute) :=
  [("w", .item (.callable reserved)), ("five", .item (.value (.int 5))), ("_own", .failing "no")]

theorem explains_reserved : (Item.callable reserved).Explains := .inr ⟨⟨_, rfl⟩, nofun⟩

/-- A callable that does not explain itself stops the import with a failure of the host.  What
comes before it has been imported by then. -/
theorem importWords_stopped {before rest : List (String × Item)} {pair : String × Item}
    (proper : ∀ other ∈ before ++ pair :: rest, Text.IsName other.1)
    (explain : ∀ other ∈ before, other.2.Explains) (silent : ¬ pair.2.Explains) (m : Machine) :
    ∃ reason notes, m.importWords (texts (before ++ pair :: rest)) =
      .failed (.foreign reason) (m.withWords (wordsOf before) notes) := by
  obtain ⟨reason, notes, stopped⟩ := importItems_stopped explain silent rest m
  refine ⟨reason, notes, ?_⟩
  rcases checkNames_cases m (texts (before ++ pair :: rest)) with
    ⟨named, same, -, passed⟩ | ⟨⟨bad, inside, improper⟩, -⟩
  · rw [importWords, passed, ← texts_injective same]
    exact stopped
  · obtain ⟨other, there, rfl⟩ := List.mem_map.mp inside
    exact absurd ⟨other.1, rfl, proper other there⟩ improper

/-- An attribute that cannot be read stops the import of its object before anything is done. -/
theorem importObject_unread {attributes : List (String × Attribute)} {name reason : String}
    (visible : isPrivate name = false)
    (held : attributes.reverse.lookup name = some (.failing reason)) (m : Machine) :
    ∃ text, m.importObject attributes = .failed (.foreign text) m := by
  rcases objectItems_cases attributes with
    ⟨-, -, -, -, readable⟩ | ⟨other, reason, -, -, -, unread⟩
  · obtain ⟨item, same⟩ := readable name _ visible held
    cases same
  · exact ⟨reason, by rw [importObject, unread]⟩

end Machine
end ThreadedForth
