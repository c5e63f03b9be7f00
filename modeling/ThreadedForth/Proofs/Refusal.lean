import ThreadedForth.Proofs.Rearrangement

/-!
# What stack and memory words refuse

Ten built-in words look at their data stack before they do anything: those that rearrange it by a
fixed number of values, by a count or an index, the one that takes a list or tuple apart, and those
that read and write slots.  What such a word asks for is its `Demand`.  If the demand is met the
word does its work.  If not, the data stack lacks values, or there is a value on top that the word
refuses, and the word fails and changes nothing.

The fault that is meant names the number of values that are needed, or quotes the value that is
refused.  But not every number and not every value has a text, and where there is none the failure
to write the text is raised in the place of the fault.  So these words do not fail with faults of
the machine's own only.  A needed number is too long to be written if there is an index of as many
digits; a value that is refused has no text if it is such an integer, or holds one, or something
nested too deep (`Value.Unshown`).

* `Demand.Governs`: what the store makes of the operands of a word, for the ten words;
* `Demand.Blames.kind`: which faults are the machine's own;
* `Machine.settles_demand`: how the words end, run by themselves or at a cell of code;
* `Session.pick_unshown`: an index below zero for which there is no fault of the machine's own.
-/

namespace ThreadedForth

/-- What a word asks of the data stack. -/
inductive Demand where
  /-- So many values. -/
  | values (count : Nat)
  /-- A count or index on top, and below it as many values, or so many more. -/
  | counted (word : String) (more : Nat)
  /-- A list or tuple on top. -/
  | composite
  /-- So many values, of which the one on top is a cell. -/
  | cell (word : String) (count : Nat)

namespace Demand

/-- The number of values that are asked for in any case. -/
def least : Demand → Nat
  | values count | cell _ count => count
  | counted .. | composite => 1

/-- The data stack is as it is asked for. -/
inductive Met : Demand → List Value → Prop where
  | values {count : Nat} {values : List Value} (enough : count ≤ values.length) :
      Met (.values count) values
  | counted {word : String} {more : Nat} (below : List Value) (n : Nat)
      (enough : n + more ≤ below.length) : Met (.counted word more) (below ++ [.int n])
  | composite (below : List Value) {v : Value} (composite : v.IsComposite) :
      Met .composite (below ++ [v])
  | cell {word : String} {count : Nat} (below : List Value) (slot : Nat)
      (enough : count ≤ below.length + 1) : Met (.cell word count) (below ++ [.cell slot])

/-- So many values are needed, and only so many are there.  A count or index is not one of them. -/
inductive Lacks : Demand → List Value → (needed available : Nat) → Prop where
  | least {d : Demand} {values : List Value} (few : values.length < d.least) :
      Lacks d values d.least values.length
  | counted {word : String} {more : Nat} (below : List Value) (n : Nat)
      (few : below.length < n + more) :
      Lacks (.counted word more) (below ++ [.int n]) (n + more) below.length

/-- The value on top is of the wrong kind, and this is how it is refused. -/
inductive Refuses : Demand → List Value → Value → (String → Fault) → Prop where
  | counted {word : String} {more : Nat} (below : List Value) {v : Value}
      {wording : String → Fault} (miscounts : v.Miscounts word wording) :
      Refuses (.counted word more) (below ++ [v]) v wording
  | composite (below : List Value) {v : Value} (other : ¬ v.IsComposite) :
      Refuses .composite (below ++ [v]) v .notAComposite
  | cell {word : String} {count : Nat} (below : List Value) {v : Value}
      (enough : count ≤ below.length + 1) (other : ∀ slot, v ≠ .cell slot) :
      Refuses (.cell word count) (below ++ [v]) v (.notACell word)

/-- The fault that is raised: the one that is meant, if it has a text, and else the one that says
why there is none. -/
inductive Blames (slots : Array Value) (name : String) (d : Demand) (values : List Value) :
    Fault → Prop where
  | lacks {needed available : Nat} (lacks : d.Lacks values needed available)
      (short : needed < Number.decimalBound) :
      Blames slots name d values (.underflow needed available (some name))
  | lacksUnshown {needed available : Nat} (lacks : d.Lacks values needed available)
      (long : Number.decimalBound ≤ needed) : Blames slots name d values (.tooManyDigits none)
  | refuses {v : Value} {wording : String → Fault} {shown : String}
      (refuses : d.Refuses values v wording) (text : v.literal slots = .ok shown) :
      Blames slots name d values (wording shown)
  | refusesUnshown {v : Value} {wording : String → Fault} {f : Fault}
      (refuses : d.Refuses values v wording) (no_text : v.literal slots = .error f)
      (unshown : v.Unshown slots Value.maxNesting f) : Blames slots name d values f

variable {d : Demand} {slots : Array Value} {name : String} {values : List Value} {f : Fault}

theorem Met.least_le (met : d.Met values) : d.least ≤ values.length := by
  cases met with
  | values enough => exact enough
  | counted below n enough => simp [least]
  | composite below composite => simp [least]
  | cell below slot enough => simpa [least] using enough

theorem Refuses.kind {v : Value} {wording : String → Fault} (refuses : d.Refuses values v wording)
    (shown : String) : (wording shown).kind = .invalidArgument := by
  cases refuses with
  | counted below miscounts => exact miscounts.kind shown
  | composite => rfl
  | cell => rfl

/-- What is refused is refused with the fault that is meant, or there is no text for it. -/
theorem Refuses.blames {v : Value} {wording : String → Fault}
    (refuses : d.Refuses values v wording) :
    Blames slots name d values (v.quoting slots wording) := by
  rcases v.quoting_cases slots wording with ⟨shown, text, same⟩ | ⟨f, no_text, same, unshown⟩
  · rw [same]
    exact .refuses refuses text
  · rw [same]
    exact .refusesUnshown refuses no_text unshown

/-- What is lacking is told with the fault that is meant, or the number has no text. -/
theorem Lacks.blames {needed available : Nat} (lacks : d.Lacks values needed available) :
    Blames slots name d values (.short needed available (some name)) := by
  rcases Fault.short_cases needed available (some name) with ⟨short, same⟩ | ⟨long, same⟩
  · rw [same]
    exact .lacks lacks short
  · rw [same]
    exact .lacksUnshown lacks long

theorem Refuses.isInterrupt {v : Value} {wording : String → Fault}
    (refuses : d.Refuses values v wording) : (v.quoting slots wording).isInterrupt = false := by
  refine v.isInterrupt_quoting slots fun shown => ?_
  rw [Fault.isInterrupt, refuses.kind]
  rfl

/-- The faults that tell of lacking values and of refused ones are the machine's own, and the
faults in their place are not. -/
theorem Blames.kind (blames : Blames slots name d values f) :
    f.kind = .stackUnderflow ∧ (∃ needed available, d.Lacks values needed available) ∨
      f.kind = .invalidArgument ∧ (∃ v wording, d.Refuses values v wording) ∨
      f.kind.isOwn = false ∧
        ((∃ needed available, d.Lacks values needed available ∧ Number.decimalBound ≤ needed) ∨
          ∃ v wording, d.Refuses values v wording ∧ v.literal slots = .error f) := by
  cases blames with
  | lacks lacks short => exact .inl ⟨rfl, _, _, lacks⟩
  | lacksUnshown lacks long => exact .inr (.inr ⟨rfl, .inl ⟨_, _, lacks, long⟩⟩)
  | refuses refuses text => exact .inr (.inl ⟨refuses.kind _, _, _, refuses⟩)
  | refusesUnshown refuses no_text unshown =>
    have foreign : f.kind.isOwn = false := by
      cases unshown with
      | digits => rfl
      | deep => rfl
    exact .inr (.inr ⟨foreign, .inr ⟨_, _, refuses, no_text⟩⟩)

/-! ## The ten words -/

/-- What a primitive asks for, and what the store makes of its operands accordingly. -/
structure Governs (d : Demand) (name : String) (p : Primitive) : Prop where
  least : p.arity = 0 ∨ p.arity = d.least
  small : d.least ≤ 2
  done : ∀ here below operands (s : Store), operands.length = p.arity →
    d.Met (below ++ operands) → ∃ v t, p.apply here operands (s.having below) = .ok (v, t)
  failed : ∀ here below operands (s : Store), operands.length = p.arity →
    ¬ d.Met (below ++ operands) →
      ∃ f, p.apply here operands (s.having below) = .error f ∧ f.isInterrupt = false ∧
        d.Blames s.slots name (below ++ operands) f

theorem governs_swap : (Demand.values 2).Governs "swap" .swap where
  least := .inl rfl
  small := Nat.le_refl 2
  done := by
    intro here below operands s none_ met
    obtain rfl : operands = [] := List.eq_nil_of_length_eq_zero none_
    rw [List.append_nil] at met
    obtain ⟨rest, above, rfl, length⟩ := Rearrangement.exists_cut met.least_le
    obtain ⟨b, a, rfl⟩ := List.length_eq_two.mp length
    have taken : (Stack.ofList (rest ++ [b, a])).take 2 = ([b, a], .ofList rest) :=
      Stack.take_ofList rest [b, a]
    refine ⟨.none, { s with stack := ((Stack.ofList rest).push a).push b }, ?_⟩
    simp only [Primitive.apply, Store.swap, Store.having, taken]
    rfl
  failed := by
    intro here below operands s none_ unmet
    obtain rfl : operands = [] := List.eq_nil_of_length_eq_zero none_
    rw [List.append_nil] at unmet ⊢
    have few : below.length < 2 := Nat.lt_of_not_le fun enough => unmet (.values enough)
    refine ⟨.underflow 2 below.length (some "swap"), ?_, rfl,
      .lacks (.least few) (Number.lt_decimalBound_of_le_two (Nat.le_refl 2))⟩
    cases below with
    | nil => rfl
    | cons v rest =>
      obtain rfl : rest = [] :=
        List.eq_nil_of_length_eq_zero (Nat.lt_one_iff.mp (Nat.lt_of_succ_lt_succ few))
      rfl

theorem governs_drop : (Demand.values 1).Governs "drop" .drop where
  least := .inl rfl
  small := Nat.le_succ 1
  done := by
    intro here below operands s none_ met
    obtain rfl : operands = [] := List.eq_nil_of_length_eq_zero none_
    rw [List.append_nil] at met
    obtain ⟨rest, above, rfl, length⟩ := Rearrangement.exists_cut met.least_le
    obtain ⟨v, rfl⟩ := List.length_eq_one_iff.mp length
    refine ⟨.none, s.having rest, ?_⟩
    simp only [Primitive.apply, Store.drop, Store.having, Stack.pop?_ofList_concat]
    rfl
  failed := by
    intro here below operands s none_ unmet
    obtain rfl : operands = [] := List.eq_nil_of_length_eq_zero none_
    rw [List.append_nil] at unmet ⊢
    have few : below.length < 1 := Nat.lt_of_not_le fun enough => unmet (.values enough)
    obtain rfl : below = [] := List.eq_nil_of_length_eq_zero (Nat.lt_one_iff.mp few)
    exact ⟨.underflow 1 0 (some "drop"), rfl, rfl,
      .lacks (.least few) (Number.lt_decimalBound_of_le_two (Nat.le_succ 1))⟩

/-- A word with a count or index reads it, and then asks for the values. -/
theorem governs_counted {word : String} {more : Nat} {p : Primitive}
    {next : Store → Nat → Except Fault (Value × Store)} (arity : p.arity = 1)
    (applies : ∀ here v (s : Store), p.apply here [v] s =
      s.readCount word v >>= fun n => s.require (n + more) (some word) >>= fun _ => next s n)
    (total : ∀ s n, ∃ v t, next s n = .ok (v, t)) : (counted word more).Governs word p where
  least := .inr arity
  small := Nat.le_succ 1
  done := by
    intro here below operands s single met
    obtain ⟨v, rfl⟩ := List.length_eq_one_iff.mp (single.trans arity)
    generalize same : below ++ [v] = values at met
    cases met with
    | counted rest n enough =>
      obtain ⟨rfl, rfl⟩ := List.append_singleton_inj.mp same
      rw [applies, Store.counted_of_le _ _ _ _ _ _ (by rwa [Store.depth_having])]
      exact total _ n
  failed := by
    intro here below operands s single unmet
    obtain ⟨v, rfl⟩ := List.length_eq_one_iff.mp (single.trans arity)
    rw [applies]
    rcases (s.having below).counted_cases word v more (some word) (next (s.having below)) with
      ⟨n, rfl, enough, -⟩ | ⟨n, rfl, few, fails⟩ | ⟨wording, miscounts, fails⟩
    · rw [Store.depth_having] at enough
      exact absurd (.counted below n enough) unmet
    · rw [Store.depth_having] at few fails
      exact ⟨_, fails, Fault.isInterrupt_short _ _ _, (Lacks.counted below n few).blames⟩
    · have refuses : (counted word more).Refuses (below ++ [v]) v wording :=
        .counted below miscounts
      exact ⟨_, fails, refuses.isInterrupt, refuses.blames⟩

theorem governs_gather : (counted "gather" 0).Governs "gather" .gather :=
  governs_counted rfl (fun here v s => by
    simp only [Primitive.apply, Store.gather, bind_assoc]
    rfl) fun _ _ => ⟨_, _, rfl⟩

theorem governs_pluck : (counted "pluck" 1).Governs "pluck" .pluck :=
  governs_counted rfl (fun _ _ _ => rfl) fun _ _ => ⟨_, _, rfl⟩

theorem governs_pick : (counted "pick" 1).Governs "pick" .pick :=
  governs_counted rfl (fun here v s => by
    simp only [Primitive.apply, Store.pick, bind_assoc]
    rfl) fun _ _ => ⟨_, _, rfl⟩

theorem governs_spread : composite.Governs "spread" .spread where
  least := .inl rfl
  small := Nat.le_succ 1
  done := by
    intro here below operands s none_ met
    obtain rfl : operands = [] := List.eq_nil_of_length_eq_zero none_
    rw [List.append_nil] at met
    cases met with
    | composite rest composite =>
      obtain ⟨own, items, same⟩ := composite
      refine ⟨.none, s.having (rest ++ items), ?_⟩
      simp only [Primitive.apply, s.spread_having same]
      rfl
  failed := by
    intro here below operands s none_ unmet
    obtain rfl : operands = [] := List.eq_nil_of_length_eq_zero none_
    rw [List.append_nil] at unmet ⊢
    rcases List.eq_nil_or_concat below with rfl | ⟨rest, v, rfl⟩
    · exact ⟨.underflow 1 0 (some "spread"), rfl, rfl,
        .lacks (.least Nat.zero_lt_one) (Number.lt_decimalBound_of_le_two (Nat.le_succ 1))⟩
    · rw [List.concat_eq_append] at unmet ⊢
      have other : ¬ v.IsComposite := fun is => unmet (.composite rest is)
      have refuses : composite.Refuses (rest ++ [v]) v .notAComposite := .composite rest other
      refine ⟨_, ?_, refuses.isInterrupt, refuses.blames⟩
      simp only [Primitive.apply, s.spread_having_of_wrong rest other]
      rfl

/-- A word that needs a cell finds it in its last operand. -/
theorem governs_cell {word name : String} {p : Primitive} {others : Nat} (few : others ≤ 1)
    (arity : p.arity = others + 1)
    (done : ∀ here (operands : List Value) (slot : Nat) (s : Store), operands.length = others →
      ∃ v t, p.apply here (operands ++ [.cell slot]) s = .ok (v, t))
    (failed : ∀ here (operands : List Value) (v : Value) (s : Store), operands.length = others →
      (∀ slot, v ≠ .cell slot) →
        p.apply here (operands ++ [v]) s = .error (v.quoting s.slots (.notACell word))) :
    (cell word (others + 1)).Governs name p where
  least := .inr arity
  small := Nat.succ_le_succ few
  done := by
    intro here below operands s length met
    rcases List.eq_nil_or_concat operands with rfl | ⟨operands, v, rfl⟩
    · rw [arity] at length
      cases length
    · rw [List.concat_eq_append] at length met ⊢
      rw [← List.append_assoc] at met
      generalize same : (below ++ operands) ++ [v] = values at met
      cases met with
      | cell rest slot enough =>
        obtain ⟨-, rfl⟩ := List.append_singleton_inj.mp same
        exact done here operands slot _ (by simpa [arity] using length)
  failed := by
    intro here below operands s length unmet
    rcases List.eq_nil_or_concat operands with rfl | ⟨operands, v, rfl⟩
    · rw [arity] at length
      cases length
    · rw [List.concat_eq_append] at length unmet ⊢
      rw [← List.append_assoc] at unmet ⊢
      have length : operands.length = others := by simpa [arity] using length
      have enough : others + 1 ≤ (below ++ operands).length + 1 := by simp [length]
      have other : ∀ slot, v ≠ .cell slot := by
        rintro slot rfl
        exact unmet (.cell _ slot enough)
      have refuses : (cell word (others + 1)).Refuses (below ++ operands ++ [v]) v
          (.notACell word) := .cell _ enough other
      exact ⟨_, failed here operands v _ length other, refuses.isInterrupt, refuses.blames⟩

theorem governs_load {name : String} : (cell "load" 1).Governs name .load :=
  governs_cell (Nat.zero_le 1) rfl
    (fun here operands slot s none_ => by
      obtain rfl : operands = [] := List.eq_nil_of_length_eq_zero none_
      exact ⟨_, _, rfl⟩)
    (fun here operands v s none_ other => by
      obtain rfl : operands = [] := List.eq_nil_of_length_eq_zero none_
      cases v with
      | cell slot => exact absurd rfl (other slot)
      | none | bool | int | float | nan | text | list | tuple => rfl)

theorem governs_store {name : String} : (cell "store" 2).Governs name .store :=
  governs_cell (Nat.le_refl 1) rfl
    (fun here operands slot s single => by
      obtain ⟨w, rfl⟩ := List.length_eq_one_iff.mp single
      exact ⟨_, _, rfl⟩)
    (fun here operands v s single other => by
      obtain ⟨w, rfl⟩ := List.length_eq_one_iff.mp single
      cases v with
      | cell slot => exact absurd rfl (other slot)
      | none | bool | int | float | nan | text | list | tuple => rfl)

end Demand

/-- The ten words, and what they ask for. -/
def Builtin.demands : List (Word × Demand) :=
  [(plain "swap" .swap, .values 2), (plain "drop" .drop, .values 1),
    (plain "gather" .gather, .counted "gather" 0), (plain "spread" .spread, .composite),
    (passing "pluck" .pluck, .counted "pluck" 1), (passing "pick" .pick, .counted "pick" 1),
    (passing "load" .load, .cell "load" 1), (plain "store" .store, .cell "store" 2),
    (passing "@" .load, .cell "load" 1), (plain "!" .store, .cell "store" 2)]

theorem Builtin.exists_governs {w : Word} {d : Demand} (asks : (w, d) ∈ demands) :
    ∃ p pushesNone, w = ofPrimitive w.name p pushesNone ∧ d.Governs w.name p := by
  simp only [demands, List.mem_cons, List.not_mem_nil, or_false, Prod.mk.injEq] at asks
  rcases asks with ⟨rfl, rfl⟩ | ⟨rfl, rfl⟩ | ⟨rfl, rfl⟩ | ⟨rfl, rfl⟩ | ⟨rfl, rfl⟩ | ⟨rfl, rfl⟩ |
    ⟨rfl, rfl⟩ | ⟨rfl, rfl⟩ | ⟨rfl, rfl⟩ | ⟨rfl, rfl⟩
  · exact ⟨_, _, rfl, Demand.governs_swap⟩
  · exact ⟨_, _, rfl, Demand.governs_drop⟩
  · exact ⟨_, _, rfl, Demand.governs_gather⟩
  · exact ⟨_, _, rfl, Demand.governs_spread⟩
  · exact ⟨_, _, rfl, Demand.governs_pluck⟩
  · exact ⟨_, _, rfl, Demand.governs_pick⟩
  · exact ⟨_, _, rfl, Demand.governs_load⟩
  · exact ⟨_, _, rfl, Demand.governs_store⟩
  · exact ⟨_, _, rfl, Demand.governs_load⟩
  · exact ⟨_, _, rfl, Demand.governs_store⟩

/-- The outcome of a word that asks for something: it is done if that is there, and otherwise it
fails with a fault that says what is wrong, or why that cannot be said, and changes nothing. -/
structure Demand.Settles (d : Demand) (name : String) (m : Machine) (o : Outcome Unit) : Prop where
  done : d.Met m.stack.toList → ∃ after, o = .done () after
  failed : ¬ d.Met m.stack.toList →
    ∃ f, o = .failed f m ∧ d.Blames m.slots name m.stack.toList f

namespace Machine

/-- A call of a primitive ends as the work of the store does.  Where there are not even the operands
the call itself fails. -/
theorem settles_callNative (call : Caller) (m : Machine) {d : Demand} {name : String}
    {p : Primitive} (pushesNone : Bool) (governs : d.Governs name p) :
    d.Settles name m (m.callNative call name ⟨.primitive p, p.arity, pushesNone⟩) := by
  by_cases short : m.stack.depth < p.arity
  · have least : p.arity = d.least := governs.least.resolve_left (Nat.ne_zero_of_lt short)
    have few : m.stack.toList.length < d.least := by rwa [Stack.length_toList, ← least]
    refine ⟨fun met => absurd met.least_le (Nat.not_le.mpr few), fun _ => ?_⟩
    refine ⟨_, callNative_short call name short, ?_⟩
    have lacks := Demand.Lacks.least few
    rw [← least, Stack.length_toList] at lacks
    rcases Fault.short_cases p.arity m.stack.depth (some name) with ⟨-, same⟩ | ⟨long, -⟩
    · exact same ▸ .lacks lacks (least ▸ Number.lt_decimalBound_of_le_two governs.small)
    · exact absurd (least ▸ Number.lt_decimalBound_of_le_two governs.small) (Nat.not_lt.mpr long)
  · rw [Nat.not_lt, ← Stack.length_toList] at short
    obtain ⟨below, operands, cut, length⟩ := Rearrangement.exists_cut short
    have called := callNative_primitive call name p pushesNone cut
    rw [length] at called
    rw [called]
    constructor
    · intro met
      rw [cut] at met
      obtain ⟨v, t, made⟩ := governs.done m.here below operands m.toStore length met
      rw [made]
      exact ⟨_, rfl⟩
    · intro unmet
      rw [cut] at unmet ⊢
      obtain ⟨f, fails, real, blames⟩ := governs.failed m.here below operands m.toStore length unmet
      refine ⟨f, ?_, blames⟩
      rw [fails]
      exact congrArg (Outcome.failed f) (by rw [real]; rfl)

/-- An index below zero that is too long to be written is refused without a text. -/
theorem callNative_pick_of_long (call : Caller) {m : Machine} {below : List Value} {n : Int}
    (stack : m.stack.toList = below ++ [.int n]) (negative : n < 0)
    (long : Number.decimalBound ≤ n.natAbs) :
    m.callNative call "pick" ⟨.primitive .pick, 1, true⟩ = .failed (.tooManyDigits none) m := by
  have read : (m.toStore.having below).readCount "pick" (.int n) =
      .error (.tooManyDigits none) := by
    rw [Store.readCount, if_pos negative, Value.quoting, Value.literal_of_long _ long]
  have refused : (m.toStore.having below).pick (.int n) = .error (.tooManyDigits none) := by
    rw [Store.pick, read]
    rfl
  refine (callNative_primitive call "pick" .pick true stack).trans ?_
  rw [Primitive.apply, refused]
  rfl

/-- How the ten words end, in any state and on any data stack, run by themselves or at a cell of
code.  A word fails exactly if its demand is not met.  The machine stays as it is then.  The fault
is a stack underflow if values are lacking, and an invalid argument if the value on top is refused;
but if the number of values that are needed has too many digits, or the value that is refused has
no text, then it is a fault that is not the machine's own. -/
theorem settles_demand (call : Caller) (m : Machine) {w : Word} {d : Demand}
    (asks : (w, d) ∈ Builtin.demands) {entry : Nat} {immediate : Bool}
    (known : m.dictionary.get? entry = some { w with immediate := immediate }) :
    d.Settles w.name m (m.executeEntry call entry) ∧
      (∀ base, m.current? = some (.native entry) → ∃ resume o,
        m.turn base = .ofOutcome o ∧ d.Settles w.name { m with ip := some resume } o) ∧
      ∀ f, d.Blames m.slots w.name m.stack.toList f →
        f.kind = .stackUnderflow ∧ (∃ needed available, d.Lacks m.stack.toList needed available) ∨
          f.kind = .invalidArgument ∧ (∃ v wording, d.Refuses m.stack.toList v wording) ∨
          f.kind.isOwn = false ∧
            ((∃ needed available, d.Lacks m.stack.toList needed available ∧
                Number.decimalBound ≤ needed) ∨
              ∃ v wording, d.Refuses m.stack.toList v wording ∧ v.literal m.slots = .error f) := by
  obtain ⟨p, pushesNone, same, governs⟩ := Builtin.exists_governs asks
  rw [same] at known
  refine ⟨?_, fun base at_ => ?_, fun f blames => blames.kind⟩
  · rw [executeEntry_native call known]
    exact settles_callNative call m pushesNone governs
  · obtain ⟨resume, turned⟩ := turn_of_primitive base at_ known rfl
    exact ⟨resume, _, turned,
      settles_callNative call { m with ip := some resume } pushesNone governs⟩

/-- A machine with a cell below a text, at a cell of code that loads. -/
def mistaken : Machine :=
  { Machine.bare 16 false with
    stack := .ofList [.cell 0, .text "a"]
    slots := #[.int 7]
    code := #[.native 14]
    ip := some 0 }

/-- A text is no cell to load from, but it can be dropped. -/
theorem settles_demand_mistaken :
    (∃ f, mistaken.executeEntry Host.caller 14 = .failed f mistaken ∧
        (Demand.cell "load" 1).Blames #[.int 7] "load" [.cell 0, .text "a"] f) ∧
      (∃ resume f, mistaken.turn 0 =
        .ofOutcome (.failed f { mistaken with ip := some resume })) ∧
      ∃ after, mistaken.executeEntry Host.caller 1 = .done () after := by
  have loads : mistaken.dictionary.get? 14 =
      some { Builtin.passing "load" .load with immediate := false } := by decide +kernel
  have drops : mistaken.dictionary.get? 1 =
      some { Builtin.plain "drop" .drop with immediate := false } := by decide +kernel
  have loading := settles_demand Host.caller mistaken (d := .cell "load" 1)
    (by simp [Builtin.demands]) loads
  have dropping := settles_demand Host.caller mistaken (d := .values 1)
    (by simp [Builtin.demands]) drops
  have unmet : ¬ (Demand.cell "load" 1).Met ([.cell 0] ++ [.text "a"]) := by
    intro met
    generalize same : [Value.cell 0] ++ [Value.text "a"] = values at met
    cases met with
    | cell below slot =>
      obtain ⟨-, other⟩ := List.append_singleton_inj.mp same
      cases other
  obtain ⟨resume, o, turned, ends⟩ := loading.2.1 0 rfl
  obtain ⟨f, fails, -⟩ := ends.failed unmet
  exact ⟨loading.1.failed unmet, ⟨resume, f, by rw [turned, fails]⟩,
    dropping.1.done (.values (Nat.le_succ 1))⟩

end Machine

namespace Session

/-- A machine with an index that is below zero and too long to be written. -/
def unwritable : Machine :=
  { Machine.fresh 16 false false with stack := .ofList [.int (-Number.decimalBound)] }

/-- Such an index is refused, and there is no text to say so; the fault is not the machine's own. -/
theorem pick_unshown :
    play [.push [.int (-Number.decimalBound)]] (Machine.fresh 16 false false) = unwritable ∧
      executeWord "pick" unwritable = .failed (.tooManyDigits none) unwritable ∧
      (Fault.tooManyDigits none).kind = .wrongValue := by
  have meant : unwritable.lookup "pick" = .ok 5 := by decide +kernel
  have known : unwritable.dictionary.get? 5 =
      some ⟨"pick", false, .native ⟨.primitive .pick, 1, true⟩⟩ := by decide +kernel
  have negative : (-Number.decimalBound : Int) < 0 := by decide +kernel
  have long : Number.decimalBound ≤ (-Number.decimalBound : Int).natAbs :=
    Nat.le_of_eq (by rw [Int.natAbs_neg, Int.natAbs_natCast])
  refine ⟨by decide +kernel, ?_, rfl⟩
  have stack : unwritable.stack.toList = [] ++ [.int (-Number.decimalBound)] :=
    Stack.toList_ofList _
  rw [executeWord, Machine.executeWord, meant]
  exact (Machine.executeEntry_native Host.caller known).trans
    (Machine.callNative_pick_of_long Host.caller stack negative long)

end Session
end ThreadedForth
