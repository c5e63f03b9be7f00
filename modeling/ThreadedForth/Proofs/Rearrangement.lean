import ThreadedForth.Proofs.Accounts
import ThreadedForth.Proofs.Below
import ThreadedForth.Proofs.Layout
import ThreadedForth.Proofs.Showing

/-!
# Rearranging the data stack

Some operations rearrange the data stack by a count or an index, and one takes a list or tuple
apart.  What they do is said here by lists, with the oldest value first: the stack is cut in two,
or in two with a value between them, and the parts are put together again (`Rearranges`).  A count
or index is the length of the upper part.

The same work can be asked for in two ways.  The operation can be carried out from outside, with
the count or index handed in (`Rearrangement.operation`); and all but the popping of values have a
built-in word, which finds its operand on top of the stack that it rearranges
(`Rearrangement.word?`).  The two ways handle results differently.  From outside a result is
returned.  A word pushes the result it has, which may be the absent value, and the words that have
no result push nothing.

* `Rearrangement.fits_iff`: a rearrangement is defined exactly where the count or index is an
  integer that is not below zero and not too large for the stack, or where there is a list or tuple
  on top;
* `Rearrangement.perform_of_rearranges`, `Rearrangement.exists_perform_error`: what the store does;
* `Machine.rearrangement_correct`: both ways do what the lists say, and where the rearrangement is
  not defined both fail and leave everything as it is.
-/

namespace ThreadedForth

open Session (Operation Result)

/-! ## Stacks as lists -/

namespace Stack

variable {α : Type}

/-- The stack that holds the items of a list, the last one on top. -/
def ofList (as : List α) : Stack α := empty.pushAll as

@[simp] theorem toList_ofList (as : List α) : (ofList as).toList = as := by
  simp [ofList, toList]

@[simp] theorem ofList_toList (s : Stack α) : ofList s.toList = s := by
  ext1
  simp [ofList, toList]

@[simp] theorem depth_ofList (as : List α) : (ofList as).depth = as.length := by
  simp [ofList]

theorem length_toList (s : Stack α) : s.toList.length = s.depth := by
  rw [toList, List.length_reverse, s.depth_eq]

theorem ofList_append (as bs : List α) : ofList (as ++ bs) = (ofList as).pushAll bs := by
  ext1
  simp [ofList]

theorem ofList_concat (as : List α) (a : α) : ofList (as ++ [a]) = (ofList as).push a := by
  ext1
  simp [ofList]

theorem pop?_ofList_concat (as : List α) (a : α) :
    (ofList (as ++ [a])).pop? = some (a, ofList as) := by
  rw [ofList_concat, pop?_push]

theorem take_ofList (as bs : List α) :
    (ofList (as ++ bs)).take bs.length = (bs, ofList as) := by
  rw [ofList_append, take_of_pushAll]

theorem getD_ofList (as bs : List α) (a default : α) :
    (ofList (as ++ a :: bs)).items.getD bs.length default = a := by
  simp [ofList]

theorem eraseIdx_ofList (as bs : List α) (a : α) :
    (ofList (as ++ a :: bs)).eraseIdx bs.length = ofList (as ++ bs) := by
  ext1
  simp [ofList, List.eraseIdx_append_of_length_le]

end Stack

/-- The store with another data stack, which is given with the oldest value first. -/
def Store.having (values : List Value) (s : Store) : Store := { s with stack := .ofList values }

/-- The machine with another data stack, which is given with the oldest value first. -/
def Machine.having (values : List Value) (m : Machine) : Machine :=
  { m with stack := .ofList values }

/-- The value is a list or tuple. -/
def Value.IsComposite (v : Value) : Prop :=
  ∃ mark items, v = .list mark items ∨ v = .tuple mark items

/-! ## What is done to the data stack -/

/-- The operations that rearrange the data stack by a count or an index, and the one that takes a
list or tuple apart. -/
inductive Rearrangement where
  | pop (count : Value)
  | gather (count : Value)
  | spread
  | pluck (index : Value)
  | pick (index : Value)

/-- What a rearrangement makes of a data stack: its result, if it has one, and the data stack that
is left.  A list that is made takes the mark `mark`, and `next` is the next mark after that. -/
inductive Rearranges (mark : Nat) :
    Rearrangement → (before : List Value) → (result : Option Value) → (after : List Value) →
      (next : Nat) → Prop where
  /-- A single value is taken off as it is. -/
  | popOne (rest : List Value) (v : Value) :
      Rearranges mark (.pop (.int 1)) (rest ++ [v]) (some v) rest mark
  /-- Any other number of values is taken off as a list. -/
  | pop (rest values : List Value) (no_single : values.length ≠ 1) :
      Rearranges mark (.pop (.int values.length)) (rest ++ values) (some (.list mark values)) rest
        (mark + 1)
  | gather (rest values : List Value) :
      Rearranges mark (.gather (.int values.length)) (rest ++ values) none
        (rest ++ [.list mark values]) (mark + 1)
  | spreadList (rest items : List Value) (own : Nat) :
      Rearranges mark .spread (rest ++ [.list own items]) none (rest ++ items) mark
  | spreadTuple (rest items : List Value) (own : Nat) :
      Rearranges mark .spread (rest ++ [.tuple own items]) none (rest ++ items) mark
  | pluck (rest above : List Value) (v : Value) :
      Rearranges mark (.pluck (.int above.length)) (rest ++ v :: above) (some v) (rest ++ above)
        mark
  | pick (rest above : List Value) (v : Value) :
      Rearranges mark (.pick (.int above.length)) (rest ++ v :: above) (some v)
        (rest ++ v :: above) mark

namespace Rearrangement

/-- Whether a rearrangement can be done on a data stack: the count is that of values which are
there, the index that of one of them, and what is to be taken apart is a list or tuple. -/
def Fits : Rearrangement → List Value → Prop
  | pop count, values | gather count, values => ∃ n : Nat, count = .int n ∧ n ≤ values.length
  | pluck index, values | pick index, values => ∃ i : Nat, index = .int i ∧ i < values.length
  | spread, values => ∃ rest v, values = rest ++ [v] ∧ v.IsComposite

/-- A list is cut so that the upper part has a given length. -/
theorem exists_cut {n : Nat} {values : List Value} (enough : n ≤ values.length) :
    ∃ rest above, values = rest ++ above ∧ above.length = n := by
  refine ⟨values.take (values.length - n), values.drop (values.length - n),
    (List.take_append_drop ..).symm, ?_⟩
  rw [List.length_drop]
  omega

/-- A list is cut around the value that has a given number of values above it. -/
theorem exists_cut_around {i : Nat} {values : List Value} (inside : i < values.length) :
    ∃ rest v above, values = rest ++ v :: above ∧ above.length = i := by
  obtain ⟨rest, above, rfl, length⟩ := exists_cut (Nat.succ_le_of_lt inside)
  cases above with
  | nil => cases length
  | cons v above => exact ⟨rest, v, above, rfl, Nat.succ.inj length⟩

/-- A rearrangement is defined exactly where it fits. -/
theorem fits_iff (mark : Nat) (r : Rearrangement) (values : List Value) :
    r.Fits values ↔ ∃ result after next, Rearranges mark r values result after next := by
  constructor
  · intro fits
    cases r with
    | pop count =>
      obtain ⟨n, rfl, enough⟩ := fits
      obtain ⟨rest, above, rfl, rfl⟩ := exists_cut enough
      by_cases single : above.length = 1
      · obtain ⟨v, rfl⟩ := List.length_eq_one_iff.mp single
        exact ⟨_, _, _, .popOne rest v⟩
      · exact ⟨_, _, _, .pop rest above single⟩
    | gather count =>
      obtain ⟨n, rfl, enough⟩ := fits
      obtain ⟨rest, above, rfl, rfl⟩ := exists_cut enough
      exact ⟨_, _, _, .gather rest above⟩
    | spread =>
      obtain ⟨rest, v, rfl, own, items, rfl | rfl⟩ := fits
      · exact ⟨_, _, _, .spreadList rest items own⟩
      · exact ⟨_, _, _, .spreadTuple rest items own⟩
    | pluck index =>
      obtain ⟨i, rfl, inside⟩ := fits
      obtain ⟨rest, v, above, rfl, rfl⟩ := exists_cut_around inside
      exact ⟨_, _, _, .pluck rest above v⟩
    | pick index =>
      obtain ⟨i, rfl, inside⟩ := fits
      obtain ⟨rest, v, above, rfl, rfl⟩ := exists_cut_around inside
      exact ⟨_, _, _, .pick rest above v⟩
  · rintro ⟨result, after, next, rearranges⟩
    cases rearranges with
    | popOne rest v => exact ⟨1, rfl, by simp⟩
    | pop rest values => exact ⟨values.length, rfl, by simp⟩
    | gather rest values => exact ⟨values.length, rfl, by simp⟩
    | spreadList rest items own => exact ⟨rest, _, rfl, own, items, .inl rfl⟩
    | spreadTuple rest items own => exact ⟨rest, _, rfl, own, items, .inr rfl⟩
    | pluck rest above v => exact ⟨above.length, rfl, by simp; omega⟩
    | pick rest above v => exact ⟨above.length, rfl, by simp; omega⟩

/-! ## The work of the store -/

/-- The work that stands behind a rearrangement, whichever way it is asked for. -/
def perform : Rearrangement → Store → Except Fault (Option Value × Store)
  | pop count, s => (s.pop count).map fun (v, t) => (some v, t)
  | gather count, s => (s.gather count).map fun t => (none, t)
  | spread, s => s.spread.map fun t => (none, t)
  | pluck index, s => (s.pluck index).map fun (v, t) => (some v, t)
  | pick index, s => (s.pick index).map fun v => (some v, s)

end Rearrangement

/-- The value is no count, and this is how the word `word` refuses it. -/
inductive Value.Miscounts (word : String) : Value → (String → Fault) → Prop where
  | negative {n : Int} (negative : n < 0) : Miscounts word (.int n) (.negativeCount word)
  | noInteger {v : Value} (other : ∀ n, v ≠ .int n) : Miscounts word v (.notAnInteger word)

namespace Value.Miscounts

variable {word : String} {v : Value} {wording : String → Fault}

theorem kind (miscounts : v.Miscounts word wording) (shown : String) :
    (wording shown).kind = .invalidArgument := by
  cases miscounts with
  | negative => rfl
  | noInteger => rfl

theorem isInterrupt (miscounts : v.Miscounts word wording) (shown : String) :
    (wording shown).isInterrupt = false := by
  rw [Fault.isInterrupt, miscounts.kind]
  rfl

end Value.Miscounts

namespace Store

variable (s : Store) (word : String)

theorem readCount_int (n : Nat) : s.readCount word (.int n) = .ok n := by
  have natural : ¬ (n : Int) < 0 := Int.not_lt.mpr (Int.natCast_nonneg n)
  simp only [readCount, if_neg natural, Int.toNat_natCast]

/-- A value that is no count is refused. -/
theorem readCount_of_wrong {v : Value} (wrong : ∀ n : Nat, v ≠ .int n) :
    ∃ wording, v.Miscounts word wording ∧
      s.readCount word v = .error (v.quoting s.slots wording) := by
  cases v with
  | int n =>
    have negative : n < 0 := by
      by_contra natural
      exact wrong n.toNat (by rw [Int.toNat_of_nonneg (by omega)])
    exact ⟨.negativeCount word, .negative negative, if_pos negative⟩
  | none | bool | float | nan | text | list | tuple | cell =>
    exact ⟨.notAnInteger word, .noInteger nofun, rfl⟩

/-- Work that begins with a count and asks for that many values, or for so many more, goes on with
the count, or there are too few values, or the value is no count. -/
theorem counted_cases {α : Type} (v : Value) (more : Nat) (name : Option String)
    (next : Nat → Except Fault α) :
    let work := s.readCount word v >>= fun n => s.require (n + more) name >>= fun _ => next n
    (∃ n : Nat, v = .int n ∧ n + more ≤ s.stack.depth ∧ work = next n) ∨
      (∃ n : Nat, v = .int n ∧ s.stack.depth < n + more ∧
        work = .error (.short (n + more) s.stack.depth name)) ∨
      ∃ wording, v.Miscounts word wording ∧ work = .error (v.quoting s.slots wording) := by
  intro work
  by_cases count : ∃ n : Nat, v = .int n
  · obtain ⟨n, rfl⟩ := count
    have counted : work = s.require (n + more) name >>= fun _ => next n :=
      bind_of_ok (s.readCount_int word n)
    by_cases short : s.stack.depth < n + more
    · exact .inr (.inl ⟨n, rfl, short, by rw [counted, require, if_pos short]; rfl⟩)
    · exact .inl ⟨n, rfl, Nat.le_of_not_lt short, by rw [counted, require, if_neg short]; rfl⟩
  · obtain ⟨wording, miscounts, refused⟩ :=
      s.readCount_of_wrong word fun n same => count ⟨n, same⟩
    exact .inr (.inr ⟨wording, miscounts, by simp only [work, refused]; rfl⟩)

/-- Work that begins with a count fails if there are not so many values, or if it is none. -/
theorem exists_counted_error {α : Type} (v : Value) (more : Nat) (name : Option String)
    (next : Nat → Except Fault α) (unfit : ¬ ∃ n : Nat, v = .int n ∧ n + more ≤ s.stack.depth) :
    ∃ f, (s.readCount word v >>= fun n => s.require (n + more) name >>= fun _ => next n) =
        .error f ∧ f.isInterrupt = false := by
  rcases s.counted_cases word v more name next with
    ⟨n, same, enough, -⟩ | ⟨n, -, -, fails⟩ | ⟨wording, miscounts, fails⟩
  · exact absurd ⟨n, same, enough⟩ unfit
  · exact ⟨_, fails, Fault.isInterrupt_short _ _ _⟩
  · exact ⟨_, fails, v.isInterrupt_quoting s.slots miscounts.isInterrupt⟩

theorem take_having (rest values : List Value) :
    (s.having (rest ++ values)).take values.length = (values, s.having rest) := by
  simp only [take, having, Stack.take_ofList]

/-- Work that begins with a count goes on if there are so many values. -/
theorem counted_of_le {α : Type} (n more : Nat) (name : Option String)
    (next : Nat → Except Fault α) (enough : n + more ≤ s.stack.depth) :
    (s.readCount word (.int n) >>= fun n => s.require (n + more) name >>= fun _ => next n) =
      next n := by
  rw [bind_of_ok (s.readCount_int word n), require, if_neg (Nat.not_lt.mpr enough)]
  rfl

@[simp] theorem depth_having (values : List Value) :
    (s.having values).stack.depth = values.length :=
  Stack.depth_ofList values

theorem pop_having_single (rest : List Value) (v : Value) :
    (s.having (rest ++ [v])).pop (.int 1) = .ok (v, s.having rest) := by
  have taken : (s.having (rest ++ [v])).take 1 = ([v], s.having rest) := s.take_having rest [v]
  refine ((s.having (rest ++ [v])).counted_of_le "pop" 1 0 none _ (by simp)).trans ?_
  rw [taken]
  rfl

theorem pop_having (rest values : List Value) (no_single : values.length ≠ 1) :
    (s.having (rest ++ values)).pop (.int values.length) =
      .ok (.list s.nextMark values, (s.having rest).advance) := by
  refine ((s.having _).counted_of_le "pop" values.length 0 none _ (by simp)).trans ?_
  rw [s.take_having rest values]
  split
  · next single _ same =>
    cases same
    exact absurd rfl no_single
  · next same =>
    cases same
    rfl

theorem gather_having (rest values : List Value) :
    (s.having (rest ++ values)).gather (.int values.length) =
      .ok (s.advance.having (rest ++ [.list s.nextMark values])) := by
  refine ((s.having _).counted_of_le "gather" values.length 0 _ _ (by simp)).trans ?_
  rw [s.take_having rest values]
  simp only [having, Stack.ofList_concat]
  rfl

theorem spread_having {rest items : List Value} {v : Value} {own : Nat}
    (composite : v = .list own items ∨ v = .tuple own items) :
    (s.having (rest ++ [v])).spread = .ok (s.having (rest ++ items)) := by
  have top : (s.having (rest ++ [v])).stack.pop? = some (v, .ofList rest) :=
    Stack.pop?_ofList_concat rest v
  unfold spread
  rw [top]
  rcases composite with rfl | rfl
  all_goals
    simp only [having, Stack.ofList_append]

/-- What is neither a list nor a tuple is not taken apart. -/
theorem spread_having_of_wrong (rest : List Value) {v : Value} (wrong : ¬ v.IsComposite) :
    (s.having (rest ++ [v])).spread = .error (v.quoting s.slots .notAComposite) := by
  have top : (s.having (rest ++ [v])).stack.pop? = some (v, .ofList rest) :=
    Stack.pop?_ofList_concat rest v
  unfold spread
  rw [top]
  cases v with
  | list own items => exact absurd ⟨own, items, .inl rfl⟩ wrong
  | tuple own items => exact absurd ⟨own, items, .inr rfl⟩ wrong
  | none | bool | int | float | nan | text | cell => rfl

theorem pluck_having (rest above : List Value) (v : Value) :
    (s.having (rest ++ v :: above)).pluck (.int above.length) =
      .ok (v, s.having (rest ++ above)) := by
  refine ((s.having _).counted_of_le "pluck" above.length 1 _ _ (by simp)).trans ?_
  simp only [having, Stack.getD_ofList, Stack.eraseIdx_ofList]
  rfl

theorem pick_having (rest above : List Value) (v : Value) :
    (s.having (rest ++ v :: above)).pick (.int above.length) = .ok v := by
  refine ((s.having _).counted_of_le "pick" above.length 1 _ _ (by simp)).trans ?_
  simp only [nth, having, Stack.getD_ofList]
  rfl

end Store

namespace Rearrangement

variable {r : Rearrangement} {values : List Value}

/-- Where a rearrangement is defined, the store does it. -/
theorem perform_of_rearranges (s : Store) {result : Option Value} {after : List Value}
    {next : Nat} (rearranges : Rearranges s.nextMark r values result after next) :
    r.perform (s.having values) = .ok (result, { s with nextMark := next }.having after) := by
  cases rearranges with
  | popOne _ v =>
    rw [perform, s.pop_having_single after v]
    rfl
  | pop _ above no_single =>
    rw [perform, s.pop_having after above no_single]
    rfl
  | gather rest above =>
    rw [perform, s.gather_having rest above]
    rfl
  | spreadList rest items own =>
    rw [perform, s.spread_having (.inl rfl)]
    rfl
  | spreadTuple rest items own =>
    rw [perform, s.spread_having (.inr rfl)]
    rfl
  | pluck rest above v =>
    rw [perform, s.pluck_having rest above v]
    rfl
  | pick rest above v =>
    rw [perform, s.pick_having rest above v]
    rfl

/-- Where it is not defined, the store refuses it, and not because of an interrupt. -/
theorem exists_perform_error (s : Store) (unfit : ¬ r.Fits values) :
    ∃ f, r.perform (s.having values) = .error f ∧ f.isInterrupt = false := by
  cases r with
  | pop count =>
    obtain ⟨f, fails, real⟩ := (s.having values).exists_counted_error "pop" count 0 none _
      (by rwa [s.depth_having])
    exact ⟨f, congrArg (Except.map _) fails, real⟩
  | gather count =>
    obtain ⟨f, fails, real⟩ := (s.having values).exists_counted_error "gather" count 0 _ _
      (by rwa [s.depth_having])
    exact ⟨f, congrArg (Except.map _) fails, real⟩
  | spread =>
    rcases List.eq_nil_or_concat values with rfl | ⟨rest, v, rfl⟩
    · exact ⟨_, rfl, rfl⟩
    · rw [List.concat_eq_append] at unfit ⊢
      have wrong : ¬ v.IsComposite := fun composite => unfit ⟨rest, v, rfl, composite⟩
      have fails := s.spread_having_of_wrong rest wrong
      exact ⟨_, congrArg (Except.map _) fails, v.isInterrupt_quoting s.slots fun _ => rfl⟩
  | pluck index =>
    obtain ⟨f, fails, real⟩ := (s.having values).exists_counted_error "pluck" index 1 _ _
      (by rwa [s.depth_having])
    exact ⟨f, congrArg (Except.map _) fails, real⟩
  | pick index =>
    obtain ⟨f, fails, real⟩ := (s.having values).exists_counted_error "pick" index 1 _ _
      (by rwa [s.depth_having])
    exact ⟨f, congrArg (Except.map _) fails, real⟩

/-! ## The two ways -/

/-- The rearrangement as an operation from outside. -/
def operation : Rearrangement → Operation
  | pop count => .pop count
  | gather count => .gather count
  | spread => .spread
  | pluck index => .pluck index
  | pick index => .pick index

/-- The built-in word of a rearrangement, and what it takes from the data stack first.  There is
none that pops values. -/
def word? : Rearrangement → Option (Word × List Value)
  | pop _ => none
  | gather count => some (Builtin.plain "gather" .gather, [count])
  | spread => some (Builtin.plain "spread" .spread, [])
  | pluck index => some (Builtin.passing "pluck" .pluck, [index])
  | pick index => some (Builtin.passing "pick" .pick, [index])

/-- The operation ends as the lists say: the result is returned, the absent one when there is none,
and what cannot be done fails and changes nothing. -/
structure EndsOperation (r : Rearrangement) (m : Machine) (o : Outcome Result) : Prop where
  done : ∀ result after next, Rearranges m.nextMark r m.stack.toList result after next →
    o = .done (.value (result.getD .none)) ({ m with nextMark := next }.having after)
  failed : ¬ r.Fits m.stack.toList → ∃ f, o = .failed f m

/-- The word ends as the lists say, for the values below its operands: the result is pushed, also
when it is the absent value, and what cannot be done fails and changes nothing. -/
structure EndsWord (r : Rearrangement) (operands : List Value) (m : Machine) (o : Outcome Unit) :
    Prop where
  done : ∀ below result after next, m.stack.toList = below ++ operands →
    Rearranges m.nextMark r below result after next →
      o = .done () ({ m with nextMark := next }.having (after ++ result.toList))
  failed : ∀ below, m.stack.toList = below ++ operands → ¬ r.Fits below → ∃ f, o = .failed f m
  short : m.stack.depth < operands.length → ∃ f, o = .failed f m

end Rearrangement

namespace Machine

variable {m : Machine} {r : Rearrangement}

theorem having_toList (m : Machine) : m.having m.stack.toList = m := by
  rw [having, Stack.ofList_toList]

/-- From outside, the work of the store is all there is to it. -/
theorem carryOut_rearrangement (m : Machine) (r : Rearrangement) :
    r.operation.carryOut m =
      .ofStore m ((r.perform m.toStore).map fun (result, t) =>
        (.value (result.getD .none), t)) := by
  cases r with
  | pop count =>
    simp only [Rearrangement.operation, Operation.carryOut, Session.pop, Rearrangement.perform,
      Session.onStore_whole (Routine.pop_eq count)]
    cases m.toStore.pop count <;> rfl
  | gather count =>
    simp only [Rearrangement.operation, Operation.carryOut, Session.gather, Rearrangement.perform,
      Session.onStore_change (Routine.gather_eq count)]
    cases m.toStore.gather count <;> rfl
  | spread =>
    simp only [Rearrangement.operation, Operation.carryOut, Session.spread, Rearrangement.perform,
      Session.onStore_change Routine.spread_eq]
    cases m.toStore.spread <;> rfl
  | pluck index =>
    simp only [Rearrangement.operation, Operation.carryOut, Session.pluck, Rearrangement.perform,
      Session.onStore_whole (Routine.pluck_eq index)]
    cases m.toStore.pluck index <;> rfl
  | pick index =>
    simp only [Rearrangement.operation, Operation.carryOut, Session.pick, Rearrangement.perform]
    cases m.toStore.pick index <;> rfl

theorem endsOperation (m : Machine) (r : Rearrangement) :
    r.EndsOperation m (r.operation.carryOut m) where
  done result after next rearranges := by
    have performed := r.perform_of_rearranges m.toStore rearranges
    rw [Store.having, Stack.ofList_toList] at performed
    rw [carryOut_rearrangement, performed]
    rfl
  failed unfit := by
    obtain ⟨f, fails, -⟩ := r.exists_perform_error m.toStore unfit
    rw [Store.having, Stack.ofList_toList] at fails
    exact ⟨f, by rw [carryOut_rearrangement, fails]; rfl⟩

/-! ## Words that find their operands on the stack -/

/-- A native word that is a primitive takes its operands off and puts them back if it fails. -/
theorem callNative_primitive (call : Caller) (name : String) (p : Primitive) (pushesNone : Bool)
    {below operands : List Value} (stack : m.stack.toList = below ++ operands) :
    m.callNative call name ⟨.primitive p, operands.length, pushesNone⟩ =
      match p.apply m.here operands (m.toStore.having below) with
      | .ok (v, t) =>
        .done () (pushResult ⟨.primitive p, operands.length, pushesNone⟩ v { m with toStore := t })
      | .error f => .failed f (if f.isInterrupt then m.having below else m) := by
  have whole : (m.having below).pushAll operands = m := by
    have same := m.having_toList
    rwa [stack, having, Stack.ofList_append] at same
  have enough : ¬ m.stack.depth < operands.length := by
    rw [← Stack.length_toList, stack, List.length_append]
    omega
  have taken : m.toStore.take operands.length = (operands, m.toStore.having below) := by
    have same := m.toStore.take_having below operands
    rwa [← stack, Store.having, Stack.ofList_toList] at same
  unfold callNative callWith
  rw [if_neg enough, taken]
  show ((p.perform operands (m.having below)).onFault (pushAll operands)).bind _ = _
  rw [Primitive.perform_eq]
  show ((Outcome.ofStore (m.having below)
    (p.apply m.here operands (m.toStore.having below))).onFault (pushAll operands)).bind _ = _
  cases p.apply m.here operands (m.toStore.having below) with
  | ok made => rfl
  | error f => simp only [Outcome.ofStore, Outcome.onFault, Outcome.bind_failed, whole]

/-- Without its operands a native word fails and changes nothing. -/
theorem callNative_short (call : Caller) (name : String) {n : Native}
    (short : m.stack.depth < n.arity) :
    m.callNative call name n = .failed (.short n.arity m.stack.depth (some name)) m := by
  unfold callNative callWith
  rw [if_pos short]

end Machine

namespace Rearrangement

variable {r : Rearrangement} {w : Word} {operands : List Value}

/-- Whether a rearrangement has a result. -/
def hasResult : Rearrangement → Bool
  | pop _ | pluck _ | pick _ => true
  | gather _ | spread => false

theorem isSome_of_perform {s t : Store} {result : Option Value}
    (performed : r.perform s = .ok (result, t)) : result.isSome = r.hasResult := by
  cases r with
  | pop count | pluck index | pick index | gather count | spread =>
    obtain ⟨_, -, made⟩ := exists_of_map_ok performed
    cases made
    rfl

/-- The word of a rearrangement is a primitive that does the same work, and it pushes absent values
exactly if there are results. -/
theorem exists_primitive (has : r.word? = some (w, operands)) :
    ∃ p, w.body = .native ⟨.primitive p, operands.length, r.hasResult⟩ ∧
      ∀ here s, p.apply here operands s =
        (r.perform s).map fun (result, t) => (result.getD .none, t) := by
  cases r with
  | pop count => cases has
  | gather count =>
    cases has
    refine ⟨.gather, rfl, fun here s => ?_⟩
    simp only [Primitive.apply, perform]
    cases s.gather count <;> rfl
  | spread =>
    cases has
    refine ⟨.spread, rfl, fun here s => ?_⟩
    simp only [Primitive.apply, perform]
    cases s.spread <;> rfl
  | pluck index =>
    cases has
    refine ⟨.pluck, rfl, fun here s => ?_⟩
    simp only [Primitive.apply, perform]
    cases s.pluck index <;> rfl
  | pick index =>
    cases has
    refine ⟨.pick, rfl, fun here s => ?_⟩
    simp only [Primitive.apply, perform]
    cases s.pick index <;> rfl

end Rearrangement

namespace Machine

variable {m : Machine} {r : Rearrangement} {w : Word} {operands : List Value}

/-- A result is pushed if the word has one, also when it is the absent value. -/
theorem pushResult_having (n : Native) {result : Option Value} (after : List Value)
    (pushes : result.isSome = n.pushesNone) :
    pushResult n (result.getD .none) (m.having after) = m.having (after ++ result.toList) := by
  unfold pushResult
  rw [← pushes]
  cases result with
  | none => simp
  | some v => simp [having, pushAll, Store.pushAll, Stack.ofList_append]

/-- A call of the word does what the lists say. -/
theorem endsWord_callNative (call : Caller) (name : String) {p : Primitive}
    (applies : ∀ here s, p.apply here operands s =
      (r.perform s).map fun (result, t) => (result.getD .none, t)) :
    r.EndsWord operands m
      (m.callNative call name ⟨.primitive p, operands.length, r.hasResult⟩) where
  done below result after next stack rearranges := by
    have performed := r.perform_of_rearranges m.toStore rearranges
    rw [callNative_primitive call name p r.hasResult stack, applies, performed]
    exact congrArg (Outcome.done ()) (pushResult_having (m := { m with nextMark := next }) _ after
      (Rearrangement.isSome_of_perform performed))
  failed below stack unfit := by
    obtain ⟨f, fails, real⟩ := r.exists_perform_error m.toStore unfit
    refine ⟨f, ?_⟩
    rw [callNative_primitive call name p r.hasResult stack, applies, fails]
    exact congrArg (Outcome.failed f) (by rw [real]; rfl)
  short few := ⟨_, callNative_short call name few⟩

/-- The operations that rearrange the data stack do what the lists say, and so do their words, run
by themselves or at a cell of code.  The lists say something exactly where the count or index is an
integer that is not below zero and not too large for the stack, or where a list or tuple is on top;
otherwise both ways fail, and the machine is left as it is, with the operands of the word. -/
theorem rearrangement_correct (call : Caller) (m : Machine) (r : Rearrangement) :
    (∀ values, r.Fits values ↔
        ∃ result after next, Rearranges m.nextMark r values result after next) ∧
      r.EndsOperation m (r.operation.carryOut m) ∧
      ∀ w operands, r.word? = some (w, operands) → ∀ entry immediate,
        m.dictionary.get? entry = some { w with immediate := immediate } →
          r.EndsWord operands m (m.executeEntry call entry) ∧
          ∀ base, m.current? = some (.native entry) →
            ∃ resume o, m.turn base = .ofOutcome o ∧
              r.EndsWord operands { m with ip := some resume } o := by
  refine ⟨Rearrangement.fits_iff m.nextMark r, endsOperation m r, ?_⟩
  intro w operands has entry immediate known
  obtain ⟨p, body, applies⟩ := Rearrangement.exists_primitive has
  rw [body] at known
  refine ⟨?_, fun base at_ => ?_⟩
  · rw [executeEntry_native call known]
    exact endsWord_callNative call w.name applies
  · obtain ⟨resume, turned⟩ := turn_of_primitive base at_ known rfl
    exact ⟨resume, _, turned, endsWord_callNative call w.name applies⟩

/-- A machine that is to pluck the absent value from below a text. -/
def plucking : Machine :=
  { Machine.bare 16 false with
    stack := .ofList [.none, .text "a", .int 1]
    code := #[.native 4]
    ip := some 0 }

/-- The absent value is pushed like any other; and a truth value is no count, although there is
something to pop. -/
theorem rearrangement_correct_plucking :
    plucking.executeEntry Host.caller 4 = .done () (plucking.having [.text "a", .none]) ∧
      (∃ resume, plucking.turn 0 =
        .ofOutcome (.done () ({ plucking with ip := some resume }.having [.text "a", .none]))) ∧
      ∃ f, (Operation.pop (.bool true)).carryOut plucking = .failed f plucking := by
  have known : plucking.dictionary.get? 4 =
      some { Builtin.passing "pluck" .pluck with immediate := false } := by decide +kernel
  have rotates : Rearranges plucking.nextMark (.pluck (.int 1)) [.none, .text "a"] (some .none)
      [.text "a"] plucking.nextMark := .pluck [] [.text "a"] .none
  obtain ⟨word, cell⟩ :=
    (rearrangement_correct Host.caller plucking (.pluck (.int 1))).2.2 _ _ rfl 4 false known
  obtain ⟨resume, o, turned, ends⟩ := cell 0 rfl
  have unfit : ¬ (Rearrangement.pop (.bool true)).Fits plucking.stack.toList := nofun
  refine ⟨word.done _ _ _ _ rfl rotates, ⟨resume, ?_⟩,
    (rearrangement_correct Host.caller plucking (.pop (.bool true))).2.1.failed unfit⟩
  rw [turned, ends.done _ _ _ _ rfl rotates]
  rfl

end Machine
end ThreadedForth
