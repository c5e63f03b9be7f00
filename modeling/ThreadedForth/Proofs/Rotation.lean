import Mathlib.Data.List.Rotate
import ThreadedForth.Proofs.Factory
import ThreadedForth.Proofs.Rearrangement

/-!
# Plucking around, gathering and spreading

Three laws of the words that rearrange the data stack, for tokens that are fed while nothing is
compiled.  To pluck at one and the same index turns the upper part of the stack by one value, so
that it comes round after as many steps as it has values.  `gather` and `spread` undo each other.
Only the marks tell that something has been done: a list that is made is a new one, with a mark of
its own.

* `Machine.run_rearranges`: operands and the word of a rearrangement;
* `Machine.run_pluck`: one step turns the upper part by one value;
* `Machine.run_plucks`: any number of steps turn it by that number;
* `Machine.run_restores`: the three laws.
-/

namespace ThreadedForth
namespace Machine

variable {m : Machine} {r : Rearrangement} {w : Word} {operands : List Value}

/-- The name of the built-in word still means it, though the word may be marked as immediate. -/
def Retains (m : Machine) (w : Word) : Prop :=
  ∃ immediate, m.Knows w.name { w with immediate := immediate }

/-- Values that are fed while nothing is compiled go onto the data stack. -/
theorem run_data (call : Caller) (before values : List Value) (idle : m.compiling = false) :
    (m.having before).run call (values.map .datum) = .done () (m.having (before ++ values)) := by
  induction values generalizing before with
  | nil =>
    rw [List.map_nil, run, List.append_nil]
  | cons v values ih =>
    have pushed : (m.having before).interpret call (.datum v) =
        .done () (m.having (before ++ [v])) := by
      refine (interpret_batch_of_idle call (m := m.having before) [v] idle).trans ?_
      simp only [having, Stack.ofList_append]
      rfl
    rw [List.map_cons, run, pushed, Outcome.bind_done, ih (before ++ [v]), List.append_assoc,
      List.singleton_append]

/-- The operands of a word and its name, fed while nothing is compiled, do what the lists say of
the rearrangement. -/
theorem run_rearranges (call : Caller) (idle : m.compiling = false) (retains : m.Retains w)
    (has : r.word? = some (w, operands)) {before : List Value} {result : Option Value}
    {after : List Value} {next : Nat}
    (rearranges : Rearranges m.nextMark r before result after next) :
    (m.having before).run call (operands.map .datum ++ [.word w.name]) =
      .done () ({ m with nextMark := next }.having (after ++ result.toList)) := by
  obtain ⟨p, body, applies⟩ := Rearrangement.exists_primitive has
  obtain ⟨immediate, entry, found, known⟩ := retains
  rw [body] at known
  let loaded := m.having (before ++ operands)
  have executed : loaded.interpretName call w.name =
      loaded.callNative call w.name ⟨.primitive p, operands.length, r.hasResult⟩ :=
    (interpretName_of_idle call (m := loaded) idle found known).trans
      (executeEntry_native call known)
  have ends : r.EndsWord operands loaded
      (loaded.callNative call w.name ⟨.primitive p, operands.length, r.hasResult⟩) :=
    endsWord_callNative call w.name applies
  have called := ends.done before result after next (Stack.toList_ofList _) rearranges
  rw [run_append, run_data call before operands idle, Outcome.bind_done, run_singleton, interpret,
    interpretToken, executed, called]
  rfl

/-- To gather makes a new list of the upper part. -/
theorem run_gather (call : Caller) (below values : List Value) (idle : m.compiling = false)
    (gather : m.Retains (Builtin.plain "gather" .gather)) :
    (m.having (below ++ values)).run call [.datum (.int values.length), .word "gather"] =
      .done () ({ m with nextMark := m.nextMark + 1 }.having
        (below ++ [Value.list m.nextMark values])) := by
  have ran := run_rearranges call idle gather rfl (.gather below values)
  rwa [Option.toList_none, List.append_nil] at ran

/-- To spread puts the items of a list in its place. -/
theorem run_spread (call : Caller) (below items : List Value) (own : Nat)
    (idle : m.compiling = false) (spread : m.Retains (Builtin.plain "spread" .spread)) :
    (m.having (below ++ [.list own items])).run call [.word "spread"] =
      .done () (m.having (below ++ items)) := by
  have ran := run_rearranges call idle spread rfl (.spreadList below items own)
  rwa [Option.toList_none, List.append_nil] at ran

/-! ## Plucking around -/

/-- The tokens that pluck at the index. -/
def plucks (index : Nat) : List Token := [.datum (.int index), .word "pluck"]

/-- To pluck turns the upper part of the data stack by one value. -/
theorem run_pluck (call : Caller) (below above : List Value) (v : Value)
    (idle : m.compiling = false) (pluck : m.Retains (Builtin.passing "pluck" .pluck)) :
    (m.having (below ++ v :: above)).run call (plucks above.length) =
      .done () (m.having (below ++ (above ++ [v]))) := by
  have ran := run_rearranges call idle pluck rfl (.pluck below above v)
  rwa [List.append_assoc] at ran

/-- The induction is on the number of steps, for any upper part of that length. -/
theorem run_plucks (call : Caller) (below : List Value) (index : Nat) (idle : m.compiling = false)
    (pluck : m.Retains (Builtin.passing "pluck" .pluck)) :
    ∀ (steps : Nat) (upper : List Value), upper.length = index + 1 →
      (m.having (below ++ upper)).run call (List.replicate steps (plucks index)).flatten =
        .done () (m.having (below ++ upper.rotate steps)) := by
  intro steps
  induction steps with
  | zero =>
    intro upper _
    rw [List.rotate_zero]
    rfl
  | succ steps ih =>
    intro upper length
    cases upper with
    | nil => cases length
    | cons v above =>
      obtain rfl : above.length = index := Nat.succ.inj length
      have turned : (above ++ [v]).length = above.length + 1 := by simp
      rw [List.replicate_succ, List.flatten_cons, run_append,
        run_pluck call below above v idle pluck, Outcome.bind_done, ih (above ++ [v]) turned,
        List.rotate_cons_succ]

/-! ## The laws -/

/-- While nothing is compiled, to pluck at an index once more than its number restores the machine,
where there are so many values.  To gather a number of values and to spread the list restores it up
to the next mark.  To spread a list and to gather as many values as it had restores it up to the
next mark and the mark of the list. -/
theorem run_restores (call : Caller) (m : Machine) (idle : m.compiling = false)
    (pluck : m.Retains (Builtin.passing "pluck" .pluck))
    (gather : m.Retains (Builtin.plain "gather" .gather))
    (spread : m.Retains (Builtin.plain "spread" .spread)) :
    (∀ index, index < m.stack.depth →
        m.run call (List.replicate (index + 1) (plucks index)).flatten = .done () m) ∧
      (∀ count, count ≤ m.stack.depth →
        m.run call [.datum (.int count), .word "gather", .word "spread"] =
          .done () { m with nextMark := m.nextMark + 1 }) ∧
      ∀ below own items, m.stack.toList = below ++ [.list own items] →
        m.run call [.word "spread", .datum (.int items.length), .word "gather"] =
          .done () ({ m with nextMark := m.nextMark + 1 }.having
            (below ++ [Value.list m.nextMark items])) := by
  refine ⟨fun index inside => ?_, fun count enough => ?_, fun below own items stack => ?_⟩
  · rw [← Stack.length_toList] at inside
    obtain ⟨below, upper, cut, length⟩ := Rearrangement.exists_cut (Nat.succ_le_of_lt inside)
    have around := run_plucks call below index idle pluck upper.length upper length
    rwa [List.rotate_length, ← cut, having_toList, length] at around
  · rw [← Stack.length_toList] at enough
    obtain ⟨below, values, cut, rfl⟩ := Rearrangement.exists_cut enough
    have gathered := run_gather call below values idle gather
    have spread := run_spread call (m := { m with nextMark := m.nextMark + 1 }) below values
      m.nextMark idle spread
    have both := run_append call [.datum (.int values.length), .word "gather"] [.word "spread"] m
    rw [← cut, having_toList] at gathered
    rw [gathered, Outcome.bind_done, spread, ← cut] at both
    exact both.trans
      (congrArg (Outcome.done ()) (having_toList { m with nextMark := m.nextMark + 1 }))
  · have opened := run_spread call below items own idle spread
    have both := run_append call [.word "spread"] [.datum (.int items.length), .word "gather"] m
    rw [← stack, having_toList] at opened
    rw [opened, Outcome.bind_done, run_gather call below items idle gather] at both
    exact both

/-- A machine with the absent value below a list that holds it too, and another list. -/
def nesting : Machine :=
  { Machine.bare 16 false with
    stack := .ofList [.text "a", .none, .list 0 [.none, .list 1 []]]
    nextMark := 2 }

/-- All three values are plucked around, gathered and spread; and the list is made anew, with a
mark of its own, around the same items. -/
theorem run_restores_nesting :
    nesting.run Host.caller
        [.datum (.int 2), .word "pluck", .datum (.int 2), .word "pluck", .datum (.int 2),
          .word "pluck"] = .done () nesting ∧
      nesting.run Host.caller [.datum (.int 3), .word "gather", .word "spread"] =
        .done () { nesting with nextMark := 3 } ∧
      nesting.run Host.caller [.word "spread", .datum (.int 2), .word "gather"] =
        .done () ({ nesting with nextMark := 3 }.having
          [.text "a", .none, .list 2 [.none, .list 1 []]]) := by
  have pluck : nesting.Retains (Builtin.passing "pluck" .pluck) :=
    ⟨false, 4, by decide +kernel, rfl⟩
  have gather : nesting.Retains (Builtin.plain "gather" .gather) :=
    ⟨false, 2, by decide +kernel, rfl⟩
  have spread : nesting.Retains (Builtin.plain "spread" .spread) :=
    ⟨false, 3, by decide +kernel, rfl⟩
  obtain ⟨around, back, again⟩ := run_restores Host.caller nesting rfl pluck gather spread
  exact ⟨around 2 (by decide), back 3 (by decide), again [.text "a", .none] 0 _ rfl⟩

end Machine
end ThreadedForth
