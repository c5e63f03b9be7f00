/-!
# Stacks

The machine keeps two stacks: one of values, and one of return addresses.  A stack is
a list with its top first.  The machine asks for the depth of a stack at every call,
so the depth is kept beside the items and is never counted.

The depth adds nothing to what a stack is.  It is the number of items by the type
(`Stack.depth_eq`), so two stacks with the same items are the same stack
(`Stack.ext`), and each operation is known by what it does to the items: `items_push`,
`items_pushAll`, `items_take`, `items_eraseIdx`, and for taking off the top
`pop?_eq_some_iff`.
-/

namespace ThreadedForth

/-- A stack, whose depth is at hand. -/
structure Stack (α : Type) where
  /-- The items, the top first. -/
  items : List α
  /-- The number of items. -/
  depth : Nat
  depth_eq : depth = items.length

namespace Stack

variable {α : Type}

@[ext] theorem ext {s t : Stack α} (h : s.items = t.items) : s = t := by
  obtain ⟨as, m, hm⟩ := s
  obtain ⟨bs, n, hn⟩ := t
  cases h
  cases hm
  cases hn
  rfl

instance [DecidableEq α] : DecidableEq (Stack α) := fun s t =>
  decidable_of_iff (s.items = t.items) ⟨ext, fun h => h ▸ rfl⟩

/-- The stack that holds nothing. -/
def empty : Stack α := ⟨[], 0, rfl⟩

/-- The items, the oldest first. -/
def toList (s : Stack α) : List α := s.items.reverse

/-- Puts an item on top. -/
def push (a : α) (s : Stack α) : Stack α :=
  ⟨a :: s.items, s.depth + 1, by rw [s.depth_eq, List.length_cons]⟩

/-- Puts items on top, the last one topmost. -/
def pushAll (as : List α) (s : Stack α) : Stack α :=
  ⟨as.reverse ++ s.items, as.length + s.depth, by simp [s.depth_eq]⟩

/-- Takes off the top item, unless there is none. -/
def pop? : Stack α → Option (α × Stack α)
  | ⟨[], _, _⟩ => none
  | ⟨a :: rest, depth, h⟩ => some (a, ⟨rest, depth - 1, by simp [h]⟩)

/-- Takes off the top `n` items, and returns them with the oldest first. -/
def take (n : Nat) (s : Stack α) : List α × Stack α :=
  ((s.items.take n).reverse, ⟨s.items.drop n, s.depth - n, by simp [s.depth_eq]⟩)

/-- Removes the item that stands `i` places below the top. -/
def eraseIdx (i : Nat) (s : Stack α) : Stack α :=
  ⟨s.items.eraseIdx i, if i < s.depth then s.depth - 1 else s.depth, by
    rw [List.length_eraseIdx, s.depth_eq]⟩

@[simp] theorem items_empty : (empty : Stack α).items = [] := rfl

@[simp] theorem items_push (a : α) (s : Stack α) : (s.push a).items = a :: s.items := rfl

@[simp] theorem items_pushAll (as : List α) (s : Stack α) :
    (s.pushAll as).items = as.reverse ++ s.items := rfl

@[simp] theorem items_take (n : Nat) (s : Stack α) : (s.take n).2.items = s.items.drop n := rfl

@[simp] theorem items_eraseIdx (i : Nat) (s : Stack α) :
    (s.eraseIdx i).items = s.items.eraseIdx i := rfl

@[simp] theorem depth_empty : (empty : Stack α).depth = 0 := rfl

@[simp] theorem depth_push (a : α) (s : Stack α) : (s.push a).depth = s.depth + 1 := rfl

@[simp] theorem depth_pushAll (as : List α) (s : Stack α) :
    (s.pushAll as).depth = as.length + s.depth := rfl

/-- The top item comes off together with what is below it. -/
theorem pop?_eq_some_iff {s rest : Stack α} {a : α} :
    s.pop? = some (a, rest) ↔ s.items = a :: rest.items := by
  obtain ⟨items, depth, h⟩ := s
  cases items with
  | nil => simp [pop?]
  | cons b below => simp [pop?, Stack.ext_iff]

/-- Nothing comes off exactly when there is nothing. -/
theorem pop?_eq_none_iff {s : Stack α} : s.pop? = none ↔ s.items = [] := by
  obtain ⟨items, depth, h⟩ := s
  cases items <;> simp [pop?]

/-- What was pushed comes off. -/
@[simp] theorem pop?_push (a : α) (s : Stack α) : (s.push a).pop? = some (a, s) := by
  simp [pop?_eq_some_iff]

/-- Putting back what was taken off restores the stack. -/
theorem pushAll_of_take (n : Nat) (s : Stack α) : (s.take n).2.pushAll (s.take n).1 = s := by
  ext
  simp [take, List.take_append_drop]

/-- Taking off what was pushed yields it and restores the stack. -/
theorem take_of_pushAll (as : List α) (s : Stack α) :
    (s.pushAll as).take as.length = (as, s) := by
  have taken : (as.reverse ++ s.items).take as.length = as.reverse :=
    List.take_left' List.length_reverse
  have dropped : (as.reverse ++ s.items).drop as.length = s.items :=
    List.drop_left' List.length_reverse
  simp [take, taken, dropped]

end Stack
end ThreadedForth
