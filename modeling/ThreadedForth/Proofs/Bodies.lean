import ThreadedForth.Proofs.Balance
import ThreadedForth.Proofs.Factory
import ThreadedForth.Proofs.Ownership

/-!
# The bodies of finished definitions

All code shares one row, and nothing in the row tells where a body ends.  It is known only when a
definition is finished: its body reaches from the address at which it was opened to the exit that
finishes it (`Moment.closes`).  What lies between two bodies was left by definitions that were
dropped.

In a session in which no callables are registered and code is run through words only, nothing
leads out of the finished bodies (`Machine.Housed`).  A cell of a body calls another body at its
start, and a `does` cell gives the address behind its own exit, in its own body.  So a run stays
within the bodies, and the behaviors that it gives to words lie within them too.  This holds
although dropped definitions leave `does` cells of the same kind behind: nothing gets there.

* `Machine.Housed.endsIn_callNative`: a native word leads out of no body, and finishing a
  definition adds one;
* `Machine.Housed.turn`: a turn stays within the bodies, unless it is taken below the base of its
  run, which never happens (`Session.covered_of_mem_history`);
* `Session.tracks_confined`: so does everything that goes on in such a session;
* `Session.created_words_lasting`: created words own their slots, their behaviors lie in finished
  bodies and stay when newer words are created, and each slot holds what was stored last.
-/

namespace ThreadedForth

/-! ## Bodies -/

/-- The code between two addresses, which belong to it. -/
structure Stretch where
  start : Nat
  stop : Nat
  deriving DecidableEq, Repr

/-- The address lies in the stretch. -/
def Stretch.Contains (b : Stretch) (a : Nat) : Prop := b.start ≤ a ∧ a ≤ b.stop

/-- A body begins at the address. -/
def Starts (bodies : List Stretch) (target : Int) : Prop := ∃ b ∈ bodies, target = b.start

/-- The address lies in a body. -/
def Within (bodies : List Stretch) (target : Int) : Prop :=
  ∃ b ∈ bodies, ∃ a : Nat, target = a ∧ b.Contains a

/-- The address is one that the `does` cell of a body gives. -/
def Lodged (bodies : List Stretch) (code : Array Cell) (target : Int) : Prop :=
  ∃ b ∈ bodies, ∃ a : Nat, target = (a + 2 : Nat) ∧ code[a]? = some (.does (a + 2 : Nat)) ∧
    code[a + 1]? = some .exit ∧ b.start ≤ a ∧ a + 2 ≤ b.stop

/-- The cell at the address `a` calls only the starts that are given, and gives only the address
behind its own exit, up to the limit. -/
def Cell.Settled (starts : Int → Prop) (code : Array Cell) (limit a : Nat) : Cell → Prop
  | .call target _ => starts target
  | .does target => target = (a + 2 : Nat) ∧ code[a + 1]? = some .exit ∧ a + 2 ≤ limit
  | _ => True

section

variable {bodies more : List Stretch} {code further : Array Cell} {target : Int}

theorem Starts.append (starts : Starts bodies target) (more : List Stretch) :
    Starts (bodies ++ more) target := by
  obtain ⟨b, inside, same⟩ := starts
  exact ⟨b, List.mem_append_left more inside, same⟩

/-- A new body begins at its start. -/
theorem Starts.concat {b : Stretch} (starts : target = b.start ∨ Starts bodies target) :
    Starts (bodies ++ [b]) target := by
  rcases starts with new | old
  · exact ⟨b, List.mem_append_right bodies (List.mem_singleton_self b), new⟩
  · exact old.append _

theorem Within.append (within : Within bodies target) (more : List Stretch) :
    Within (bodies ++ more) target := by
  obtain ⟨b, inside, place⟩ := within
  exact ⟨b, List.mem_append_left more inside, place⟩

theorem Lodged.append (lodged : Lodged bodies code target) (more : List Stretch) :
    Lodged (bodies ++ more) code target := by
  obtain ⟨b, inside, place⟩ := lodged
  exact ⟨b, List.mem_append_left more inside, place⟩

/-- A behavior that lies in a body is an address in it. -/
theorem Lodged.within (lodged : Lodged bodies code target) : Within bodies target := by
  obtain ⟨b, inside, a, same, -, -, low, high⟩ := lodged
  exact ⟨b, inside, a + 2, same, by omega, high⟩

/-- A cell that is no literal stays. -/
theorem Code.Continues.getElem? (continues : Code.Continues code further) {a : Nat} {cell : Cell}
    (known : code[a]? = some cell) (other : ∀ values, cell ≠ .literal values) :
    further[a]? = some cell := by
  obtain ⟨cell', known', same | ⟨old, new, literal, -⟩⟩ := continues a cell known
  · rw [known', same]
  · exact absurd literal (other old)

theorem Lodged.continued (lodged : Lodged bodies code target)
    (continues : Code.Continues code further) : Lodged bodies further target := by
  obtain ⟨b, inside, a, same, does, exit, place⟩ := lodged
  exact ⟨b, inside, a, same, continues.getElem? does nofun, continues.getElem? exit nofun, place⟩

theorem Cell.Settled.mono {starts larger : Int → Prop} {limit limit' a : Nat} {cell : Cell}
    (settled : cell.Settled starts code limit a) (continues : Code.Continues code further)
    (more : ∀ t, starts t → larger t) (wider : limit ≤ limit') :
    cell.Settled larger further limit' a := by
  cases cell with
  | call target name => exact more target settled
  | does target =>
    obtain ⟨same, exit, high⟩ := settled
    exact ⟨same, continues.getElem? exit nofun, Nat.le_trans high wider⟩
  | _ => trivial

/-- In code that continues other code, what was settled is settled. -/
theorem settled_of_continues {starts larger : Int → Prop} {limit limit' a : Nat} {cell : Cell}
    (continues : Code.Continues code further) (low : a < code.size)
    (settled : ∀ cell, code[a]? = some cell → cell.Settled starts code limit a)
    (more : ∀ t, starts t → larger t) (wider : limit ≤ limit')
    (known : further[a]? = some cell) : cell.Settled larger further limit' a := by
  have before := Array.getElem?_eq_getElem low
  obtain ⟨cell', known', same⟩ := continues a _ before
  rw [known] at known'
  cases known'
  have old := (settled _ before).mono continues more wider
  rcases same with rfl | ⟨_, _, -, rfl⟩
  · exact old
  · trivial

/-- What was settled is settled when a cell is added, and so is the new cell if it is settled. -/
theorem settled_push {starts larger : Int → Prop} {limit limit' a : Nat} {pushed cell : Cell}
    (before : ∀ cell, code[a]? = some cell → cell.Settled starts code limit a)
    (last : pushed.Settled larger (code.push pushed) limit' code.size)
    (more : ∀ t, starts t → larger t) (wider : limit ≤ limit')
    (known : (code.push pushed)[a]? = some cell) :
    cell.Settled larger (code.push pushed) limit' a := by
  by_cases old : a < code.size
  · exact settled_of_continues (Code.continues_push code pushed) old before more wider known
  · have low := (Array.getElem?_eq_some_iff.mp known).1
    rw [Array.size_push] at low
    obtain rfl : a = code.size := by omega
    rw [Array.getElem?_push_size] at known
    cases known
    exact last

end

namespace Machine

/-! ## Machines whose code is housed in bodies -/

/-- Nothing leads out of the finished bodies.  The open definition leads nowhere but to them and to
itself. -/
structure Housed (bodies : List Stretch) (m : Machine) : Prop where
  closed : ∀ b ∈ bodies, b.start ≤ b.stop ∧ m.code[b.stop]? = some .exit
  cells : ∀ b ∈ bodies, ∀ a cell, b.Contains a → m.code[a]? = some cell →
    cell.Settled (Starts bodies) m.code b.stop a
  colons : ∀ entry address, m.dictionary.body? entry = some (.colon address) →
    Starts bodies address
  owners : ∀ b ∈ bodies, ∃ entry, m.dictionary.body? entry = some (.colon b.start)
  behaviors : ∀ entry slot behavior, m.dictionary.body? entry = some (.created slot behavior) →
    behavior = .none ∨ ∃ target, behavior = .int target ∧ Lodged bodies m.code target
  draft : ∀ draft, m.draft = some draft → draft.address ≤ m.code.size ∧
    ∀ a cell, draft.address ≤ a → m.code[a]? = some cell →
      cell.Settled (fun t => t = draft.address ∨ Starts bodies t) m.code m.code.size a
  returns : ∀ r ∈ m.returns.items, Within bodies r
  ip : ∀ address, m.ip = some address → Within bodies address

variable {bodies : List Stretch} {m after : Machine}

theorem Housed.lt_size (housed : m.Housed bodies) {b : Stretch} (inside : b ∈ bodies) {a : Nat}
    (contained : b.Contains a) : a < m.code.size := by
  have low := (Array.getElem?_eq_some_iff.mp (housed.closed b inside).2).1
  exact Nat.lt_of_le_of_lt contained.2 low

/-- When the code is continued, and words are added that lead nowhere yet, nothing leads out of
the bodies still. -/
theorem Housed.continued (housed : m.Housed bodies)
    (continues : Code.Continues m.code after.code)
    (grown : m.dictionary.Extends after.dictionary)
    (words : ∀ entry body, after.dictionary.body? entry = some body →
      m.dictionary.body? entry = some body ∨ (∃ n, body = .native n) ∨
        ∃ slot, body = .created slot .none)
    (draft : ∀ draft, after.draft = some draft → draft.address ≤ after.code.size ∧
      ∀ a cell, draft.address ≤ a → after.code[a]? = some cell →
        cell.Settled (fun t => t = draft.address ∨ Starts bodies t) after.code after.code.size a)
    (point : m.SamePoint after) : after.Housed bodies where
  closed b inside := by
    obtain ⟨order, exit⟩ := housed.closed b inside
    exact ⟨order, continues.getElem? exit nofun⟩
  cells b inside a cell contained known :=
    settled_of_continues continues (housed.lt_size inside contained)
      (fun cell known => housed.cells b inside a cell contained known) (fun _ => id)
      (Nat.le_refl _) known
  colons entry address behind := by
    rcases words entry _ behind with old | ⟨n, other⟩ | ⟨slot, other⟩
    · exact housed.colons entry address old
    · cases other
    · cases other
  owners b inside := by
    obtain ⟨entry, behind⟩ := housed.owners b inside
    obtain ⟨name, immediate, known⟩ := Dictionary.get?_of_body? behind
    obtain ⟨w, known', becomes⟩ := grown entry _ known
    exact ⟨entry, by rw [Dictionary.body?, known', Option.map_some, becomes.colon rfl]⟩
  behaviors entry slot behavior behind := by
    rcases words entry _ behind with old | ⟨n, other⟩ | ⟨slot', fresh⟩
    · rcases housed.behaviors entry slot behavior old with none_ | ⟨target, same, lodged⟩
      · exact .inl none_
      · exact .inr ⟨target, same, lodged.continued continues⟩
    · cases other
    · cases fresh
      exact .inl rfl
  draft := draft
  returns r inside := housed.returns r (point.returns ▸ inside)
  ip address at_ := housed.ip address (point.ip ▸ at_)

/-- When the code stays what it is, only new words have to be looked at. -/
theorem Housed.congr (housed : m.Housed bodies) (code : after.code = m.code)
    (grown : m.dictionary.Extends after.dictionary)
    (words : ∀ entry body, after.dictionary.body? entry = some body →
      m.dictionary.body? entry = some body ∨ (∃ n, body = .native n) ∨
        ∃ slot, body = .created slot .none)
    (draft : ∀ draft, after.draft = some draft →
      ∃ d, m.draft = some d ∧ d.address = draft.address)
    (point : m.SamePoint after) : after.Housed bodies := by
  refine housed.continued (code ▸ .refl _) grown words (fun d open_ => ?_) point
  obtain ⟨d', open', same⟩ := draft d open_
  rw [code, ← same]
  exact housed.draft d' open'

/-- Nothing but code, words, the open definition and the state of the execution matters. -/
theorem Housed.of_eq (housed : m.Housed bodies) (code : after.code = m.code)
    (dictionary : after.dictionary = m.dictionary)
    (draft : after.draft = m.draft ∨ after.draft = none) (point : m.SamePoint after) :
    after.Housed bodies := by
  refine housed.congr code (dictionary ▸ .refl _) (fun entry body behind => ?_)
    (fun d open_ => ?_) point
  · exact .inl (dictionary ▸ behind)
  · rcases draft with same | none_
    · exact ⟨d, same ▸ open_, rfl⟩
    · rw [none_] at open_
      cases open_

theorem Housed.sameBooks {s : Store} (housed : m.Housed bodies) (books : m.toStore.SameBooks s) :
    Housed bodies { m with toStore := s } :=
  housed.of_eq rfl books.dictionary (.inl books.draft) ⟨rfl, rfl, rfl⟩

theorem Housed.pushAll (values : List Value) (housed : m.Housed bodies) :
    (m.pushAll values).Housed bodies :=
  housed.sameBooks (m.toStore.sameBooks_pushAll values)

/-! ### Words -/

/-- A word is registered that leads nowhere. -/
theorem Housed.push {w : Word} (housed : m.Housed bodies)
    (leads : (∃ n, w.body = .native n) ∨ ∃ slot, w.body = .created slot .none)
    (code : after.code = m.code) (dictionary : after.dictionary = m.dictionary.push w)
    (draft : after.draft = m.draft) (point : m.SamePoint after) : after.Housed bodies := by
  refine housed.congr code (dictionary ▸ Dictionary.extends_push w) (fun entry body behind => ?_)
    (fun d open_ => ⟨d, draft ▸ open_, rfl⟩) point
  rw [dictionary] at behind
  rcases Dictionary.body?_push behind with old | ⟨-, rfl⟩
  · exact .inl old
  · exact .inr leads

theorem Housed.markImmediate (entry : Nat) (housed : m.Housed bodies) :
    Housed bodies { m with dictionary := m.dictionary.markImmediate entry } := by
  refine housed.congr rfl (Dictionary.extends_markImmediate entry) (fun other body behind => ?_)
    (fun d open_ => ⟨d, open_, rfl⟩) ⟨rfl, rfl, rfl⟩
  exact .inl (Dictionary.body?_markImmediate entry other ▸ behind)

/-- A word gets a behavior that lies in a body. -/
theorem Housed.setBehavior {target : Int} {entry : Nat} (housed : m.Housed bodies)
    (lodged : Lodged bodies m.code target) :
    Housed bodies { m with dictionary := m.dictionary.setBehavior entry (.int target) } where
  closed := housed.closed
  cells := housed.cells
  draft := housed.draft
  returns := housed.returns
  ip := housed.ip
  colons other address behind := by
    rcases Dictionary.body?_setBehavior behind with old | ⟨slot, old, -, created⟩
    · exact housed.colons other address old
    · cases created
  owners b inside := by
    obtain ⟨other, behind⟩ := housed.owners b inside
    obtain ⟨name, immediate, known⟩ := Dictionary.get?_of_body? behind
    obtain ⟨w, known', becomes⟩ := Dictionary.extends_setBehavior entry (.int target) other _ known
    exact ⟨other, by rw [Dictionary.body?, known', Option.map_some, becomes.colon rfl]⟩
  behaviors other slot behavior behind := by
    rcases Dictionary.body?_setBehavior behind with old | ⟨slot', old, -, created⟩
    · exact housed.behaviors other slot behavior old
    · cases created
      exact .inr ⟨target, rfl, lodged⟩

/-! ### The open definition -/

theorem Housed.openDraft (name : Word.Name) (housed : m.Housed bodies) :
    Housed bodies { m with toStore := m.toStore.openDraft name m.code.size } := by
  refine housed.continued (.refl _) (.refl _) (fun _ _ => .inl) ?_ ⟨rfl, rfl, rfl⟩
  rintro d ⟨⟩
  refine ⟨Nat.le_refl _, fun a cell high known => ?_⟩
  have low := (Array.getElem?_eq_some_iff.mp known).1
  exact absurd low (Nat.not_lt.mpr high)

theorem Housed.markDraft {draft : Draft} (housed : m.Housed bodies) (open_ : m.draft = some draft) :
    Housed bodies { m with draft := some { draft with immediate := true } } := by
  refine housed.congr rfl (.refl _) (fun _ _ => .inl) ?_ ⟨rfl, rfl, rfl⟩
  rintro d ⟨⟩
  exact ⟨draft, open_, rfl⟩

/-- A cell is added that leads where the open definition may lead. -/
theorem Housed.append {cell : Cell} (housed : m.Housed bodies)
    (settled : ∀ draft, m.draft = some draft →
      cell.Settled (fun t => t = draft.address ∨ Starts bodies t) (m.code.push cell)
        (m.code.size + 1) m.code.size) : (m.append cell).Housed bodies := by
  have continues := Code.continues_push m.code cell
  refine housed.continued continues (.refl _) (fun _ _ => .inl) (fun d open_ => ?_) ⟨rfl, rfl, rfl⟩
  obtain ⟨begun, before⟩ := housed.draft d open_
  have size : (m.append cell).code.size = m.code.size + 1 := Array.size_push ..
  rw [size]
  refine ⟨Nat.le_succ_of_le begun, fun a other high known => ?_⟩
  exact settled_push (fun cell => before a cell high) (settled d open_) (fun _ => id)
    (Nat.le_succ _) known

/-- The cells that are compiled one at a time lead where the open definition may lead. -/
theorem Housed.compile {cell : Cell} (housed : m.Housed bodies) (made : Compiled m cell) :
    (m.append cell).Housed bodies := by
  refine housed.append fun d open_ => ?_
  cases made with
  | exit => trivial
  | literal values => trivial
  | @entry entry w known plain =>
    obtain ⟨name, immediate, body⟩ := w
    cases body with
    | native n => trivial
    | created slot behavior => trivial
    | colon address =>
      refine .inr (housed.colons entry address ?_)
      rw [Dictionary.body?, known, Option.map_some]
  | @own draft open' =>
    rw [open_] at open'
    cases open'
    exact .inl rfl

/-- A behavior is begun behind the exit that ends what comes before. -/
theorem Housed.does (housed : m.Housed bodies) :
    ((m.append (.does (m.code.size + 2 : Nat))).append .exit).Housed bodies := by
  let begun := m.code.push (.does (m.code.size + 2 : Nat))
  have first : begun[m.code.size]? = some (.does (m.code.size + 2 : Nat)) :=
    Array.getElem?_push_size
  have second : (begun.push .exit)[m.code.size + 1]? = some .exit := by
    have last : (begun.push Cell.exit)[begun.size]? = some .exit := Array.getElem?_push_size
    rwa [Array.size_push] at last
  have size : (begun.push Cell.exit).size = m.code.size + 2 := by simp [begun]
  have finished := Code.continues_push begun .exit
  have continues := (Code.continues_push m.code (.does (m.code.size + 2 : Nat))).trans finished
  refine housed.continued continues (.refl _) (fun _ _ => .inl) (fun d open_ => ?_) ⟨rfl, rfl, rfl⟩
  obtain ⟨low, before⟩ := housed.draft d open_
  show d.address ≤ (begun.push Cell.exit).size ∧ ∀ a cell, d.address ≤ a →
    (begun.push Cell.exit)[a]? = some cell →
      cell.Settled _ (begun.push .exit) (begun.push Cell.exit).size a
  rw [size]
  refine ⟨Nat.le_add_right_of_le low, fun a cell high known => ?_⟩
  rcases Nat.lt_trichotomy a m.code.size with old | rfl | above
  · exact settled_of_continues continues old (fun cell => before a cell high) (fun _ => id)
      (Nat.le_add_right _ 2) known
  · -- the exit is behind the cell that gives the behavior, and the behavior behind the exit
    rw [finished.getElem? first nofun] at known
    cases known
    exact ⟨rfl, second, Nat.le_refl _⟩
  · have last : a = m.code.size + 1 := by
      have := (Array.getElem?_eq_some_iff.mp known).1
      omega
    rw [last, second] at known
    cases known
    trivial

theorem Housed.join {cell : Cell} {values all : List Value} (housed : m.Housed bodies)
    (plain : m.Plain fun _ => False) (last : m.code.back? = some cell)
    (joined : cell.openValues values = .ok (some all)) :
    Housed bodies { m with code := m.code.pop.push (.literal all) } := by
  obtain ⟨old, rfl⟩ := plain.literal_of_joined last joined
  have continues := Code.continues_join all last
  have size : (m.code.pop.push (.literal all)).size = m.code.size := by
    obtain ⟨earlier, same⟩ := Array.back?_eq_some_iff.mp last
    rw [same, Array.pop_push, Array.size_push, Array.size_push]
  refine housed.continued continues (.refl _) (fun _ _ => .inl) (fun d open_ => ?_) ⟨rfl, rfl, rfl⟩
  obtain ⟨begun, before⟩ := housed.draft d open_
  refine ⟨size ▸ begun, fun a cell high known => ?_⟩
  have low : a < m.code.size := size ▸ (Array.getElem?_eq_some_iff.mp known).1
  exact settled_of_continues continues low (fun cell => before a cell high) (fun _ => id)
    (Nat.le_of_eq size.symm) known

/-- The body that the open definition gets if it is finished now. -/
def closing (m : Machine) : List Stretch :=
  (m.draft.map fun draft => ⟨draft.address, m.code.size⟩).toList

/-- A finished definition is a body. -/
theorem Housed.closeDraft {draft : Draft} (housed : m.Housed bodies)
    (open_ : m.draft = some draft) :
    (m.closeDraft draft).Housed (bodies ++ [⟨draft.address, m.code.size⟩]) where
  closed := by
    rw [List.forall_mem_append, List.forall_mem_singleton]
    refine ⟨fun b inside => ?_, (housed.draft draft open_).1, Array.getElem?_push_size⟩
    obtain ⟨order, exit⟩ := housed.closed b inside
    exact ⟨order, (Code.continues_push m.code .exit).getElem? exit nofun⟩
  cells := by
    rw [List.forall_mem_append, List.forall_mem_singleton]
    refine ⟨fun b inside a cell contained known => ?_, fun a cell contained known => ?_⟩
    · exact settled_of_continues (Code.continues_push m.code .exit)
        (housed.lt_size inside contained)
        (fun cell => housed.cells b inside a cell contained) (fun _ old => old.append _)
        (Nat.le_refl _) known
    · exact settled_push (fun cell => (housed.draft draft open_).2 a cell contained.1) trivial
        (fun _ starts => .concat starts) (Nat.le_refl _) known
  colons entry address behind := by
    rcases Dictionary.body?_push behind with old | ⟨-, same⟩
    · exact (housed.colons entry address old).append _
    · cases same
      exact .concat (.inl rfl)
  owners := by
    rw [List.forall_mem_append, List.forall_mem_singleton]
    refine ⟨fun b inside => ?_, m.dictionary.size, ?_⟩
    · obtain ⟨entry, behind⟩ := housed.owners b inside
      refine ⟨entry, ?_⟩
      exact (Dictionary.body?_push_of_lt _ (Dictionary.lt_size_of_body? behind)).trans behind
    · show (m.dictionary.push _).body? m.dictionary.size = _
      rw [Dictionary.body?, Dictionary.get?_push_size, Option.map_some]
  behaviors entry slot behavior behind := by
    rcases Dictionary.body?_push behind with old | ⟨-, same⟩
    · rcases housed.behaviors entry slot behavior old with none_ | ⟨target, same, lodged⟩
      · exact .inl none_
      · refine .inr ⟨target, same, ?_⟩
        exact (lodged.append _).continued (Code.continues_push m.code .exit)
    · cases same
  draft := nofun
  returns r inside := (housed.returns r inside).append _
  ip address at_ := (housed.ip address at_).append _

/-! ### Native words -/

theorem Housed.finish (housed : m.Housed bodies) (finished : m.finish = .ok after) :
    after.Housed (bodies ++ m.closing) := by
  obtain ⟨_, -, closed⟩ := exists_of_bind_ok finished
  have exit : (m.append .exit).Housed bodies := housed.compile .exit
  split at closed
  · next draft open_ =>
    cases closed
    have closing : m.closing = [⟨draft.address, m.code.size⟩] := by
      rw [Machine.closing, open_]
      rfl
    have installed := Store.sameBooks_install ⟨draft.name, draft.immediate, .colon draft.address⟩
      { m.toStore with compiling := false, draft := none }
    rw [closing]
    refine (housed.closeDraft open_).of_eq rfl ?_ (.inr ?_) ⟨rfl, rfl, rfl⟩
    · exact (Store.sameBooks_note ..).dictionary.trans installed.dictionary
    · exact (Store.sameBooks_note ..).draft.trans installed.draft
  · next none_ =>
    cases closed
    have closing : m.closing = [] := by
      rw [Machine.closing, none_]
      rfl
    rw [closing, List.append_nil]
    exact exit.of_eq rfl rfl (.inr rfl) ⟨rfl, rfl, rfl⟩

theorem Housed.writeLiterals {values : List Value} {joined : Option (List Value)}
    (housed : m.Housed bodies) (plain : m.Plain fun _ => False)
    (found : m.joinedLiterals values = .ok joined) :
    (m.writeLiterals values joined).Housed bodies := by
  cases joined with
  | none => exact housed.compile (.literal values)
  | some all =>
    unfold joinedLiterals at found
    split at found
    · next cell last =>
      split at found
      · exact housed.join plain last found
      · cases found
    · cases found

end Machine

/-- The body that a native action finishes, if it succeeds. -/
def Action.closing (m : Machine) (action : Action) : List Stretch :=
  if action = .directive .finish then m.closing else []

section

open Machine

variable {bodies : List Stretch} {m : Machine}

theorem Primitive.housed_perform (p : Primitive) (arguments : List Value)
    (housed : m.Housed bodies) : (p.perform arguments m).machine.Housed bodies := by
  rw [Primitive.perform_eq]
  unfold Outcome.ofStore
  split
  · next v s ends =>
    rcases Store.apply_cases ends with books | ⟨-, name, -, rfl⟩ | ⟨-, name, -, books⟩
    · exact housed.sameBooks books
    · exact housed.openDraft name
    · have created : Housed bodies { m with toStore := m.toStore.addCreated name } :=
        housed.push (.inr ⟨m.slots.size, rfl⟩) rfl rfl rfl ⟨rfl, rfl, rfl⟩
      exact created.sameBooks books
  · exact housed

theorem Directive.housed_apply {d : Directive} {arguments : List Value} {after : Machine}
    (housed : m.Housed bodies) (plain : m.Plain fun _ => False)
    (applied : d.apply arguments m = .ok after) :
    after.Housed (bodies ++ (Action.directive d).closing m) := by
  unfold Directive.apply at applied
  split at applied
  · exact housed.finish applied
  all_goals
    simp only [Action.closing, Action.directive.injEq, reduceCtorEq, if_false, List.append_nil]
  · unfold Machine.markImmediate at applied
    split at applied
    · next _ open_ =>
      cases applied
      exact housed.markDraft open_
    · cases applied
      exact housed.markImmediate _
    · cases applied
  · obtain ⟨_, _, made⟩ := exists_of_bind_ok applied
    cases made
    exact housed.compile .exit
  · obtain ⟨_, _, compiled⟩ := exists_of_bind_ok applied
    obtain ⟨joined, found, made⟩ := exists_of_bind_ok compiled
    cases made
    exact housed.writeLiterals plain found
  · obtain ⟨_, _, made⟩ := exists_of_bind_ok applied
    cases made
    exact housed.does.of_eq rfl rfl (.inl rfl) ⟨rfl, rfl, rfl⟩
  · cases applied

/-- A native word that is no host callable leaves what it has finished. -/
theorem Machine.Housed.endsIn_callNative {name : String} {n : Native} (call : Caller)
    (housed : m.Housed bodies) (plain : m.Plain fun _ => False) (own : ∀ f, n.action ≠ .host f) :
    (m.callNative call name n).EndsIn (Housed (bodies ++ n.action.closing m)) (Housed bodies) := by
  have taken := m.toStore.sameBooks_take n.arity
  have start : Housed bodies { m with toStore := (m.toStore.take n.arity).2 } :=
    housed.sameBooks taken
  refine endsIn_callWith (fun values _ kept => kept.pushAll values)
    (fun values _ kept => kept.pushAll values) (fun _ => housed) fun _ => ?_
  cases kind : n.action with
  | primitive p =>
    have none_ : (Action.primitive p).closing m = [] := rfl
    rw [none_, List.append_nil]
    exact Outcome.endsIn_iff.mpr (p.housed_perform _ start)
  | directive d =>
    unfold Action.perform
    simp only [Directive.perform_eq]
    split
    · next after applied =>
      have applied_ := Directive.housed_apply start (plain.congr rfl taken.dictionary) applied
      exact applied_
    · exact start
  | host f => exact absurd kind (own f)

end

/-! ## Turns -/

namespace Machine

variable {bodies : List Stretch} {m after : Machine}

/-- The execution is put somewhere else. -/
theorem Housed.place {returns : Stack Int} {ip : Option Int} (housed : m.Housed bodies)
    (waiting : ∀ r ∈ returns.items, Within bodies r)
    (at_ : ∀ address, ip = some address → Within bodies address) :
    Housed bodies { m with returns := returns, ip := ip } where
  closed := housed.closed
  cells := housed.cells
  colons := housed.colons
  owners := housed.owners
  behaviors := housed.behaviors
  draft := housed.draft
  returns := waiting
  ip := at_

theorem Housed.moved {place : Int} (housed : m.Housed bodies) (within : Within bodies place) :
    (m.moved place).Housed bodies := by
  refine housed.place housed.returns ?_
  rintro address ⟨⟩
  exact within

theorem Housed.called {target resume : Int} (housed : m.Housed bodies)
    (entered : Within bodies target) (left : Within bodies resume) :
    (m.called target resume).Housed bodies := by
  refine housed.place (fun r inside => ?_) ?_
  · rcases List.mem_cons.mp inside with rfl | older
    · exact left
    · exact housed.returns r older
  · rintro address ⟨⟩
    exact entered

theorem Housed.within_start (housed : m.Housed bodies) {target : Int}
    (starts : Starts bodies target) : Within bodies target := by
  obtain ⟨b, inside, same⟩ := starts
  exact ⟨b, inside, b.start, same, Nat.le_refl _, (housed.closed b inside).1⟩

/-- The cell that is executed next is settled in its body. -/
theorem Housed.settled_of_fetch {address : Int} {cell : Cell} (housed : m.Housed bodies)
    (at_ : m.ip = some address) (fetched : m.fetch address = .ok cell) :
    ∃ b ∈ bodies, ∃ a : Nat, address = a ∧ b.Contains a ∧ m.code[a]? = some cell ∧
      cell.Settled (Starts bodies) m.code b.stop a := by
  obtain ⟨b, inside, a, rfl, contained⟩ := housed.ip address at_
  have known := fetch_eq_ok_iff.mp fetched
  exact ⟨b, inside, a, rfl, contained, known, housed.cells b inside a cell contained known⟩

/-- A body goes on behind each of its cells but an exit. -/
theorem Housed.within_next {address : Int} {cell : Cell} (housed : m.Housed bodies)
    (at_ : m.ip = some address) (fetched : m.fetch address = .ok cell) (other : cell ≠ .exit) :
    Within bodies (address + 1) := by
  obtain ⟨b, inside, a, rfl, contained, known, -⟩ := housed.settled_of_fetch at_ fetched
  refine ⟨b, inside, a + 1, rfl, Nat.le_succ_of_le contained.1, ?_⟩
  refine Nat.lt_of_le_of_ne contained.2 ?_
  rintro rfl
  rw [(housed.closed b inside).2] at known
  exact other (Option.some.inj known).symm

theorem Housed.bindBehavior {target : Int} (housed : m.Housed bodies)
    (lodged : Lodged bodies m.code target) :
    (m.bindBehavior (.int target)).machine.Housed bodies := by
  rcases bindBehavior_cases (.int target) m with ⟨-, ends⟩ | ⟨entry, s, -, books, ends⟩
  · rw [ends]
    exact housed
  · rw [ends]
    exact (housed.setBehavior lodged).sameBooks books

/-- A turn stays within the bodies, unless it comes to an exit that lacks its call. -/
theorem Housed.turn {base : Nat} (housed : m.Housed bodies) (plain : m.Plain fun _ => False)
    (covered : base ≤ m.returns.depth) : (m.turn base).machine.Housed bodies := by
  have turned := plain.turned base
  generalize m.turn base = t at turned
  cases turned with
  | rest idle => exact housed
  | lost at_ missing => exact housed
  | literal at_ fetched => exact (housed.moved (housed.within_next at_ fetched (by simp))).pushAll _
  | @primitive address entry name immediate n p at_ fetched known kind =>
    have moved := housed.moved (housed.within_next at_ fetched (by simp))
    have start := moved.sameBooks (m.toStore.sameBooks_take n.arity)
    rw [Turn.machine_ofOutcome]
    exact Outcome.endsIn_iff.mp (endsIn_callWith (fun values _ kept => kept.pushAll values)
      (fun values _ kept => kept.pushAll values) (fun _ => moved)
      fun _ => Outcome.endsIn_iff.mpr (p.housed_perform _ start))
  | host at_ fetched known kind => exact ((plain.entries _ _ known).2 _ kind).elim
  | call at_ fetched room =>
    have next := housed.within_next at_ fetched (by simp)
    obtain ⟨_, -, _, -, -, -, starts⟩ := housed.settled_of_fetch at_ fetched
    exact (housed.moved next).called (housed.within_start starts) next
  | callFull at_ fetched full => exact housed.moved (housed.within_next at_ fetched (by simp))
  | created at_ fetched known =>
    exact (housed.moved (housed.within_next at_ fetched (by simp))).pushAll _
  | @behavior address target entry slot name immediate at_ fetched known room =>
    have next := housed.within_next at_ fetched (by simp)
    have behind : m.dictionary.body? entry = some (.created slot (.int target)) := by
      rw [Dictionary.body?, known, Option.map_some]
    rcases housed.behaviors entry slot _ behind with none_ | ⟨_, same, lodged⟩
    · cases none_
    · cases same
      exact ((housed.moved next).pushAll _).called lodged.within next
  | behaviorFull at_ fetched known full =>
    exact (housed.moved (housed.within_next at_ fetched (by simp))).pushAll _
  | does at_ fetched =>
    have next := housed.within_next at_ fetched (by simp)
    obtain ⟨b, inside, a, rfl, contained, known, settled⟩ := housed.settled_of_fetch at_ fetched
    obtain ⟨rfl, exit, high⟩ := settled
    have lodged : Lodged bodies m.code (a + 2 : Nat) :=
      ⟨b, inside, a, rfl, known, exit, contained.1, high⟩
    rw [Turn.machine_ofOutcome]
    exact (housed.moved next).bindBehavior lodged
  | @leave address r rest at_ fetched waits above =>
    refine housed.place (fun other inside => ?_) ?_
    · exact housed.returns other (waits ▸ List.mem_cons_of_mem r inside)
    · rintro _ ⟨⟩
      exact housed.returns r (waits ▸ List.mem_cons_self)
  | finish at_ fetched level =>
    refine housed.place housed.returns fun _ none_ => ?_
    cases none_
  | under at_ fetched below => exact absurd covered (Nat.not_le.mpr below)

/-- A run that begins where a word is entered begins in a body. -/
theorem Housed.enter {address : Value} {place : Option Int} (housed : m.Housed bodies)
    (entrance : m.Entrance address) (located : m.locate address = .ok place) :
    Housed bodies { m with ip := place } := by
  refine housed.place housed.returns ?_
  cases entrance with
  | @colon entry name immediate target known =>
    cases located
    rintro _ ⟨⟩
    have behind : m.dictionary.body? entry = some (.colon target) := by
      rw [Dictionary.body?, known, Option.map_some]
    exact housed.within_start (housed.colons entry target behind)
  | @behavior entry slot name immediate behavior known given =>
    have behind : m.dictionary.body? entry = some (.created slot address) := by
      rw [Dictionary.body?, known, Option.map_some]
    rcases housed.behaviors entry slot address behind with none_ | ⟨target, rfl, lodged⟩
    · exact absurd none_ given
    · cases located
      rintro _ ⟨⟩
      exact lodged.within

theorem Plain.turn (base : Nat) (plain : m.Plain fun _ => False) :
    (m.turn base).machine.Plain fun _ => False := by
  have turned := plain.turned base
  generalize m.turn base = t at turned
  have moved : ∀ place, (m.moved place).Plain fun _ => False := fun place => plain.congr rfl rfl
  cases turned with
  | primitive at_ fetched known kind =>
    rw [Turn.machine_ofOutcome]
    exact (moved _).edits (edits_callPrimitive ..)
  | does at_ fetched =>
    rw [Turn.machine_ofOutcome]
    exact (moved _).bindBehavior _
  | _ => exact plain.congr rfl rfl

theorem Aside.plain (changed : m.Aside (Session.throughWords fun _ => False) after)
    (plain : m.Plain fun _ => False) : after.Plain fun _ => False := by
  cases changed with
  | note level channel text other => exact plain.edits (m.edits_note level channel text)
  | abandon => exact plain.edits m.edits_abandon
  | compile compiling made => exact plain.edit (.append compiling made)
  | join compiling last free joined => exact plain.edit (.join compiling last free joined)
  | register valid own allowed =>
    exact plain.register own fun f host => (allowed f host).1
  | _ => exact plain.congr rfl rfl

theorem Housed.aside (housed : m.Housed bodies) (plain : m.Plain fun _ => False)
    (changed : m.Aside (Session.throughWords fun _ => False) after) : after.Housed bodies := by
  cases changed with
  | data stack nextMark transcript => exact housed.of_eq rfl rfl (.inl rfl) ⟨rfl, rfl, rfl⟩
  | sweep => exact housed.place nofun housed.ip
  | unwind popped =>
    have waits := Stack.pop?_eq_some_iff.mp popped
    refine housed.place (fun r inside => housed.returns r ?_) housed.ip
    exact waits ▸ List.mem_cons_of_mem _ inside
  | rest => exact housed.place housed.returns nofun
  | note level channel text other => exact housed.sameBooks (m.toStore.sameBooks_note ..)
  | compile compiling made => exact housed.compile made
  | join compiling last free joined => exact housed.join plain last joined
  | abandon =>
    obtain ⟨notes, abandoned⟩ := m.toStore.abandon_eq
    rw [abandoned]
    exact housed.of_eq rfl rfl (.inr rfl) ⟨rfl, rfl, rfl⟩
  | @register name immediate n valid own allowed =>
    exact housed.push (.inl ⟨n, rfl⟩) rfl rfl rfl ⟨rfl, rfl, rfl⟩

end Machine

/-! ## Sessions -/

/-- The body that is finished at this moment, if one is. -/
def Moment.closes (x : Moment) : List Stretch :=
  match x.activity with
  | .native name n =>
    if (x.machine.callNative (Host.callHost x.depth) name n).succeeds then
      n.action.closing x.machine
    else []
  | _ => []

/-- The bodies that have been finished. -/
def finished (past : List Moment) : List Stretch := past.flatMap Moment.closes

/-- A turn that is taken at this moment is taken above the base of its run. -/
def Moment.Covered (x : Moment) : Prop :=
  ∀ base credit, x.activity = .turns base credit → base ≤ x.machine.returns.depth

theorem finished_concat (past : List Moment) (x : Moment) :
    finished (past ++ [x]) = finished past ++ x.closes := by
  simp [finished]

theorem Moment.closes_of_delegates {x : Moment} (delegates : x.activity.Delegates) :
    x.closes = [] := by
  unfold closes
  split
  · next name n kind =>
    rw [kind] at delegates
    obtain ⟨f, host⟩ := delegates
    simp [Action.closing, host]
  · rfl

namespace Session

open Machine

/-- Everything is in order, no host callable has been called, and nothing leads out of the
finished bodies unless a turn has been taken below its base. -/
structure Confined (past : List Moment) (m : Machine) : Prop where
  plain : m.Plain fun _ => False
  hostless : ¬ HostCalled past
  housed : (∀ x ∈ past, x.Covered) → m.Housed (finished past)
  ips : (∀ x ∈ past, x.Covered) → ∀ x ∈ past, ∀ address, x.machine.ip = some address →
    Within (finished past) address

variable {past : List Moment} {m after : Machine}

theorem Confined.changed (confined : Confined past m) (plain : after.Plain fun _ => False)
    (housed : m.Housed (finished past) → after.Housed (finished past)) : Confined past after :=
  ⟨plain, confined.hostless, fun covered => housed (confined.housed covered), confined.ips⟩

theorem Confined.concat {x : Moment} (confined : Confined past x.machine)
    (own : ∀ name n f, x.activity = .native name n → n.action ≠ .host f)
    (plain : after.Plain fun _ => False)
    (housed : x.Covered → x.machine.Housed (finished past) →
      after.Housed (finished past ++ x.closes)) : Confined (past ++ [x]) after where
  plain := plain
  hostless := by
    rintro ⟨y, inside, name, n, f, kind, host⟩
    rcases List.mem_append.mp inside with before | now
    · exact confined.hostless ⟨y, before, name, n, f, kind, host⟩
    · rw [List.mem_singleton.mp now] at kind
      exact own name n f kind host
  housed covered := by
    rw [List.forall_mem_append, List.forall_mem_singleton] at covered
    rw [finished_concat]
    exact housed covered.2 (confined.housed covered.1)
  ips covered := by
    rw [List.forall_mem_append, List.forall_mem_singleton] at covered
    rw [finished_concat, List.forall_mem_append, List.forall_mem_singleton]
    refine ⟨fun y before address at_ => ?_, fun address at_ => ?_⟩
    · exact (confined.ips covered.1 y before address at_).append _
    · exact ((confined.housed covered.1).ip address at_).append _

theorem tracks_confined : Tracks Confined (throughWords fun _ => False) where
  begins {past x} delegates founded confined := by
    refine confined.concat (fun name n f kind host => ?_) confined.plain fun _ housed => ?_
    · rw [kind] at founded
      obtain ⟨entry, immediate, known⟩ := founded
      exact (confined.plain.entries entry _ known).2 f host
    · rw [Moment.closes_of_delegates delegates, List.append_nil]
      exact housed
  native {past depth name n m} own confined := by
    refine confined.concat ?_ ?_ fun _ housed => ?_
    · rintro _ _ f ⟨⟩
      exact own f
    · exact confined.plain.edits (edits_callNative _ own)
    · have ended : (m.callNative (Host.callHost depth) name n).EndsIn _ _ :=
        housed.endsIn_callNative _ confined.plain own
      unfold Moment.closes
      simp only
      generalize m.callNative (Host.callHost depth) name n = o at ended
      cases o with
      | done _ after => exact ended
      | failed f after =>
        rw [Outcome.succeeds, if_neg Bool.false_ne_true, List.append_nil]
        exact ended
  turn {past m} depth base credit confined := by
    refine confined.concat ?_ (confined.plain.turn base) fun covered housed => ?_
    · intro _ _ _ kind
      cases kind
    · have turned := housed.turn confined.plain (covered base credit rfl)
      exact (List.append_nil (finished past)).symm ▸ turned
  aside changed confined :=
    confined.changed (changed.plain confined.plain) fun housed =>
      housed.aside confined.plain changed
  enter {past m address place} founded located confined := by
    refine confined.changed (confined.plain.congr rfl rfl) fun housed => ?_
    rcases founded with entrance | outside | called
    · exact housed.enter entrance located
    · exact outside.elim
    · exact absurd called confined.hostless
  leave {past m x} before confined := by
    refine ⟨confined.plain.congr rfl rfl, confined.hostless, fun covered => ?_, confined.ips⟩
    have housed := confined.housed covered
    exact housed.place housed.returns (confined.ips covered x before)
  switch _ confined :=
    confined.changed (confined.plain.congr rfl rfl) fun housed =>
      housed.of_eq rfl rfl (.inl rfl) ⟨rfl, rfl, rfl⟩
  insert inserts := inserts.elim

theorem confined_bare (capacity : Int) (verbose : Bool) :
    Confined [] (Machine.bare capacity verbose) where
  plain := plain_bare capacity verbose
  hostless := by
    rintro ⟨x, before, -⟩
    cases before
  housed _ := by
    have none_ : (Machine.bare capacity verbose).dictionary.colonAddresses = [] := rfl
    refine ⟨fun b inside => ?_, fun b inside => ?_, fun entry address behind => ?_,
      fun b inside => ?_, fun entry slot behavior owns => ?_, fun draft open_ => ?_,
      fun r inside => ?_, fun address at_ => ?_⟩
    · cases inside
    · cases inside
    · obtain ⟨name, immediate, known⟩ := Dictionary.get?_of_body? behind
      have listed := Dictionary.mem_colonAddresses.mpr ⟨_, Array.mem_of_getElem? known, rfl⟩
      rw [none_] at listed
      cases listed
    · cases inside
    · exact absurd ((owning_bare capacity verbose).1.lt_of_slot owns) (Nat.not_lt_zero _)
    · cases open_
    · cases inside
    · cases at_
  ips _ x before := by cases before

variable {session : List Operation}

/-- A session in which no callables are registered registers none that are not tame. -/
theorem Operation.within_registering {operation : Operation}
    (within : operation.Within (throughWords fun _ => False)) :
    operation.Within (registering fun _ => False) := by
  cases operation with
  | executeAddress address => trivial
  | defineNative name item options => exact fun f same => (within f same).1
  | importMapping pairs => exact fun pair inside f same => (within pair inside f same).1
  | importObject attributes =>
    exact fun own inside item held f same => (within own inside item held f same).1
  | appendCell items => exact within
  | _ => trivial

/-- No turn is taken below the base of its run. -/
theorem covered_of_mem_history {capacity : Int} {withPrelude verbose : Bool} {x : Moment}
    (within : ∀ operation ∈ session, operation.Within (throughWords fun _ => False))
    (inside : x ∈ history capacity withPrelude verbose session) : x.Covered := by
  have tame : ∀ f : Host.Callable, False → f.IsTame := fun f none_ => none_.elim
  have bare := Contract.inv_balanced_bare (P := fun _ => False) capacity verbose
  have ready : x.activity.Ready capacity (fun _ => False) x.machine := by
    rcases begins_of_mem_history inside with begun | begun
    · refine (begun.balanced tame ?_ bare).2
      exact List.forall_mem_singleton.mpr trivial
    · have spanning := Contract.balanced_spanning capacity tame
      refine (begun.balanced tame ?_ (spanning.inv_fresh bare)).2
      exact fun operation one => Operation.within_registering (within operation one)
  intro base credit kind
  rw [kind] at ready
  obtain ⟨low, rfl, held⟩ := ready
  exact held.depth_le

/-- At every moment nothing leads out of the bodies that have been finished until then. -/
theorem housed_stateAt {capacity : Int} {withPrelude verbose : Bool}
    (within : ∀ operation ∈ session, operation.Within (throughWords fun _ => False)) (i : Nat) :
    (stateAt capacity withPrelude verbose session i).Housed
      (finished ((history capacity withPrelude verbose session).take i)) := by
  refine (tracks_confined.history capacity withPrelude verbose within
    (confined_bare capacity verbose) i).housed fun x before => ?_
  exact covered_of_mem_history within (List.mem_of_mem_take before)

/-- In a session of words, at every moment: no two created words have the same slot; a behavior
is the address behind a `does` cell and its exit in the body of a finished definition; a word that
is not the newest created one keeps its behavior for good; and a slot holds what has been stored
into it last.  Whatever is stored changes one slot only. -/
theorem created_words_lasting (capacity : Int) (withPrelude verbose : Bool)
    (session : List Operation)
    (within : ∀ operation ∈ session, operation.Within (throughWords fun _ => False)) :
    (∀ i,
      let past := (history capacity withPrelude verbose session).take i
      let m := stateAt capacity withPrelude verbose session i
      (∀ entry other slot behavior behavior',
        m.dictionary.body? entry = some (.created slot behavior) →
        m.dictionary.body? other = some (.created slot behavior') → entry = other) ∧
      (∀ entry slot behavior, m.dictionary.body? entry = some (.created slot behavior) →
        slot < m.slots.size ∧ (behavior = .none ∨ ∃ a : Nat, behavior = .int (a + 2 : Nat) ∧
          m.code[a]? = some (.does (a + 2 : Nat)) ∧ m.code[a + 1]? = some .exit ∧
          ∃ b ∈ finished past, b.start ≤ a ∧ a + 2 ≤ b.stop ∧ m.code[b.stop]? = some .exit ∧
            ∃ owner, m.dictionary.body? owner = some (.colon b.start))) ∧
      (∀ k entry newer slot slot' behavior behavior', entry < newer →
        m.dictionary.body? entry = some (.created slot behavior) →
        m.dictionary.body? newer = some (.created slot' behavior') →
        (stateAt capacity withPrelude verbose session (i + k)).dictionary.body? entry =
          some (.created slot behavior)) ∧
      ∀ slot < m.slots.size, m.slots[slot]? = some (lastStored past slot)) ∧
    ∀ x ∈ history capacity withPrelude verbose session, ∀ slot v, x.stores? = some (slot, v) →
      slot < x.machine.slots.size ∧ x.next.slots = x.machine.slots.setIfInBounds slot v := by
  have everywhere : ∀ operation ∈ session, operation.Within everything :=
    fun operation _ => operation.within_everything
  have owning := tracks_owning.history capacity withPrelude verbose everywhere
    (owning_bare capacity verbose)
  have contents := tracks_contents.history capacity withPrelude verbose everywhere
    (contents_bare capacity verbose)
  refine ⟨fun i => ⟨?_, ?_, ?_, ?_⟩, fun x inside slot v stores => ?_⟩
  · exact fun entry other slot behavior behavior' owns owns' => (owning i).1.eq_of_slot owns owns'
  · intro entry slot behavior owns
    have housed : (stateAt capacity withPrelude verbose session i).Housed
        (finished ((history capacity withPrelude verbose session).take i)) :=
      housed_stateAt within i
    refine ⟨?_, ?_⟩
    · exact (owning i).1.lt_of_slot owns
    · rcases housed.behaviors entry slot behavior owns with none_ | ⟨target, same, lodged⟩
      · exact .inl none_
      · obtain ⟨b, finished_, a, rfl, does, exit, low, high⟩ := lodged
        refine .inr ⟨a, same, does, exit, b, finished_, low, high, ?_, housed.owners b finished_⟩
        exact (housed.closed b finished_).2
  · intro k entry newer slot slot' behavior behavior' older owns owns'
    have spared := stateAt_since .refl (fun j x before => ((owning j).2 x before).2) i k
    rw [spared.older (owning i).1 entry newer slot' behavior' older owns']
    exact owns
  · exact (contents i).held fun x before slot v => lt_of_stores (List.mem_of_mem_take before)
  · exact ⟨lt_of_stores inside stores, slots_of_stores stores⟩

/-- A session in which a factory creates a word, and then another word is created. -/
def dealing : List Operation :=
  [.run [.batch [.text "const"], .word "define", .word "create", .word "store", .word "does",
    .word "load", .word "return"],
  .run [.batch [.int 5, .text "a"], .word "const"],
  .run [.batch [.int 3, .text "x"], .word "create", .word "store"]]

/-- The machine with the factory. -/
def equipped : Machine :=
  { fresh 8 false false with
    dictionary := (fresh 8 false false).dictionary.push ⟨"const", false, .colon 0⟩
    lastDefined := some 40
    barrier := 4
    code := #[.native 18, .native 15, .does 4, .exit, .native 14, .exit] }

/-- The machine with the word that the factory has created. -/
def dealt : Machine :=
  { equipped with
    slots := #[.int 5]
    dictionary := equipped.dictionary.push ⟨"a", false, .created 0 (.int 4)⟩
    lastCreated := some 41
    lastDefined := some 41 }

theorem play_dealing : play dealing (fresh 8 false false) = play (dealing.drop 2) dealt := by
  have begun : play (dealing.take 1) (fresh 8 false false) = equipped := by decide +kernel
  have found : equipped.dictionary.find? "const" = some 40 := by decide +kernel
  have ended := executeAddress_of_halt Host.caller 3 (0 : Nat)
    (equipped.pushAll [.int 5, .text "a"]) { dealt with ip := none } rfl
  have ran : run [.batch [.int 5, .text "a"], .word "const"] equipped = .done () dealt := by
    rw [run, run_batch_colon Host.caller _ rfl found rfl, ended]
    rfl
  have made : play [.run [.batch [.int 5, .text "a"], .word "const"]] equipped = dealt := by
    show (Result.ofSelf (run [.batch [.int 5, .text "a"], .word "const"] equipped)).machine = dealt
    rw [ran]
    rfl
  have order : dealing = dealing.take 1 ++
      [.run [.batch [.int 5, .text "a"], .word "const"]] ++ dealing.drop 2 := rfl
  rw [order, play_append, play_append, begun, made]
  rfl

theorem created_words_lasting_dealing :
    let past := history 8 false false dealing
    (∀ operation ∈ dealing, operation.Within (throughWords fun _ => False)) ∧
      (∃ b ∈ finished past, b.start ≤ 2 ∧ 4 ≤ b.stop) ∧
      (∀ k, (stateAt 8 false false dealing (past.length + k)).dictionary.body? 41 =
        some (.created 0 (.int 4))) ∧
      lastStored past 0 = .int 5 ∧ lastStored past 1 = .int 3 := by
  intro past
  have within : ∀ operation ∈ dealing, operation.Within (throughWords fun _ => False) := by
    simp [dealing, Operation.Within]
  have ended : stateAt 8 false false dealing past.length = play (dealing.drop 2) dealt :=
    (stateAt_of_length_le (Nat.le_refl _)).trans play_dealing
  have first : (play (dealing.drop 2) dealt).dictionary.body? 41 = some (.created 0 (.int 4)) := by
    decide +kernel
  have second : (play (dealing.drop 2) dealt).dictionary.body? 42 = some (.created 1 .none) := by
    decide +kernel
  have slots : (play (dealing.drop 2) dealt).slots = #[.int 5, .int 3] := by decide +kernel
  obtain ⟨-, behaviors, kept, held⟩ :=
    (created_words_lasting 8 false false dealing within).1 past.length
  rw [ended] at behaviors kept held
  rw [slots] at held
  rw [List.take_length] at behaviors held
  refine ⟨within, ?_, fun k => kept k 41 42 0 1 _ _ (by decide) first second, ?_, ?_⟩
  · obtain ⟨-, none_ | ⟨a, same, -, -, b, inside, low, high, -⟩⟩ := behaviors 41 0 _ first
    · cases none_
    · cases same
      exact ⟨b, inside, low, high⟩
  · exact (Option.some.inj (held 0 (by decide))).symm
  · exact (Option.some.inj (held 1 (by decide))).symm

end Session

end ThreadedForth
