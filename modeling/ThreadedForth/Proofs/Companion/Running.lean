import ThreadedForth.Proofs.Activity
import ThreadedForth.Proofs.Balance
import ThreadedForth.Proofs.Companion

/-!
# Runs and sessions of companions

From turn to turn companions stay companions, and so they do with all that is made of turns:
runs, words, tokens and source texts.  A host callable can see the return stack.  So what is
done must not call any, and that is asked of whatever goes on inside (`Unhosted`).

A run that begins when nothing is running begins with an empty return stack.  So, as soon as
any code has been run, return stacks that were different are the same.  This is kept apart for
each activity by the kinship itself: `Kinship.except` forbids the return stacks to differ if
code is run in the course of the activity (`Activity.RunsCode`).

* `Companion.loop`: companions run alike, turn by turn;
* `Companion.executeAddress`: after a run the return stacks are the same, whatever they were;
* `Companion.run`, `Companion.execute`: companions do the same with what they are fed;
* `Session.together_outcomes`: so it goes on through a session.
-/

namespace ThreadedForth

/-! ## What goes on inside -/

namespace Activity

/-- An activity and everything that it starts, directly or not. -/
inductive Involves (depth : Nat) (activity : Activity) (m : Machine) :
    (depth' : Nat) → Activity → (m' : Machine) → Prop where
  | itself : Involves depth activity m depth activity m
  | inner {depth' depth'' : Nat} {outer inner : Activity} {m' m'' : Machine}
      (around : Involves depth activity m depth' outer m')
      (starts : outer.Starts depth' m' depth'' inner m'') :
      Involves depth activity m depth'' inner m''

variable {depth depth' depth'' : Nat} {activity outer inner : Activity} {m m' m'' : Machine}

theorem Involves.cases_head (involved : outer.Involves depth m depth' inner m') :
    (depth' = depth ∧ inner = outer ∧ m' = m) ∨
      ∃ depth'' activity m'', outer.Starts depth m depth'' activity m'' ∧
        activity.Involves depth'' m'' depth' inner m' := by
  induction involved with
  | itself => exact .inl ⟨rfl, rfl, rfl⟩
  | inner _ starts ih =>
    right
    rcases ih with ⟨rfl, rfl, rfl⟩ | ⟨depth'', activity, m'', first, rest⟩
    · exact ⟨_, _, _, starts, .itself⟩
    · exact ⟨depth'', activity, m'', first, .inner rest starts⟩

/-- Code is run in the course of the activity. -/
def RunsCode (depth : Nat) (m : Machine) (activity : Activity) : Prop :=
  ∃ depth' address m', activity.Involves depth m depth' (.code address) m'

/-- If an activity that is not itself a run of code runs code, it starts another one that
does. -/
theorem RunsCode.exists_starts (runs : activity.RunsCode depth m)
    (other : ∀ address, activity ≠ .code address) :
    ∃ depth' inner m', activity.Starts depth m depth' inner m' ∧ inner.RunsCode depth' m' := by
  obtain ⟨depth'', address, m'', involved⟩ := runs
  rcases involved.cases_head with ⟨-, same, -⟩ | ⟨depth', inner, m', starts, rest⟩
  · exact absurd same.symm (other address)
  · exact ⟨depth', inner, m', starts, depth'', address, m'', rest⟩

/-- The words that run code are colon words, words with a behavior, and native words that do. -/
theorem RunsCode.of_entry {entry : Nat} (runs : RunsCode depth m (.entry entry)) :
    ∃ w, m.dictionary.get? entry = some w ∧
      match w.body with
      | .native n => RunsCode depth m (.native w.name n)
      | .colon _ => True
      | .created _ behavior => behavior ≠ .none := by
  obtain ⟨_, _, _, starts, inside⟩ := runs.exists_starts nofun
  cases starts with
  | native known => exact ⟨_, known, inside⟩
  | colon known => exact ⟨_, known, trivial⟩
  | behavior known given => exact ⟨_, known, given⟩

/-- A name that runs code means a word that does, and is not compiled. -/
theorem RunsCode.of_name {name : String} (runs : RunsCode depth m (.token (.word name))) :
    ∃ entry w, m.ownAddress? name = none ∧ m.lookup name = .ok entry ∧
      m.dictionary.get? entry = some w ∧ (m.compiling && !w.immediate) = false ∧
      RunsCode depth m (.entry entry) := by
  obtain ⟨_, _, _, starts, inside⟩ := runs.exists_starts nofun
  cases starts with
  | name foreign found known runs => exact ⟨_, _, foreign, found, known, runs, inside⟩

/-- Of the tokens that run code, it is the first one that does or one of the others. -/
theorem RunsCode.of_cons {token : Token} {rest : List Token}
    (runs : RunsCode depth m (.tokens (token :: rest))) :
    RunsCode depth m (.token token) ∨
      ∃ after, m.interpret (Host.callHost depth) token = .done () after ∧
        RunsCode depth after (.tokens rest) := by
  obtain ⟨_, _, _, starts, inside⟩ := runs.exists_starts nofun
  cases starts with
  | firstToken => exact .inl inside
  | afterToken fed => exact .inr ⟨_, fed, inside⟩

end Activity

/-- Whatever an allowed activity starts is allowed, and no callable is. -/
structure Unhosted (allows : Nat → Activity → Machine → Prop) : Prop where
  starts {depth depth' : Nat} {activity inner : Activity} {m m' : Machine} :
    allows depth activity m → activity.Starts depth m depth' inner m' → allows depth' inner m'
  callable {depth : Nat} {f : Host.Callable} {arguments : List Value} {m : Machine} :
    ¬ allows depth (.callable f arguments) m

theorem Unhosted.not_runsCode_native {allows : Nat → Activity → Machine → Prop}
    (unhosted : Unhosted allows) {depth : Nat} {name : String} {n : Native} {m : Machine}
    (allowed : allows depth (.native name n) m) :
    ¬ Activity.RunsCode depth m (.native name n) := by
  intro runs
  obtain ⟨_, _, _, starts, -⟩ := runs.exists_starts nofun
  cases starts with
  | host kind enough => exact unhosted.callable (unhosted.starts allowed (.host kind enough))

/-- Nothing that is involved in an activity is a call of a callable. -/
def Activity.Unhosted (depth : Nat) (m : Machine) (activity : Activity) : Prop :=
  ∀ depth' f arguments m', ¬ activity.Involves depth m depth' (.callable f arguments) m'

theorem Activity.Unhosted.allows {depth : Nat} {m : Machine} {activity : Activity}
    (unhosted : activity.Unhosted depth m) :
    ThreadedForth.Unhosted (activity.Involves depth m) where
  starts involved starts := .inner involved starts
  callable involved := unhosted _ _ _ _ involved

/-- Everything that is involved in an activity that begins in balance begins in balance. -/
theorem Activity.Involves.balanced {capacity : Int} {P : Host.Callable → Prop}
    {depth depth' : Nat} {m m' : Machine} {activity inner : Activity}
    (involved : activity.Involves depth m depth' inner m') (tame : ∀ f, P f → f.IsTame)
    (inv : (Contract.balanced capacity P).inv m) (ready : activity.Ready capacity P m) :
    (Contract.balanced capacity P).inv m' ∧ inner.Ready capacity P m' := by
  induction involved with
  | itself => exact ⟨inv, ready⟩
  | inner _ starts ih => exact starts.balanced tame ih.1 ih.2

/-- If no callable is registered then none is called. -/
theorem Activity.unhosted_of_balanced {capacity : Int} {depth : Nat} {m : Machine}
    {activity : Activity} (inv : (Contract.balanced capacity fun _ => False).inv m)
    (ready : activity.Ready capacity (fun _ => False) m) : activity.Unhosted depth m := by
  intro depth' f arguments m' involved
  exact (involved.balanced (fun _ => False.elim) inv ready).2

/-! ## Kinship, more or less -/

namespace Kinship

/-- The same kinship, but the return stacks may not differ if `p` is the case. -/
def except (K : Kinship) (p : Prop) : Kinship :=
  { K with
    apart := K.apart ∧ ¬ p
    stale := fun apart => K.stale apart.1 }

variable {K : Kinship}

theorem notes_append (new : List Note) {old old' : List Note} (related : K.notes old old') :
    K.notes (new ++ old) (new ++ old') := by
  induction new with
  | nil => exact related
  | cons note rest ih => exact K.noted ih

theorem notes_append_stale (apart : K.apart) {new new' old old' : List Note}
    (stale : ∀ note ∈ new, note.channel = .interpreter)
    (stale' : ∀ note ∈ new', note.channel = .interpreter) (related : K.notes old old') :
    K.notes (new ++ old) (new' ++ old') := by
  induction new with
  | nil =>
    induction new' with
    | nil => exact related
    | cons note rest ih =>
      rw [List.forall_mem_cons] at stale'
      exact (K.stale apart stale'.1 (ih stale'.2)).2
  | cons note rest ih =>
    rw [List.forall_mem_cons] at stale
    exact (K.stale apart stale.1 (ih stale.2)).1

end Kinship

namespace Machine

variable {m : Machine}

theorem loop_of_exhausted (call : Caller) {base : Nat} {name : String} {n : Native}
    {after : Machine} (turned : m.turn base = .enter name n after) :
    m.loop call base 0 = .failed .exhausted after := by
  rw [loop]
  split <;> simp_all

/-- What is noted when return addresses are discarded. -/
def staleNotes (verbose : Bool) : (depth : Nat) → List Note
  | 0 => []
  | count + 1 =>
    if Level.debug.isTaken verbose then
      [⟨.debug, .interpreter, s!"discarding {count + 1} stale return addresses"⟩]
    else []

theorem channel_of_mem_staleNotes {verbose : Bool} {depth : Nat} {note : Note}
    (inside : note ∈ staleNotes verbose depth) : note.channel = .interpreter := by
  unfold staleNotes at inside
  split at inside
  · cases inside
  · split at inside
    · rw [List.mem_singleton.mp inside]
    · cases inside

/-- When nothing is running, all return addresses are discarded. -/
theorem discardStale_of_idle (idle : m.ip = none) :
    m.discardStale = { m with
      returns := .empty, journal := staleNotes m.verbose m.returns.depth ++ m.journal } := by
  obtain ⟨s, code, ⟨items, depth, depth_eq⟩, ip, capacity⟩ := m
  cases idle
  cases depth with
  | zero =>
    obtain rfl : items = [] := List.eq_nil_of_length_eq_zero depth_eq.symm
    rfl
  | succ count =>
    simp only [discardStale, staleNotes, note, Store.note]
    split
    · rfl
    · rfl

end Machine

/-- Whether the return stacks may differ does not matter to stores. -/
theorem Store.Companion.relate {K L : Kinship} {s t : Store} (companion : s.Companion K t)
    (notes : L.notes = K.notes) (loose : L.loose = K.loose) : s.Companion L t := by
  cases companion with
  | beside related drafts => exact .beside (notes ▸ related) (loose ▸ drafts)

namespace Machine.Companion

variable {K : Kinship} {m m' : Machine} {p q r : Prop}

/-- Machines with the same return stacks. -/
theorem except_of_eq (companion : m.Companion K m') (same : m'.returns = m.returns) :
    m.Companion (K.except p) m' :=
  ⟨companion.store.relate rfl rfl, companion.code, companion.ip, .inl same, companion.room⟩

theorem returns_eq_of_except (companion : m.Companion (K.except True) m') :
    m'.returns = m.returns :=
  companion.returns.resolve_right fun both => both.1.2 trivial

theorem except_of_not (companion : m.Companion K m') (other : ¬ p) :
    m.Companion (K.except p) m' := by
  refine ⟨companion.store.relate rfl rfl, companion.code, companion.ip, ?_, companion.room⟩
  exact companion.returns.imp_right fun both => ⟨⟨both.1, other⟩, both.2⟩

theorem except_mono (companion : m.Companion (K.except p) m') (weaker : q → p) :
    m.Companion (K.except q) m' := by
  refine ⟨companion.store.relate rfl rfl, companion.code, companion.ip, ?_, companion.room⟩
  exact companion.returns.imp_right fun both => ⟨⟨both.1.1, both.1.2 ∘ weaker⟩, both.2⟩

theorem of_except (companion : m.Companion (K.except p) m') : m.Companion K m' := by
  refine ⟨companion.store.relate rfl rfl, companion.code, companion.ip, ?_, companion.room⟩
  exact companion.returns.imp_right fun both => ⟨both.1.1, both.2⟩

theorem except_except (companion : m.Companion ((K.except p).except q) m') (weaker : r → p ∨ q) :
    m.Companion (K.except r) m' := by
  refine ⟨companion.store.relate rfl rfl, companion.code, companion.ip, ?_, companion.room⟩
  refine companion.returns.imp_right fun both => ⟨⟨both.1.1.1, fun holds => ?_⟩, both.2⟩
  exact (weaker holds).elim both.1.1.2 both.1.2

/-- A run begins with the same return stacks. -/
theorem discardStale (companion : m.Companion K m') :
    m.discardStale.Companion (K.except p) m'.discardStale := by
  cases at_ : m.ip with
  | some address =>
    rw [discardStale_of_running at_, discardStale_of_running (companion.ip.trans at_)]
    exact companion.except_of_eq (companion.returns_eq at_)
  | none =>
    rw [discardStale_of_idle at_, discardStale_of_idle (companion.ip.trans at_)]
    have verbose : m'.verbose = m.verbose :=
      companion.reads (fun m => m.verbose) fun _ _ _ _ => rfl
    have notes : K.notes (staleNotes m.verbose m.returns.depth ++ m.journal)
        (staleNotes m'.verbose m'.returns.depth ++ m'.journal) := by
      rw [verbose]
      rcases companion.returns with same | ⟨apart, -⟩
      · rw [same]
        exact K.notes_append _ companion.store.journal
      · exact K.notes_append_stale apart (fun _ => channel_of_mem_staleNotes)
          (fun _ => channel_of_mem_staleNotes) companion.store.journal
    refine ⟨?_, companion.code, companion.ip, .inl rfl, companion.room⟩
    exact (companion.store.renote notes).relate rfl rfl

/-! ## Running -/

variable {allows : Nat → Activity → Machine → Prop} {depth : Nat} (unhosted : Unhosted allows)

include unhosted

theorem callNative {name : String} {n : Native} (companion : m.Companion K m')
    (allowed : allows depth (.native name n) m) :
    Outcome.Together K.Excuses (fun a a' => a.Companion K a' ∧ a.ip = m.ip)
      (m.callNative (Host.callHost depth) name n)
      (m'.callNative (Host.callHost depth) name n) := by
  have stack : m'.stack = m.stack := companion.store.reads Store.stack fun _ _ => rfl
  unfold Machine.callNative
  cases kind : n.action with
  | primitive p =>
    refine (companion.callWith fun arguments _ _ companion => ?_).and_left ?_
    · exact companion.performPrimitive p arguments
    · exact (edits_callWith p.edits_perform name n m).samePoint.ip
  | directive d =>
    refine (companion.callWith fun arguments _ _ companion => ?_).and_left ?_
    · exact companion.performDirective d arguments
    · exact (edits_callWith d.edits_perform name n m).samePoint.ip
  | host f =>
    by_cases short : m.stack.depth < n.arity
    · unfold Machine.callWith
      rw [stack, if_pos short, if_pos short]
      exact .failed ⟨companion, rfl⟩
    · -- the callable would be called
      exact (unhosted.callable (unhosted.starts allowed (.host kind (Nat.le_of_not_lt short)))).elim

/-- Companions run alike, turn by turn. -/
theorem loop (base credit : Nat) (companion : m.Companion K m')
    (allowed : allows depth (.turns base credit) m) :
    Outcome.Together K.Excuses (Companion K) (m.loop (Host.callHost depth) base credit)
      (m'.loop (Host.callHost depth) base credit) := by
  fun_induction Machine.loop (Host.callHost depth) base credit m generalizing m' with
  | case1 credit m after turned ih =>
    obtain ⟨after', turned', related⟩ := (companion.turn base).exists_next turned
    rw [loop_of_next _ turned']
    exact ih related (unhosted.starts allowed (.turn turned))
  | case2 credit m after turned =>
    obtain ⟨after', turned', related⟩ := (companion.turn base).exists_halt turned
    rw [loop_of_halt _ turned']
    exact .done related
  | case3 credit m f after turned =>
    obtain ⟨after', turned', related⟩ | excused := (companion.turn base).exists_fault turned
    · rw [loop_of_fault _ turned']
      exact .failed related
    · exact .excused excused
  | case4 m name n after turned =>
    obtain ⟨after', turned', related⟩ := (companion.turn base).exists_enter turned
    rw [loop_of_exhausted _ turned']
    exact .failed related
  | case5 m name n after turned credit ended called ih =>
    obtain ⟨after', turned', related⟩ := (companion.turn base).exists_enter turned
    have worked := related.callNative unhosted (unhosted.starts allowed (.enter turned))
    rw [called] at worked
    rw [loop_of_enter _ turned']
    generalize after'.callNative (Host.callHost depth) name n = o' at worked
    cases worked with
    | done related => exact ih related.1 (unhosted.starts allowed (.afterEntry turned called))
  | case6 m name n after turned credit f ended called =>
    obtain ⟨after', turned', related⟩ := (companion.turn base).exists_enter turned
    have worked := related.callNative unhosted (unhosted.starts allowed (.enter turned))
    rw [called] at worked
    rw [loop_of_enter _ turned']
    generalize after'.callNative (Host.callHost depth) name n = o' at worked
    cases worked with
    | failed related => exact .failed related.1
    | excused excused => exact .excused excused

/-- After a run the return stacks are the same, whatever they were. -/
theorem executeAddress {address : Value} (companion : m.Companion K m')
    (allowed : allows depth (.code address) m) :
    Outcome.Together K.Excuses (fun a a' => a.Companion (K.except p) a' ∧ a.ip = m.ip)
      (m.executeAddress (Host.callHost depth) address)
      (m'.executeAddress (Host.callHost depth) address) := by
  have start : m.discardStale.Companion (K.except True) m'.discardStale := companion.discardStale
  have still : m.discardStale.ip = m.ip := by
    obtain ⟨notes, stale⟩ := m.discardStale_eq
    rw [stale]
  have same := start.returns_eq_of_except
  unfold Machine.executeAddress
  simp only
  rw [start.locate, same, companion.ip]
  cases located : m.discardStale.locate address with
  | error f => exact .failed ⟨start.except_mono fun _ => trivial, still⟩
  | ok place =>
    have ran := (start.place place).loop unhosted m.discardStale.returns.depth maxEntries
      (unhosted.starts allowed (.run located))
    refine ran.adjust fun a a' related => ⟨?_, rfl⟩
    exact ⟨related.store.relate rfl rfl, related.code, rfl, .inl related.returns_eq_of_except,
      related.room⟩

/-- Companions do the same with an entry of the dictionary. -/
theorem executeEntry {entry : Nat} (companion : m.Companion K m')
    (allowed : allows depth (.entry entry) m) :
    Outcome.Together K.Excuses
      (fun a a' => a.Companion (K.except (Activity.RunsCode depth m (.entry entry))) a' ∧
        a.ip = m.ip)
      (m.executeEntry (Host.callHost depth) entry)
      (m'.executeEntry (Host.callHost depth) entry) := by
  have dictionary : m'.dictionary = m.dictionary :=
    companion.reads (fun m => m.dictionary) fun _ _ _ _ => rfl
  unfold Machine.executeEntry
  rw [dictionary]
  cases known : m.dictionary.get? entry with
  | none =>
    refine .failed ⟨companion.except_of_not fun runs => ?_, rfl⟩
    obtain ⟨w, found, -⟩ := runs.of_entry
    cases known.symm.trans found
  | some w =>
    obtain ⟨name, immediate, body⟩ := w
    cases body with
    | native n =>
      have worked := companion.callNative unhosted (unhosted.starts allowed (.native known))
      refine worked.mono fun a a' related => ⟨related.1.except_of_not fun runs => ?_, related.2⟩
      obtain ⟨w, found, inside⟩ := runs.of_entry
      cases known.symm.trans found
      exact unhosted.not_runsCode_native (unhosted.starts allowed (.native known)) inside
    | colon address =>
      exact companion.executeAddress unhosted (unhosted.starts allowed (.colon known))
    | created slot behavior =>
      have pushed := companion.pushAll [.cell slot]
      by_cases given : behavior = .none
      · subst given
        refine .done ⟨pushed.except_of_not fun runs => ?_, rfl⟩
        obtain ⟨w, found, given⟩ := runs.of_entry
        cases known.symm.trans found
        exact given rfl
      · have ran := pushed.executeAddress (p := Activity.RunsCode depth m (.entry entry)) unhosted
          (unhosted.starts allowed (.behavior known given))
        cases behavior with
        | none => exact absurd rfl given
        | _ => exact ran

/-! ## Feeding -/

theorem interpretName {name : String} (companion : m.Companion K m')
    (allowed : allows depth (.token (.word name)) m) :
    Outcome.Together K.Excuses
      (fun a a' => a.Companion (K.except (Activity.RunsCode depth m (.token (.word name)))) a' ∧
        a.ip = m.ip)
      (m.interpretName (Host.callHost depth) name)
      (m'.interpretName (Host.callHost depth) name) := by
  have dictionary : m'.dictionary = m.dictionary :=
    companion.reads (fun m => m.dictionary) fun _ _ _ _ => rfl
  have mode : m'.compiling = m.compiling :=
    companion.reads (fun m => m.compiling) fun _ _ _ _ => rfl
  have lookup : m'.lookup name = m.lookup name :=
    companion.store.reads (Store.lookup name) fun _ _ => rfl
  have own : m'.ownAddress? name = m.ownAddress? name := by
    unfold ownAddress?
    rw [mode]
    cases compiling : m.compiling with
    | true => rw [companion.store.draft_eq compiling]
    | false => rfl
  unfold Machine.interpretName
  rw [own, lookup]
  cases foreign : m.ownAddress? name with
  | some address =>
    refine .done ⟨(companion.append _).except_of_not fun runs => ?_, rfl⟩
    obtain ⟨_, _, foreign', -⟩ := runs.of_name
    cases foreign.symm.trans foreign'
  | none =>
    cases found : m.lookup name with
    | error f =>
      refine .failed ⟨companion.except_of_not fun runs => ?_, rfl⟩
      obtain ⟨_, _, -, found', -⟩ := runs.of_name
      cases found.symm.trans found'
    | ok entry =>
      simp only [dictionary, mode]
      cases known : m.dictionary.get? entry with
      | none =>
        refine .failed ⟨companion.except_of_not fun runs => ?_, rfl⟩
        obtain ⟨_, _, -, found', known', -⟩ := runs.of_name
        cases found.symm.trans found'
        cases known.symm.trans known'
      | some w =>
        simp only
        by_cases compiles : (m.compiling && !w.immediate) = true
        · rw [if_pos compiles, if_pos compiles]
          refine .done ⟨(companion.append _).except_of_not fun runs => ?_, rfl⟩
          obtain ⟨_, _, -, found', known', runs', -⟩ := runs.of_name
          cases found.symm.trans found'
          cases known.symm.trans known'
          cases compiles.symm.trans runs'
        · rw [if_neg compiles, if_neg compiles]
          have run_ := companion.executeEntry unhosted (unhosted.starts allowed
            (.name foreign found known (Bool.eq_false_iff.mpr compiles)))
          refine run_.mono fun a a' related => ⟨related.1.except_mono fun runs => ?_, related.2⟩
          obtain ⟨_, _, -, found', -, -, inside⟩ := runs.of_name
          cases found.symm.trans found'
          exact inside

omit unhosted in
theorem interpretLiterals (values : List Value) (companion : m.Companion K m') :
    Outcome.Together K.Excuses (fun a a' => a.Companion K a' ∧ a.ip = m.ip)
      (m.interpretLiterals values) (m'.interpretLiterals values) := by
  have mode : m'.compiling = m.compiling :=
    companion.reads (fun m => m.compiling) fun _ _ _ _ => rfl
  have joined : m'.joinedLiterals values = m.joinedLiterals values :=
    companion.reads (Machine.joinedLiterals values) fun _ _ _ _ => rfl
  unfold Machine.interpretLiterals
  rw [mode, joined]
  split
  · cases m.joinedLiterals values with
    | ok joined =>
      refine .done ⟨companion.writeLiterals values joined, ?_⟩
      cases joined with
      | none => rfl
      | some all => rfl
    | error f => exact .failed ⟨companion, rfl⟩
  · exact .done ⟨companion.pushAll values, rfl⟩

omit unhosted in
theorem abandonIfCompiling (companion : m.Companion K m') :
    m.abandonIfCompiling.Companion K m'.abandonIfCompiling := by
  have mode : m'.compiling = m.compiling :=
    companion.reads (fun m => m.compiling) fun _ _ _ _ => rfl
  unfold Machine.abandonIfCompiling
  rw [mode]
  split
  · next compiling => exact companion.withStore (companion.store.abandon compiling)
  · exact companion

theorem interpret {token : Token} (companion : m.Companion K m')
    (allowed : allows depth (.token token) m) :
    Outcome.Together K.Excuses
      (fun a a' => a.Companion (K.except (Activity.RunsCode depth m (.token token))) a' ∧
        a.ip = m.ip)
      (m.interpret (Host.callHost depth) token) (m'.interpret (Host.callHost depth) token) := by
  have literals : ∀ values, (∀ name, token ≠ .word name) → Outcome.Together K.Excuses
      (fun a a' => a.Companion (K.except (Activity.RunsCode depth m (.token token))) a' ∧
        a.ip = m.ip) (m.interpretLiterals values) (m'.interpretLiterals values) := by
    intro values other
    refine (companion.interpretLiterals values).mono fun a a' related => ?_
    refine ⟨related.1.except_of_not fun runs => ?_, related.2⟩
    obtain ⟨_, _, _, starts, -⟩ := runs.exists_starts nofun
    cases starts with
    | name => exact other _ rfl
  have fed : Outcome.Together K.Excuses
      (fun a a' => a.Companion (K.except (Activity.RunsCode depth m (.token token))) a' ∧
        a.ip = m.ip) (m.interpretToken (Host.callHost depth) token)
      (m'.interpretToken (Host.callHost depth) token) := by
    cases token with
    | word name => exact companion.interpretName unhosted allowed
    | datum v => exact literals [v] nofun
    | batch values => exact literals values nofun
    | malformed content =>
      refine .failed ⟨companion.except_of_not fun runs => ?_, rfl⟩
      obtain ⟨_, _, _, starts, -⟩ := runs.exists_starts nofun
      cases starts
  unfold Machine.interpret
  generalize m.interpretToken (Host.callHost depth) token = o at fed
  generalize m'.interpretToken (Host.callHost depth) token = o' at fed
  cases fed with
  | done related => exact .done related
  | excused excused => exact .excused excused
  | @failed f a a' related =>
    have still : a.abandonIfCompiling.ip = a.ip := (edits_abandonIfCompiling a).samePoint.ip
    simp only [Outcome.onFault]
    by_cases interrupt : f.isInterrupt = true
    · rw [if_pos interrupt, if_pos interrupt]
      exact .failed related
    · rw [if_neg interrupt, if_neg interrupt]
      exact .failed ⟨related.1.abandonIfCompiling, still.trans related.2⟩

/-- Companions do the same with the tokens they are fed. -/
theorem run {tokens : List Token} (companion : m.Companion K m')
    (allowed : allows depth (.tokens tokens) m) :
    Outcome.Together K.Excuses
      (fun a a' => a.Companion (K.except (Activity.RunsCode depth m (.tokens tokens))) a' ∧
        a.ip = m.ip)
      (m.run (Host.callHost depth) tokens) (m'.run (Host.callHost depth) tokens) := by
  induction tokens generalizing K m m' with
  | nil =>
    refine .done ⟨companion.except_of_not fun runs => ?_, rfl⟩
    obtain ⟨_, _, _, starts, -⟩ := runs.exists_starts nofun
    cases starts
  | cons token rest ih =>
    have fed := companion.interpret unhosted (unhosted.starts allowed .firstToken)
    refine fed.bind ?_ ?_
    · intro f a a' ends related
      refine ⟨related.1.except_mono fun runs => ?_, related.2⟩
      obtain inside | ⟨after, ends', -⟩ := runs.of_cons
      · exact inside
      · cases ends.symm.trans ends'
    · intro _ a a' ends related
      have further := ih related.1 (unhosted.starts allowed (.afterToken ends))
      refine further.mono fun b b' both => ⟨both.1.except_except fun runs => ?_, ?_⟩
      · refine runs.of_cons.imp_right fun ⟨after, ends', inside⟩ => ?_
        cases ends.symm.trans ends'
        exact inside
      · exact both.2.trans related.2

theorem execute {source : String} (companion : m.Companion K m')
    (allowed : allows depth (.source source) m) :
    Outcome.Together K.Excuses (fun a a' => a.Companion K a' ∧ a.ip = m.ip)
      (m.execute (Host.callHost depth) source) (m'.execute (Host.callHost depth) source) := by
  unfold Machine.execute
  cases read : Token.tokenize source with
  | ok tokens =>
    have fed := companion.run unhosted (unhosted.starts allowed (.read read))
    exact fed.mono fun a a' related => ⟨related.1.of_except, related.2⟩
  | error f => exact .failed ⟨companion, rfl⟩

end Machine.Companion

/-! ## Sessions -/

namespace Session

/-- The operation feeds tokens or a source text. -/
def Operation.Feeds : Operation → Prop
  | .run _ | .execute _ => True
  | _ => False

variable {K : Kinship} {m m' : Machine}

/-- Companions take the same marks. -/
theorem together_marking {α : Type} (work : Value.Marking α) (companion : m.Companion K m') :
    Outcome.Together K.Excuses (Machine.Companion K) (m.marking work) (m'.marking work) := by
  have mark : m'.nextMark = m.nextMark := companion.reads (fun m => m.nextMark) fun _ _ _ _ => rfl
  unfold Machine.marking Store.marking
  rw [mark]
  cases work.run m.nextMark with
  | error f => exact .failed companion
  | ok result =>
    exact .done (companion.withStore (companion.store.update (g := fun s => { s with
      nextMark := result.2 }) (fun _ _ => rfl) rfl rfl rfl))

/-- Companions take the same feed. -/
theorem Operation.Feeds.together {operation : Operation} {allows : Nat → Activity → Machine → Prop}
    (feeds : operation.Feeds) (unhosted : Unhosted allows) (companion : m.Companion K m')
    (allowed : ∀ activity, operation.activity? = some activity →
      allows Host.maxDepth activity m) :
    Outcome.Together K.Excuses (Machine.Companion K) (operation.carryOut m)
      (operation.carryOut m') := by
  cases operation with
  | run tokens =>
    have ran := companion.run unhosted (allowed _ rfl)
    exact (ran.mono fun a a' related => related.1.of_except).map _
  | execute source =>
    have ran := companion.execute unhosted (allowed _ rfl)
    exact (ran.mono fun a a' related => related.1).map _
  | _ => exact feeds.elim

theorem Operation.Feeds.copy {operation own : Operation} {slots next last : Nat}
    (feeds : operation.Feeds) (h : (operation.copy slots).run next = .ok (own, last)) :
    own.Feeds := by
  cases operation with
  | run tokens =>
    obtain ⟨_, _, _, made⟩ := Value.Marking.exists_of_bind h
    cases made
    trivial
  | execute source =>
    cases h
    trivial
  | _ => exact feeds.elim

/-- What begins in the rest of a session begins in the session. -/
theorem Begins.cons {operation : Operation} {rest : List Operation} {depth : Nat}
    {activity : Activity} {state : Machine}
    (begun : Begins rest (operation.perform m).machine depth activity state) :
    Begins (operation :: rest) m depth activity state := by
  induction begun with
  | @operation before after other own ready activity order copied amounts =>
    have order : operation :: rest = (operation :: before) ++ other :: after :=
      congrArg (operation :: ·) order
    exact .operation order copied amounts
  | inner _ starts ih => exact .inner ih starts

/-- Nothing that begins in the session is a call of a callable. -/
def Unhosted (session : List Operation) (m : Machine) : Prop :=
  ∀ depth f arguments state, ¬ Begins session m depth (.callable f arguments) state

theorem Unhosted.allows {session : List Operation} (unhosted : Unhosted session m) :
    ThreadedForth.Unhosted (Begins session m) where
  starts begun starts := .inner begun starts
  callable begun := unhosted _ _ _ _ begun

theorem Unhosted.tail {operation : Operation} {rest : List Operation}
    (unhosted : Unhosted (operation :: rest) m) : Unhosted rest (operation.perform m).machine :=
  fun _ _ _ _ begun => unhosted _ _ _ _ begun.cons

/-- Companions carry out the first operation of a session alike. -/
theorem Operation.Feeds.together_perform {operation : Operation} {rest : List Operation}
    (feeds : operation.Feeds) (unhosted : Unhosted (operation :: rest) m)
    (companion : m.Companion K m') :
    Outcome.Together K.Excuses (Machine.Companion K) (operation.perform m)
      (operation.perform m') := by
  have slots : m'.slots = m.slots := companion.reads (fun m => m.slots) fun _ _ _ _ => rfl
  unfold Operation.perform
  rw [slots]
  refine (together_marking _ companion).bind (fun _ _ _ _ related => related) ?_
  intro own ready ready' copied related
  obtain ⟨last, runs⟩ := Value.Marking.exists_of_marking copied
  refine (Feeds.copy feeds runs).together unhosted.allows related fun activity amounts => ?_
  exact .operation (List.nil_append _).symm copied amounts

/-- Companions go through a session of feeds together, if no fault is excused. -/
theorem together_outcomes {session : List Operation} (companion : m.Companion K m')
    (feeds : ∀ operation ∈ session, operation.Feeds) (unhosted : Unhosted session m)
    (sound : ∀ f after, .failed f after ∈ outcomes session m → ¬ K.Excuses f) :
    List.Forall₂ (Outcome.Together (fun _ => False) (Machine.Companion K)) (outcomes session m)
      (outcomes session m') := by
  induction session generalizing m m' with
  | nil => exact .nil
  | cons operation rest ih =>
    rw [List.forall_mem_cons] at feeds
    have first := feeds.1.together_perform unhosted companion
    have later : ∀ f after, .failed f after ∈ outcomes rest (operation.perform m).machine →
        ¬ K.Excuses f := fun f after inside => sound f after (.tail _ inside)
    have others : ∀ a', (operation.perform m).machine.Companion K a' → _ :=
      fun a' related => ih related feeds.2 unhosted.tail later
    simp only [outcomes] at sound ⊢
    generalize operation.perform m = o at first sound others
    generalize operation.perform m' = o' at first
    cases first with
    | done related => exact .cons (.done related) (others _ related)
    | failed related => exact .cons (.failed related) (others _ related)
    | excused excused => exact absurd excused (sound _ _ (.head _))

end Session

end ThreadedForth
