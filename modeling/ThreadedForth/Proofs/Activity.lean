import ThreadedForth.Session.Operation

/-!
# What goes on inside a session

An operation of a session is carried out by other activities, and these by others again:
a source text is fed token by token, a token runs a word, a word runs code, code runs
turn by turn and calls native words, and a host callable carries out a script that feeds
further texts and tokens.  Each of these activities begins in some state of the machine.

The definitions that carry the activities out tell only how they end.  To speak about
all the states in between, `Activity.Starts` spells out which activity starts which
other one, and in what state.  `Session.Begins` collects everything that ever begins in
a session.  Nothing of the machine is defined anew here: the states are those that the
machine's own functions are applied to.

Host callables nest to a limited depth.  The depth that is left belongs to an activity,
and is one less inside the script of a callable.
-/

namespace ThreadedForth

/-- Something that a machine can be busy with. -/
inductive Activity where
  | dialogue (d : Console.Display) (inputs : List Console.Input)
  /-- The prompts of a dialogue that are still to come. -/
  | prompts (d : Console.Display) (inputs : List Console.Input)
  | source (text : String)
  | tokens (tokens : List Token)
  | token (token : Token)
  /-- Running the word with this name. -/
  | word (name : String)
  /-- Running an entry of the dictionary. -/
  | entry (entry : Nat)
  /-- Running the code at this address. -/
  | code (address : Value)
  /-- The turns of a run that are still to come. -/
  | turns (base credit : Nat)
  /-- Calling a native word. -/
  | native (name : String) (n : Native)
  | callable (f : Host.Callable) (arguments : List Value)
  /-- What is left of a script. -/
  | script (actions : List Host.Action)

namespace Activity

/-- Carries an activity out to its end. -/
def perform (depth : Nat) (m : Machine) : Activity → Outcome Unit
  | dialogue d inputs => Console.dialogue d inputs m
  | prompts d inputs => Console.converse d inputs m
  | source text => m.execute (Host.callHost depth) text
  | tokens ts => m.run (Host.callHost depth) ts
  | token t => m.interpret (Host.callHost depth) t
  | word name => m.executeWord (Host.callHost depth) name
  | entry e => m.executeEntry (Host.callHost depth) e
  | code address => m.executeAddress (Host.callHost depth) address
  | turns base credit => m.loop (Host.callHost depth) base credit
  | native name n => m.callNative (Host.callHost depth) name n
  | callable f arguments => (Host.callHost depth f arguments m).map fun _ => ()
  | script actions => Host.runScript (Host.callHost depth) actions m

/-- The first activity, begun at the depth `depth` in the state `m`, starts the second
one. -/
inductive Starts : (depth : Nat) → Activity → (m : Machine) →
    (depth' : Nat) → Activity → (m' : Machine) → Prop where
  | greeting {depth : Nat} {d : Console.Display} {inputs : List Console.Input} {m : Machine} :
      Starts depth (.dialogue d inputs) m depth (.prompts d inputs)
        (m.tell (.said Console.banner))
  | line {depth : Nat} {d : Console.Display} {text : String} {rest : List Console.Input}
      {m : Machine} (stays : Console.isFarewell text = false) :
      Starts depth (.prompts d (.line text :: rest)) m
        Host.maxDepth (.source text) (m.tell (.prompted (Console.prompt m)))
  | afterLine {depth : Nat} {d : Console.Display} {text : String} {rest : List Console.Input}
      {m after : Machine} (stays : Console.isFarewell text = false)
      (fed : Console.feed d text (m.tell (.prompted (Console.prompt m))) = .done () after) :
      Starts depth (.prompts d (.line text :: rest)) m depth (.prompts d rest) after
  | afterInterrupt {depth : Nat} {d : Console.Display} {rest : List Console.Input}
      {m : Machine} :
      Starts depth (.prompts d (.interrupt :: rest)) m depth (.prompts d rest)
        (Console.recover (.interrupted "") (m.tell (.prompted (Console.prompt m))))
  | read {depth : Nat} {text : String} {ts : List Token} {m : Machine}
      (read : Token.tokenize text = .ok ts) :
      Starts depth (.source text) m depth (.tokens ts) m
  | firstToken {depth : Nat} {t : Token} {rest : List Token} {m : Machine} :
      Starts depth (.tokens (t :: rest)) m depth (.token t) m
  | afterToken {depth : Nat} {t : Token} {rest : List Token} {m after : Machine}
      (fed : m.interpret (Host.callHost depth) t = .done () after) :
      Starts depth (.tokens (t :: rest)) m depth (.tokens rest) after
  /-- A token runs the word it names, unless it compiles it. -/
  | name {depth entry : Nat} {name : String} {w : Word} {m : Machine}
      (foreign : m.ownAddress? name = none) (found : m.lookup name = .ok entry)
      (known : m.dictionary.get? entry = some w)
      (runs : (m.compiling && !w.immediate) = false) :
      Starts depth (.token (.word name)) m depth (.entry entry) m
  | word {depth entry : Nat} {name : String} {m : Machine}
      (found : m.lookup name = .ok entry) :
      Starts depth (.word name) m depth (.entry entry) m
  | native {depth entry : Nat} {name : String} {immediate : Bool} {n : Native} {m : Machine}
      (known : m.dictionary.get? entry = some ⟨name, immediate, .native n⟩) :
      Starts depth (.entry entry) m depth (.native name n) m
  | colon {depth entry address : Nat} {name : String} {immediate : Bool} {m : Machine}
      (known : m.dictionary.get? entry = some ⟨name, immediate, .colon address⟩) :
      Starts depth (.entry entry) m depth (.code (.int address)) m
  | behavior {depth entry slot : Nat} {name : String} {immediate : Bool} {behavior : Value}
      {m : Machine}
      (known : m.dictionary.get? entry = some ⟨name, immediate, .created slot behavior⟩)
      (given : behavior ≠ .none) :
      Starts depth (.entry entry) m depth (.code behavior) (m.pushAll [.cell slot])
  | run {depth : Nat} {address : Value} {place : Option Int} {m : Machine}
      (located : m.discardStale.locate address = .ok place) :
      Starts depth (.code address) m depth
        (.turns m.discardStale.returns.depth Machine.maxEntries) { m.discardStale with ip := place }
  | turn {depth base credit : Nat} {m after : Machine} (turned : m.turn base = .next after) :
      Starts depth (.turns base credit) m depth (.turns base credit) after
  | enter {depth base credit : Nat} {name : String} {n : Native} {m after : Machine}
      (turned : m.turn base = .enter name n after) :
      Starts depth (.turns base (credit + 1)) m depth (.native name n) after
  | afterEntry {depth base credit : Nat} {name : String} {n : Native} {m after ended : Machine}
      (turned : m.turn base = .enter name n after)
      (called : after.callNative (Host.callHost depth) name n = .done () ended) :
      Starts depth (.turns base (credit + 1)) m depth (.turns base credit) ended
  | host {depth : Nat} {name : String} {n : Native} {f : Host.Callable} {m : Machine}
      (kind : n.action = .host f) (enough : n.arity ≤ m.stack.depth) :
      Starts depth (.native name n) m depth (.callable f (m.toStore.take n.arity).1)
        { m with toStore := (m.toStore.take n.arity).2 }
  | body {depth : Nat} {f : Host.Callable} {arguments : List Value} {m : Machine}
      (bound : f.signature.bind arguments.length = .ok ()) :
      Starts (depth + 1) (.callable f arguments) m depth (.script f.script) m
  | runTokens {depth : Nat} {ts own : List Token} {rest : List Host.Action}
      {m ready : Machine}
      (copied : m.marking (ts.mapM (Token.copy m.slots.size)) = .done own ready) :
      Starts depth (.script (.run ts :: rest)) m depth (.tokens own) ready
  | runSource {depth : Nat} {text : String} {rest : List Host.Action} {m : Machine} :
      Starts depth (.script (.execute text :: rest)) m depth (.source text) m
  | runWord {depth : Nat} {name : String} {rest : List Host.Action} {m : Machine} :
      Starts depth (.script (.executeWord name :: rest)) m depth (.word name) m
  | runCode {depth : Nat} {address : Value} {rest : List Host.Action} {m : Machine} :
      Starts depth (.script (.executeAddress address :: rest)) m depth (.code address) m
  | afterAction {depth : Nat} {action : Host.Action} {rest : List Host.Action}
      {m after : Machine} (performed : action.perform (Host.callHost depth) m = .done () after) :
      Starts depth (.script (action :: rest)) m depth (.script rest) after
  /-- After a failure a script goes on behind the first operation that handles it. -/
  | afterFailure {depth : Nat} {action : Host.Action} {skipped rest : List Host.Action} {f : Fault}
      {m after : Machine} (failed : action.perform (Host.callHost depth) m = .failed f after)
      (real : f.isInterrupt = false) (first : .handle ∉ skipped) :
      Starts depth (.script (action :: (skipped ++ .handle :: rest))) m depth (.script rest) after

/-- A script goes on in an allowed way after the outcome of its first part. -/
def Resumes (allows : Nat → Activity → Machine → Prop) (depth : Nat) (script : List Host.Action) :
    Outcome Unit → Prop
  | .done () m => allows depth (.script script) m
  | .failed f m => ∀ skipped rest, script = skipped ++ .handle :: rest → f.isInterrupt = false →
      .handle ∉ skipped → allows depth (.script rest) m

section Resuming

variable {allows : Nat → Activity → Machine → Prop} {depth : Nat} {action : Host.Action}
  {rest : List Host.Action} {m : Machine} {f : Fault}

/-- Whatever an operation of an allowed script leads to, the script goes on in an allowed
way. -/
theorem resumes_perform
    (passes : ∀ {inner : Activity} {m' : Machine},
      Starts depth (.script (action :: rest)) m depth inner m' → allows depth inner m') :
    Resumes allows depth rest (action.perform (Host.callHost depth) m) := by
  cases ends : action.perform (Host.callHost depth) m with
  | done _ after => exact passes (.afterAction ends)
  | failed f after =>
    rintro skipped later rfl real first
    exact passes (.afterFailure ends real first)

/-- Behind a failure the next operation is left out, or handles the failure. -/
theorem resumes_failed (resumes : Resumes allows depth (action :: rest) (.failed f m)) :
    Resumes allows depth rest (if action.handles f then .done () m else .failed f m) := by
  by_cases handled : action.handles f = true
  · rw [if_pos handled]
    have real : f.isInterrupt = false := by
      simpa using (Bool.and_eq_true_iff.mp handled).2
    rw [Host.Action.handle_of_handles handled] at resumes
    exact resumes [] rest rfl real List.not_mem_nil
  · rw [if_neg handled]
    rintro skipped later rfl real first
    refine resumes (action :: skipped) later rfl real ?_
    rw [List.mem_cons, not_or]
    refine ⟨fun same => handled ?_, first⟩
    rw [← same, Host.Action.handles, real]
    rfl

end Resuming

end Activity

namespace Session

/-- The activity that an operation amounts to, if it feeds or runs anything. -/
def Operation.activity? : Operation → Option Activity
  | execute text => some (.source text)
  | run ts => some (.tokens ts)
  | interpret t => some (.token t)
  | define name ts => some (.tokens (.batch [name] :: .word "define" :: ts ++ [.word "return"]))
  | feed values => if values = [] then none else some (.tokens [.batch values])
  | executeWord name => some (.word name)
  | executeAddress address => some (.code address)
  | converse d inputs => some (.dialogue d inputs)
  | _ => none

/-- An activity that begins in a session on the machine `start`, the depth that is left for
host callables, and the state in which it begins. -/
inductive Begins (session : List Operation) (start : Machine) :
    (depth : Nat) → Activity → (m : Machine) → Prop where
  /-- An operation begins after those before it, as soon as its values are copied. -/
  | operation {before after : List Operation} {operation own : Operation} {ready : Machine}
      {activity : Activity} (order : session = before ++ operation :: after)
      (copied : (play before start).marking
        (operation.copy (play before start).slots.size) = .done own ready)
      (amounts : own.activity? = some activity) :
      Begins session start Host.maxDepth activity ready
  | inner {depth depth' : Nat} {outer activity : Activity} {m m' : Machine}
      (around : Begins session start depth outer m)
      (starts : outer.Starts depth m depth' activity m') :
      Begins session start depth' activity m'

/-- Two parts of a session come one after the other. -/
theorem play_append (first rest : List Operation) (m : Machine) :
    play (first ++ rest) m = play rest (play first m) := List.foldl_append

end Session
end ThreadedForth
