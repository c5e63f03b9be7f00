import ThreadedForth.Machine.HostCall

/-!
# The words a machine starts with

A fresh machine knows the native words of the table below, in the order in which
they are registered.  Some actions have two names.  The words that begin or end
definitions and the words inside them are directives, and immediate.

Unless it is told not to, a fresh machine then reads a prelude, which defines four
more words in terms of these.
-/

namespace ThreadedForth

namespace Builtin

/-- The entry of a primitive. -/
def ofPrimitive (name : String) (p : Primitive) (pushesNone : Bool) : Word :=
  ⟨name, false, .native ⟨.primitive p, p.arity, pushesNone⟩⟩

/-- The entry of a primitive whose result, if there is one, is never absent. -/
def plain (name : String) (p : Primitive) : Word := ofPrimitive name p false

/-- The entry of a primitive that passes a value on, which may be an absent one. -/
def passing (name : String) (p : Primitive) : Word := ofPrimitive name p true

/-- The entry of a directive. -/
def ofDirective (name : String) (d : Directive) : Word :=
  ⟨name, true, .native ⟨.directive d, d.arity, false⟩⟩

/-- The words that rearrange the data stack. -/
def stackWords : List Word :=
  [plain "swap" .swap, plain "drop" .drop, plain "gather" .gather, plain "spread" .spread,
    passing "pluck" .pluck, passing "pick" .pick, plain "depth" .depth, plain "clear" .clear]

/-- The words that make colon definitions. -/
def compilingWords : List Word :=
  [plain "define" .define, ofDirective "return" .finish, ofDirective ";" .finish,
    ofDirective "immediate" .immediate, ofDirective "exit" .exit,
    ofDirective "literal" .literal]

/-- The words that read and write slots. -/
def memoryWords : List Word :=
  [passing "load" .load, plain "store" .store, passing "@" .load, plain "!" .store]

/-- The words that make words with a slot. -/
def definingWords : List Word :=
  [plain "create" .create, ofDirective "does" .does, ofDirective "does>" .does]

/-- The words that compute. -/
def valueWords : List Word :=
  [plain "add" .add, plain "+" .add, plain "sub" .sub, plain "-" .sub, plain "mul" .mul,
    plain "*" .mul, plain "div" .div, plain "/" .div, plain "mod" .mod,
    plain "negate" .negate, plain "=" .equal, plain "<" (.compare .less),
    plain ">" (.compare .greater), plain "nop" .nop]

/-- The words that write. -/
def outputWords : List Word :=
  [plain "print" .print, plain "." .dot, plain "cr" .cr, plain "emit" .emit,
    plain "type" .type]

/-- All built-in words, in the order of their registration. -/
def words : List Word :=
  stackWords ++ compilingWords ++ memoryWords ++ definingWords ++ valueWords ++ outputWords

/-- The words defined in terms of the built-in ones. -/
def prelude : String :=
  "\n: dup ( x -- x x ) 0 pick ;\n" ++
  ": over ( x y -- x y x ) 1 pick ;\n" ++
  ": variable ( value name -- ) create store ;\n" ++
  ": constant ( value name -- ) create store does load ;\n"

end Builtin

namespace Machine

/-- The return-stack capacity of a machine that is not told otherwise. -/
def defaultCapacity : Int := 1024

/-- A machine with the built-in words and nothing else. -/
def bare (capacity : Int) (verbose : Bool) : Machine where
  stack := .empty
  slots := #[]
  dictionary := Builtin.words.foldl .push .empty
  compiling := false
  draft := none
  lastDefined := none
  lastCreated := none
  barrier := 0
  nextMark := 0
  transcript := []
  journal := []
  verbose := verbose
  code := #[]
  returns := .empty
  ip := none
  capacity := capacity

/-- A machine that is ready for use, with or without the prelude, and with or without
minor notes. -/
def fresh (capacity : Int) (withPrelude verbose : Bool) : Machine :=
  let start := bare capacity verbose
  let loaded :=
    if withPrelude then (start.execute Host.caller Builtin.prelude).machine else start
  let names := loaded.dictionary.nameCount
  let cells := loaded.code.size
  loaded.note .debug .repl s!"VM ready: {names} words, {cells} cells"

end Machine
end ThreadedForth
