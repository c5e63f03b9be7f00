import ThreadedForth.Fault

/-!
# Signatures of host callables

A callable that the host brings along tells its parameters, or hides them.  A
parameter is filled by position, by name or by either; the machine calls by
position only.  One parameter may collect the positional arguments that are left
over, and another one the named ones.

`Signature.bind` says whether a number of positional arguments fits, and if not,
why.  `Signature.derivedArity` is the number of arguments that the machine passes
when nobody says otherwise: the positional parameters up to the first one with a
default.

What stands for a callable in an error is a text of the host's, and the host may fail
to make it; it may also fail when it is asked for the parameters, otherwise than by
hiding them.  Such a failure comes in the place of what was to be said.
-/

namespace ThreadedForth
namespace Host

/-- The ways in which a parameter is filled. -/
inductive Parameter.Kind where
  /-- By position only. -/
  | positionalOnly
  /-- By position or by name. -/
  | positional
  /-- By all positional arguments that are left over. -/
  | rest
  /-- By name only. -/
  | keyword
  /-- By all named arguments that are left over. -/
  | keywords
  deriving DecidableEq, Repr

/-- A parameter of a callable. -/
structure Parameter where
  name : String
  kind : Parameter.Kind
  /-- Whether the parameter may be left without an argument. -/
  hasDefault : Bool
  deriving DecidableEq, Repr

namespace Parameter

/-- Whether a positional argument can fill the parameter alone. -/
def isPositional (p : Parameter) : Bool :=
  p.kind == .positionalOnly || p.kind == .positional

/-- Whether a call must supply an argument for the parameter. -/
def isRequired (p : Parameter) : Bool :=
  !p.hasDefault && (p.isPositional || p.kind == .keyword)

end Parameter

/-- The text that stands for a callable. -/
inductive Label where
  | text (shown : String)
  /-- There is none: to ask for it fails. -/
  | failing (reason : String)
  deriving DecidableEq, Repr

/-- A fault that quotes the text of a callable, or the failure to make that text. -/
def Label.quoting (f : String → Fault) : Label → Fault
  | text shown => f shown
  | failing reason => .foreign reason

/-- What a callable tells about its parameters. -/
inductive Signature where
  | known (parameters : List Parameter)
  | hidden
  /-- To ask for the parameters fails. -/
  | failing (reason : String)
  deriving DecidableEq, Repr

namespace Signature

/-- Checks that the parameters that no positional argument reaches can do without. -/
def checkUnfilled (parameters : List Parameter) : Except Fault Unit :=
  match parameters.find? Parameter.isRequired with
  | some p => .error (.argumentMissing p.name)
  | none => .ok ()

/-- Fills parameters, in order, with a number of positional arguments. -/
def fill : (count : Nat) → List Parameter → Except Fault Unit
  | 0, parameters => checkUnfilled parameters
  | _ + 1, [] => .error .argumentExcess
  | count + 1, p :: parameters =>
    match p.kind with
    | .keyword | .keywords => .error .argumentExcess
    | .rest => checkUnfilled parameters
    | .positionalOnly | .positional => fill count parameters

/-- Passes a number of positional arguments.  Where parameters are not told any number
is taken. -/
def bind (count : Nat) : Signature → Except Fault Unit
  | known parameters => fill count parameters
  | hidden | failing _ => .ok ()

/-- Whether a number of positional arguments can be passed. -/
def accepts (signature : Signature) (count : Nat) : Bool :=
  match signature.bind count with
  | .ok () => true
  | .error _ => false

/-- The number of positional parameters before the first one with a default.  On the
way there no parameter may need an argument by name. -/
def countRequired (label : Label) : List Parameter → Except Fault Nat
  | [] => .ok 0
  | p :: parameters =>
    if p.isPositional then
      if p.hasDefault then .ok 0 else (countRequired label parameters).map (· + 1)
    else if p.isRequired then .error (label.quoting fun shown => .keywordRequired shown p.name)
    else countRequired label parameters

/-- The number of arguments that a callable with this signature is called with when
nobody says otherwise. -/
def derivedArity (label : Label) : Signature → Except Fault Nat
  | known parameters => countRequired label parameters
  | hidden => .error (label.quoting .arityUnknown)
  | failing reason => .error (.foreign reason)

end Signature
end Host
end ThreadedForth
