import TypeResolution.ResolutionError
import TypeResolution.Search

/-!
# Producers: what builds the values of a closed type

A producer is called with a closed type and one argument for each of its parameters. An argument is
a value, the producer's own default, or a sequence: a nested resolution that has not run yet. The
producer may drive a sequence as often as it likes, each time afresh and as far as it likes, before
it answers.

So a call is not just a function: it is a tree of drives that ends in an answer (`Production`).
What is absent from the tree is any other way to reach the resolver: a producer can only drive the
sequences that it was given, and it names them by the position of the argument.
-/

namespace TypeResolution

/-- One filled parameter of a producer. -/
inductive Argument (V : Type) where
  /-- a value that was built for the parameter -/
  | value (v : V)
  /-- the producer's own default -/
  | default
  /-- the values of a nested resolution over these candidates, not computed yet -/
  | sequence (candidates : List Ty)

/-- What driving a sequence gave. -/
structure Driven (V : Type) where
  /-- the values that the consumer took -/
  values : List V
  /-- how the drive ended -/
  ending : Except ResolutionError Flow

/-- A call of a producer on its way to an answer of `α`. -/
inductive Production (V α : Type) where
  /-- the answer -/
  | answer (a : α)
  /-- drives the sequence at a position until the consumer `stop`, which is shown the values so
  far after each of them, has seen enough -/
  | drive (position : Nat) (stop : List V → Bool) (next : Driven V → Production V α)

namespace Production

variable {V α β : Type}

/-- Goes on from the answer. -/
def bind : Production V α → (α → Production V β) → Production V β
  | .answer a, f => f a
  | .drive position stop next, f => .drive position stop fun d => bind (next d) f

instance : Monad (Production V) where
  pure := .answer
  bind := bind

/-- Drives the sequence at a position and hands over what that gave. -/
def driving (position : Nat) (stop : List V → Bool) : Production V (Driven V) :=
  .drive position stop .answer

/-- The call as a search for its answer, with `perform` to run each drive. -/
def run {ν ε : Type} (perform : Nat → (List V → Bool) → Search ν ε (Driven V)) :
    Production V α → Search ν ε α
  | .answer a => .single a
  | .drive position stop next => (perform position stop).bind fun d => run perform (next d)

end Production

/-- What a factory hands back. -/
inductive Yield (V : Type) where
  /-- no value -/
  | nothing
  /-- one value -/
  | one (v : V)
  /-- several values, delivered one by one -/
  | many (vs : List V)

namespace Yield

variable {V : Type}

/-- The values in the order of their delivery. -/
def toList : Yield V → List V
  | .nothing => []
  | .one v => [v]
  | .many vs => vs

/-- A value that may be missing. -/
def ofOption : Option V → Yield V
  | none => .nothing
  | some v => .one v

/-- Values of which some may be missing; these are skipped. -/
def ofOptions (vs : List (Option V)) : Yield V := .many (vs.filterMap id)

end Yield

/-- Which of a pattern's producers are called first. -/
inductive ProducerKind where
  /-- an operation that hands back any number of values; called first -/
  | factory
  /-- builds one value; called after the factories -/
  | constructor
  deriving DecidableEq

/-- Which part of the pattern list a nested resolution may use. -/
inductive Direction where
  /-- all of it -/
  | any
  /-- the patterns behind the one being built -/
  | following
  /-- the patterns before the one being built -/
  | preceding
  deriving DecidableEq

/-- How a parameter is filled by a nested resolution over the same pattern list. -/
structure Directive where
  /-- the candidates of the nested resolution, over the bindings of the pattern being built -/
  types : List Constraint
  /-- which patterns it may use -/
  direction : Direction := .any
  /-- whether this also bounds the resolutions nested further inside -/
  isGlobal : Bool := false
  /-- whether the first value that leads to a complete argument list is the only one used -/
  definitive : Bool := false
  /-- whether the parameter is given all values as one sequence -/
  isSequence : Bool := false

/-- A declared parameter of a producer. -/
inductive Parameter where
  /-- nothing can fill it, so the producer is never called -/
  | required
  /-- filled with the default -/
  | optional
  /-- filled by a nested resolution; with a default, also if that finds nothing -/
  | specialize (directive : Directive) (hasDefault : Bool)

/-- The directive of a parameter, if it has one. -/
def Parameter.directive? : Parameter → Option Directive
  | .specialize directive _ => some directive
  | _ => none

/-- An operation that builds values of a closed type. -/
structure Producer (V : Type) where
  /-- factory or constructor -/
  kind : ProducerKind
  /-- the declared parameters -/
  params : List Parameter
  /-- whether later producers are skipped once this one has built a value -/
  definitive : Bool
  /-- calls the producer for a closed type with one argument for each parameter -/
  invoke : Ty → List (Argument V) → Production V (Except Failure (List V))

namespace Producer

variable {V : Type}

/-- A producer that builds one value a call. -/
def ofConstructor (params : List Parameter) (definitive : Bool)
    (build : Ty → List (Argument V) → Production V (Except Failure V)) : Producer V where
  kind := .constructor
  params := params
  definitive := definitive
  invoke t args := do return (← build t args).map fun v => [v]

/-- A producer that hands back any number of values a call. -/
def ofFactory (params : List Parameter) (definitive : Bool)
    (build : Ty → List (Argument V) → Production V (Except Failure (Yield V))) : Producer V where
  kind := .factory
  params := params
  definitive := definitive
  invoke t args := do return (← build t args).map Yield.toList

end Producer

end TypeResolution
