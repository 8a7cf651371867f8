import TypeResolution.Resolver.Basic
import TypeResolution.Resolver.Window
import TypeResolution.Constraint.SingleType

/-!
# Calls: the values of one closed type

The producers of a pattern are called for a closed type with every way of filling their parameters,
from left to right. A parameter with a directive is filled by resolving again, in a window of the
same pattern list; how nested resolutions run is a parameter `nested` of this module.

Every call is bracketed by two events, so the calls of a run can be read off its record, together
with which of them happened while another one drove a sequence.
-/

namespace TypeResolution

/-- One call of a producer. -/
structure Call (V : Type) where
  /-- the position of the pattern; the fallback stands behind the last one -/
  pattern : Nat
  /-- the position of the producer among those of its pattern -/
  producer : Nat
  /-- the closed type -/
  ty : Ty
  /-- one argument for each parameter -/
  args : List (Argument V)

/-- What is recorded of a resolution besides its values. -/
inductive Event (V : Type) where
  /-- a producer is called -/
  | invoked (call : Call V)
  /-- the latest call that is still open comes back -/
  | returned (outcome : Except Failure (List V))

/-- A parameter that has been filled. A sequence knows the window that it will be resolved in. -/
inductive Filled (V : Type) where
  /-- a value of a nested resolution -/
  | value (v : V)
  /-- the producer's default -/
  | default
  /-- a nested resolution that has not run yet -/
  | sequence (candidates : List Ty) (window : Window)

/-- What the producer gets to see of a filled parameter. -/
def Filled.toArgument {V : Type} : Filled V → Argument V
  | .value v => .value v
  | .default => .default
  | .sequence candidates _ => .sequence candidates

/-- The pattern being built and the window that it was reached through. -/
structure Place where
  /-- the position of the pattern -/
  index : Nat
  /-- the window -/
  window : Window

/-- A resolution of candidates in a window. -/
abbrev Nested (V : Type) := List Ty → Window → Search (Event V) ResolutionError V

namespace Resolver

variable {V : Type} (r : Resolver V) (fuel : Nat) (nested : Nested V)

/-- The ways to fill one parameter from a nested resolution, with the default if that finds nothing
and there is one. -/
def fillings (candidates : List Ty) (window : Window) (hasDefault : Bool) :
    Search (Event V) ResolutionError (Filled V) :=
  let values := (nested candidates window).map Filled.value
  if hasDefault then values.orElse fun _ => .single .default else values

/-- Every way of filling a list of parameters. -/
def argLists (place : Place) (b : Bindings) :
    List Parameter → Search (Event V) ResolutionError (List (Filled V))
  | [] => .single []
  | .required :: _ => .done
  | .optional :: params => (argLists place b params).map (.default :: ·)
  | .specialize directive hasDefault :: params =>
    match Constraint.requireTypes r.catalog fuel b directive.types with
    | none => .exhausted
    | some (.error e) => .failed e
    | some (.ok candidates) =>
      let window := place.window.directed place.index directive
      if directive.isSequence then
        (argLists place b params).map (.sequence candidates window :: ·)
      else
        (fillings nested candidates window hasDefault).choose directive.definitive fun arg =>
          (argLists place b params).map (arg :: ·)

/-- Drives the sequence at a position. A position that holds no sequence has no values. -/
def driveArg (args : List (Filled V)) (position : Nat) (stop : List V → Bool) :
    Search (Event V) ResolutionError (Driven V) :=
  match args[position]? with
  | some (.sequence candidates window) =>
    ((nested candidates window).gather stop []).map fun d => ⟨d.1, d.2⟩
  | _ => .single ⟨[], .ok .finished⟩

/-- The values that a call's outcome gives. An expected failure gives none. -/
def deliver (t : Ty) : Except Failure (List V) → Search (Event V) ResolutionError V
  | .ok values => .ofList values
  | .error failure => if r.expects failure then .done else .failed (.producer t failure)

/-- Calls a producer with filled parameters. -/
def call (place : Place) (t : Ty) (producer : Producer V × Nat) (args : List (Filled V)) :
    Search (Event V) ResolutionError V :=
  let shown := args.map Filled.toArgument
  .event (.invoked ⟨place.index, producer.2, t, shown⟩) fun _ =>
    ((producer.1.invoke t shown).run (driveArg nested args)).bind fun outcome =>
      .event (.returned outcome) fun _ => r.deliver t outcome

/-- Calls producers one after another, each with every way of filling its parameters. -/
def callAll (place : Place) (b : Bindings) (t : Ty) :
    List (Producer V × Nat) → Search (Event V) ResolutionError V
  | [] => .done
  | producer :: rest =>
    ((r.argLists fuel nested place b producer.1.params).bind
      (r.call nested place t producer)).andThen producer.1.definitive fun _ =>
        callAll place b t rest

/-- The values of a closed type that a pattern's producers build. -/
def callProducers (place : Place) (p : Pattern V) (b : Bindings) (t : Ty) :
    Search (Event V) ResolutionError V :=
  r.callAll fuel nested place b t p.callOrder

end Resolver

end TypeResolution
