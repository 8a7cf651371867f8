import TypeResolution.Marker
import TypeResolution.Pattern.Producer

/-!
# Configurations

What a catalog file says, before any name in it is looked up: the declared types, what arrays
inherit from, the patterns in the order in which they are tried, the fallback, and the failures
that count as "no value". Types are still texts here.
-/

namespace TypeResolution

/-- A declared generic parameter. -/
structure ParamEntry where
  /-- its name -/
  name : String
  /-- its declared variance -/
  variance : Variance := .invariant
  /-- its bounds: `class`, `struct`, or a type to be assignable to -/
  bounds : List String := []

/-- A declared type. -/
structure TypeEntry where
  /-- its name, with or without an arity suffix -/
  name : String
  /-- its kind -/
  kind : Kind
  /-- its generic parameters -/
  params : List ParamEntry
  /-- its base type -/
  base : Option String
  /-- its interfaces -/
  interfaces : List String

/-- What arrays inherit from. -/
structure ArrayEntry where
  /-- the base of every array -/
  base : Option String
  /-- the interfaces of arrays with one dimension, `!0` being the element -/
  interfaces : List String

/-- A constraint. -/
inductive ConstraintEntry where
  /-- a bare text: the wildcard if it is an underscore, a parameter's name otherwise -/
  | short (text : String)
  /-- a parameter with a variance -/
  | param (name : String) (variance : Variance)
  /-- an instance of a definition -/
  | definition (name : String) (args : List ConstraintEntry) (variance : Variance)
  /-- a closed type -/
  | type (src : String) (variance : Variance)
  /-- what a marker stands for -/
  | marker (m : Marker) (args : List ConstraintEntry) (variance : Variance)
  /-- an encoded rank -/
  | rank (n : Nat)
  /-- a negation -/
  | negation (inner : List ConstraintEntry)

/-- The constraints on one candidate. -/
structure SlotEntry where
  /-- the conjunction -/
  constraints : List ConstraintEntry
  /-- whether only the first alternative that leads to a complete match is used -/
  definitive : Bool := false

/-- A declared parameter of a producer. -/
inductive ArgEntry where
  /-- filled with the default -/
  | optional
  /-- never filled -/
  | required
  /-- filled by a nested resolution of these candidates, as the directive says otherwise -/
  | specialize (types : List ConstraintEntry) (direction : Direction)
      (isGlobal definitive isSequence hasDefault : Bool)

/-- A producer, which records the type and the arguments of its calls. -/
structure ProducerEntry where
  /-- factory or constructor -/
  kind : ProducerKind
  /-- whether later producers are skipped once this one has built a value -/
  definitive : Bool
  /-- the declared parameters -/
  params : List ArgEntry
  /-- the category that every call fails with, if it is to fail -/
  fail : Option String
  /-- the number of values that a factory hands back -/
  yields : Nat

/-- A pattern. -/
structure PatternEntry where
  /-- the name of a definition, or a closed type -/
  template : String
  /-- whether later patterns are skipped once this one has built a value -/
  definitive : Bool
  /-- the constraints on the candidates -/
  slots : List SlotEntry
  /-- the producers; without any there is one constructor without parameters -/
  producers : List ProducerEntry

/-- A whole configuration. -/
structure Config where
  /-- the declared types -/
  types : List TypeEntry := []
  /-- what arrays inherit from -/
  arrays : Option ArrayEntry := none
  /-- the patterns in the order in which they are tried -/
  patterns : List PatternEntry := []
  /-- the pattern to fall back on -/
  fallback : Option PatternEntry := none
  /-- the categories of failures that count as "no value" -/
  expectedFailures : Option (List String) := none

end TypeResolution
