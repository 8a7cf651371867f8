import TypeResolution.Constraint.Rendering
import TypeResolution.Failure

/-!
# Errors of a resolution

What ends a resolution, as opposed to a candidate that merely does not match. Errors carry the
types and constraints that they are about; `message` writes them with a catalog's names.
-/

namespace TypeResolution

/-- Why a pattern cannot be used or a resolution cannot go on. -/
inductive ResolutionError where
  /-- a constraint of this shape has no meaning where it stands -/
  | unsupportedConstraint (constraint : Constraint) (role : Role)
  /-- a constraint has another number of arguments than its definition -/
  | arityMismatch (definition : DefIndex) (expected found : Nat)
  /-- a directive names a parameter that nothing was bound to -/
  | unboundParameter (name : String)
  /-- a type cannot be built -/
  | instantiate (error : ArgumentError)
  /-- a producer failed in a category that is not expected -/
  | producer (ty : Ty) (failure : Failure)
  /-- the type that a pattern builds mentions a parameter -/
  | openTemplate (ty : Ty)

namespace ResolutionError

/-- The message of an error. -/
def message (c : Catalog) : ResolutionError → String
  | .unsupportedConstraint constraint role =>
    "constraint " ++ quoted (constraint.render c) ++ " is not allowed in a " ++ role.name
  | .arityMismatch d expected found =>
    "constraint on " ++ quoted (c.name d) ++ " supplies " ++ toString found
      ++ " type arguments but the definition takes " ++ toString expected
  | .unboundParameter name =>
    "generic parameter " ++ quoted name ++ " does not have an assigned type"
  | .instantiate error => error.message c
  | .producer ty _ => "producer for " ++ quoted (c.render ty) ++ " failed"
  | .openTemplate ty =>
    "pattern template " ++ quoted (c.render ty) ++ " must be a definition or a closed type"

/-- The failure of a producer that ran into an error while it drove a nested resolution. -/
def asFailure (c : Catalog) (e : ResolutionError) : Failure :=
  ⟨.custom "resolve", e.message c⟩

end ResolutionError

end TypeResolution
