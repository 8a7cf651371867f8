import TypeResolution.Pattern.Basic

/-!
# The resolver

A catalog, an ordered list of patterns over it, a pattern to fall back on, and the failures that
count as "no value". Patterns are validated when they are registered, so that a malformed one never
takes part in a resolution.
-/

namespace TypeResolution

/-- What resolutions are made with. -/
structure Resolver (V : Type) where
  /-- the declared types -/
  catalog : Catalog
  /-- tried in this order -/
  patterns : List (Pattern V) := []
  /-- used when no pattern gives a value; its slots are not looked at -/
  fallback : Option (Pattern V) := none
  /-- categories of failures that count as "no value"; without a list no failure does -/
  expectedFailures : Option (List Failure.Category) := some [.system]

namespace Resolver

variable {V : Type}

/-- Registers a pattern behind the others, if it is valid. -/
def register (r : Resolver V) (p : Pattern V) : Except ResolutionError (Resolver V) :=
  match p.check r.catalog with
  | .error e => .error e
  | .ok () => .ok { r with patterns := r.patterns ++ [p] }

/-- Sets or removes the pattern to fall back on, if it is valid. -/
def registerFallback (r : Resolver V) : Option (Pattern V) → Except ResolutionError (Resolver V)
  | none => .ok { r with fallback := none }
  | some p =>
    match p.check r.catalog with
    | .error e => .error e
    | .ok () => .ok { r with fallback := some p }

/-- Sets which failures count as "no value". -/
def expecting (r : Resolver V) (expected : Option (List Failure.Category)) :
    Resolver V :=
  { r with expectedFailures := expected }

/-- Whether a failure counts as "no value". -/
def expects (r : Resolver V) (f : Failure) : Bool :=
  match r.expectedFailures with
  | none => false
  | some categories => decide (f.category ∈ categories)

end Resolver

end TypeResolution
