import TypeResolution.Constraint.Validation
import TypeResolution.Catalog.Instantiation
import TypeResolution.Bindings

/-!
# The type that a constraint stands for

A constraint whose parameters are bound and that leaves nothing open stands for one type. It is
read in two ways: `singleType` asks whether there is such a type, and `requireType` builds it for a
directive or reports why it cannot.
-/

namespace TypeResolution.Constraint

/-! ## Asking -/

mutual
/-- The single type that a constraint stands for, if it stands for exactly one. -/
def singleType (c : Catalog) (fuel : Nat) (b : Bindings) : Constraint → Fueled (Option Ty)
  | .wildcard => some none
  | .negation _ => some none
  | .param name _ => some (b.get? name)
  | .instanceOf target _ args =>
    if isKindMarker target then some none
    else
      match singleTypes c fuel b args with
      | none => none
      | some none => some none
      | some (some ts) => (c.instantiate fuel target ts).map Except.toOption

/-- The types that constraints stand for, if each stands for exactly one. -/
def singleTypes (c : Catalog) (fuel : Nat) (b : Bindings) :
    List Constraint → Fueled (Option (List Ty))
  | [] => some (some [])
  | k :: ks =>
    match singleType c fuel b k with
    | none => none
    | some none => some none
    | some (some t) => (singleTypes c fuel b ks).map (Option.map (t :: ·))
end

/-! ## Building -/

mutual
/-- The type that a constraint of a directive stands for, or what is wrong with it. -/
def requireType (c : Catalog) (fuel : Nat) (b : Bindings) :
    Constraint → Fueled (Except ResolutionError Ty)
  | .wildcard => some (.error (.unsupportedConstraint .wildcard .directive))
  | .negation inner => some (.error (.unsupportedConstraint (.negation inner) .directive))
  | .param name _ =>
    match b.get? name with
    | some t => some (.ok t)
    | none => some (.error (.unboundParameter name))
  | .instanceOf target _ args =>
    match requireTypes c fuel b args with
    | none => none
    | some (.error e) => some (.error e)
    | some (.ok ts) => (c.instantiate fuel target ts).map (Except.mapError .instantiate)

/-- The types that the constraints of a directive stand for, or the first thing that is wrong. -/
def requireTypes (c : Catalog) (fuel : Nat) (b : Bindings) :
    List Constraint → Fueled (Except ResolutionError (List Ty))
  | [] => some (.ok [])
  | k :: ks =>
    match requireType c fuel b k with
    | none => none
    | some (.error e) => some (.error e)
    | some (.ok t) => (requireTypes c fuel b ks).map (Except.map (t :: ·))
end

end TypeResolution.Constraint
