import TypeResolution.ResolutionError

/-!
# Checking constraints

Some constraints can never be evaluated where they stand: a negation below another constraint or in
a directive, a wildcard or a kind marker in a directive, and a wrong number of arguments anywhere.
They are refused when a pattern is registered.
-/

namespace TypeResolution

/-- Checks that a definition is given the number of arguments it takes. -/
def checkArgCount (c : Catalog) (target : DefIndex) (found : Nat) : Except ResolutionError Unit :=
  if c.arity target = found then .ok ()
  else .error (.arityMismatch target (c.arity target) found)

namespace Constraint

/-- The role of the arguments of a constraint. -/
def argumentRole : Role → Role
  | .directive => .directive
  | _ => .argument

/-- Whether a definition is one of the two kind markers. -/
def isKindMarker (target : DefIndex) : Bool :=
  match Marker.ofDefinition? target with
  | some m => m.isKind
  | none => false

mutual
/-- Checks a constraint that stands in the given role; of several faults, the first one from
the left is reported, an outer one before an inner one. -/
def check (c : Catalog) (role : Role) : Constraint → Except ResolutionError Unit
  | .wildcard =>
    if role = .directive then .error (.unsupportedConstraint .wildcard role) else .ok ()
  | .param .. => .ok ()
  | .negation inner =>
    if role ≠ .slot then .error (.unsupportedConstraint (.negation inner) role)
    else checkAll c .slot inner
  | .instanceOf target v args =>
    if role = .directive ∧ isKindMarker target = true then
      .error (.unsupportedConstraint (.instanceOf target v args) role)
    else
      match checkArgCount c target args.length with
      | .error e => .error e
      | .ok () => checkAll c (argumentRole role) args

/-- Checks constraints one by one. -/
def checkAll (c : Catalog) (role : Role) : List Constraint → Except ResolutionError Unit
  | [] => .ok ()
  | k :: ks =>
    match check c role k with
    | .error e => .error e
    | .ok () => checkAll c role ks
end

end Constraint

end TypeResolution
