import TypeResolution.Constraint.Validation
import TypeResolution.Pattern.Producer

/-!
# Patterns

A pattern says which type to build (its template), which candidates it applies to (its slots) and
how values of the type are built (its producers). `check` refuses patterns that can never be
evaluated.
-/

namespace TypeResolution

/-- What a pattern builds. -/
inductive Template where
  /-- instances of a definition, over arguments that the slots bind -/
  | definition (d : DefIndex)
  /-- one closed type, whose arguments are bound from the start -/
  | closed (t : Ty)

/-- A template, the candidates that it applies to, and the producers of its values. -/
structure Pattern (V : Type) where
  /-- what is built -/
  template : Template
  /-- the constraints on the candidates, position by position -/
  slots : List Slot := []
  /-- how values are built -/
  producers : List (Producer V) := []
  /-- whether later patterns are skipped once this one has built a value -/
  definitive : Bool := false

namespace Pattern

variable {V : Type}

/-- The producers with their positions in the order in which they are called: factories, then
constructors. -/
def callOrder (p : Pattern V) : List (Producer V × Nat) :=
  p.producers.zipIdx.filter (fun q => decide (q.1.kind = .factory))
    ++ p.producers.zipIdx.filter (fun q => decide (q.1.kind = .constructor))

/-- The constraints of all slots, from left to right. -/
def slotConstraints (p : Pattern V) : List Constraint := p.slots.flatMap (·.constraints)

/-- The constraints of all directives, from left to right. -/
def directiveConstraints (p : Pattern V) : List Constraint :=
  ((p.producers.flatMap (·.params)).filterMap Parameter.directive?).flatMap (·.types)

/-- Checks that the template is closed, then the slots, then the directives. -/
def check (c : Catalog) (p : Pattern V) : Except ResolutionError Unit :=
  let checkTemplate : Except ResolutionError Unit :=
    match p.template with
    | .definition _ => .ok ()
    | .closed t => if t.isClosed then .ok () else .error (.openTemplate t)
  match checkTemplate with
  | .error e => .error e
  | .ok () =>
    match Constraint.checkAll c .slot p.slotConstraints with
    | .error e => .error e
    | .ok () => Constraint.checkAll c .directive p.directiveConstraints

end Pattern

end TypeResolution
