import TypeResolution.Catalog.Basic

/-!
# Constraints: what a candidate has to look like

A constraint is a tree. It accepts anything, binds a named parameter, asks for a relative of an
instance of some definition with a constraint for each argument, or asks that other constraints
have no solution. `ofType` expands a type into the constraint that describes it.
-/

namespace TypeResolution

/-- What a candidate type has to look like. -/
inductive Constraint where
  /-- any type; nothing is bound -/
  | wildcard
  /-- binds the name at its first occurrence; a later one compares with the type bound -/
  | param (name : String) (variance : Variance)
  /-- a relative of an instance of `target`, with a constraint for each argument -/
  | instanceOf (target : DefIndex) (variance : Variance) (args : List Constraint)
  /-- no solution of the inner constraints for the same candidate; nothing is bound -/
  | negation (inner : List Constraint)

namespace Constraint

/-- The constraint with another variance. Wildcards and negations have none. -/
def withVariance (v : Variance) : Constraint → Constraint
  | .param name _ => .param name v
  | .instanceOf target _ args => .instanceOf target v args
  | k => k

/-! ## Constraints of a shape -/

/-- The parameter of that name, whose later occurrences want the same type. -/
def named (name : String) : Constraint := .param name .invariant

/-- Exactly an instance of a definition. -/
def definition (target : DefIndex) (args : List Constraint) : Constraint :=
  .instanceOf target .invariant args

/-- Exactly what a marker stands for. -/
def marker (m : Marker) (args : List Constraint) : Constraint := definition m.definition args

/-- Exactly the encoding of a rank. -/
def rank : Nat → Constraint
  | 0 => definition rankZero []
  | n + 1 => definition rankSucc [rank n]

/-- An array of one dimension whose element meets a constraint. -/
def array (elem : Constraint) : Constraint := marker .array [rank 1, elem]

mutual
/-- The constraint that describes a type. An argument gets the declared variance of the parameter
that it fills; structural types are written over their stand-ins, with invariant arguments; a
parameter becomes a wildcard. -/
def ofType (c : Catalog) : Ty → Constraint
  | .param _ => .wildcard
  | .named d ts => definition d (ofArgs c ((c.definition d).params.map (·.variance)) ts)
  | .array n t => marker .array [rank n, ofType c t]
  | .pointer t => marker .pointer [ofType c t]
  | .byRef t => marker .byRef [ofType c t]

/-- The constraints that describe arguments, each with the variance of its position. Arguments
beyond the last position are invariant. -/
def ofArgs (c : Catalog) : List Variance → List Ty → List Constraint
  | _, [] => []
  | vs, t :: ts => (ofType c t).withVariance (vs.headD .invariant) :: ofArgs c vs.tail ts
end

end Constraint

/-- The constraints on one candidate, all of which have to hold, from left to right. -/
structure Slot where
  /-- the conjunction -/
  constraints : List Constraint
  /-- whether the first alternative that leads to a complete match is the only one used -/
  definitive : Bool := false

/-- The role that a constraint plays where it stands. -/
inductive Role where
  /-- in a slot of a pattern -/
  | slot
  /-- below another constraint -/
  | argument
  /-- in a directive of a producer's parameter -/
  | directive
  deriving DecidableEq

/-- The name of a role in messages. -/
def Role.name : Role → String
  | .slot => "slot"
  | .argument => "type argument"
  | .directive => "re-specialization directive"

end TypeResolution
