import TypeResolution.Catalog.Ancestry

/-!
# Assignability

Whether a value of one type can stand where another type is expected: by identity, by inheritance,
by variance of generic parameters between reference types, and between arrays of reference types
with assignable elements.
-/

namespace TypeResolution.Catalog

/-- Whether one argument may stand in place of another at a parameter of the given variance, when
`assignable target source` decides assignability. Different types need variance, and variance
applies between reference types only. -/
def argumentConvertible (c : Catalog) (assignable : Ty → Ty → Fueled Bool) (v : Variance)
    (target source : Ty) : Fueled Bool :=
  if target = source then some true
  else if c.isReferenceType target && c.isReferenceType source then
    match v with
    | .invariant => some false
    | .covariant => assignable target source
    | .contravariant => assignable source target
    | .ambivariant => Fueled.or (assignable target source) fun _ => assignable source target
  else some false

/-- Whether two instances of one generic definition are convertible argument by argument. -/
def instanceConvertible (c : Catalog) (assignable : Ty → Ty → Fueled Bool) :
    (target source : Ty) → Fueled Bool
  | .named d ts, .named e us =>
    if d = e ∧ ts.length = us.length ∧ ts ≠ [] then
      Fueled.all
        (fun p => c.argumentConvertible assignable p.1.variance p.2.1 p.2.2)
        ((c.definition d).params.zip (ts.zip us))
    else some false
  | _, _ => some false

/-- Whether two arrays of one rank are convertible because their elements are. -/
def arrayConvertible (c : Catalog) (assignable : Ty → Ty → Fueled Bool) :
    (target source : Ty) → Fueled Bool
  | .array m t, .array n u =>
    if m = n ∧ c.isReferenceType u = true then assignable t u else some false
  | _, _ => some false

/-- Whether a value of type `source` can stand where `target` is expected. -/
def isAssignable (c : Catalog) : (fuel : Nat) → (target source : Ty) → Fueled Bool
  | 0, _, _ => none
  | fuel + 1, target, source =>
    if target = source then some true
    else
      Fueled.or (c.arrayConvertible (isAssignable c fuel) target source) fun _ =>
        match c.ancestors fuel source with
        | none => none
        | some above =>
          Fueled.any
            (fun ancestor =>
              if ancestor = target then some true
              else c.instanceConvertible (isAssignable c fuel) target ancestor)
            above

end TypeResolution.Catalog
