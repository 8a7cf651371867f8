import TypeResolution.Catalog.Assignability

/-!
# Instantiation: closed types from definitions and arguments

A definition applied to arguments is a valid type if the number of arguments is right, all are
closed, and each meets the bounds of its parameter. Stand-ins give the structural type they stand
for. A pointer or by-reference argument is stored in its nominal form, and it is this form that the
bounds are checked on.
-/

namespace TypeResolution.Catalog

/-- The form in which an argument is stored. -/
def storedArg : Ty → Ty
  | .pointer t => (Ty.pointer t).nominalForm
  | .byRef t => (Ty.byRef t).nominalForm
  | t => t

/-- Whether an argument meets one bound of its parameter; `args` are all arguments. -/
def meets (c : Catalog) (fuel : Nat) (args : List Ty) (arg : Ty) : Bound → Fueled Bool
  | .referenceType => some (c.isReferenceType arg)
  | .valueType => some (c.isValueType arg)
  | .implements required => c.isAssignable fuel (required.subst args) arg

/-- The first parameter, with its argument, whose bounds the argument misses. -/
def firstMissed (c : Catalog) (fuel : Nat) (args : List Ty) :
    List (TypeParam × Ty) → Fueled (Option (TypeParam × Ty))
  | [] => some none
  | (param, arg) :: rest =>
    match Fueled.all (c.meets fuel args arg) param.bounds with
    | none => none
    | some false => some (some (param, arg))
    | some true => firstMissed c fuel args rest

/-- The closed type of a definition applied to arguments, or why there is none. -/
def instantiate (c : Catalog) (fuel : Nat) (d : DefIndex) (args : List Ty) :
    Fueled (Except ArgumentError Ty) :=
  match checkArgs d (c.arity d) args with
  | .error e => some (.error e)
  | .ok () =>
    match Ty.structural? d args with
    | some result => some result
    | none =>
      let stored := args.map storedArg
      match c.firstMissed fuel stored ((c.definition d).params.zip stored) with
      | none => none
      | some (some (param, arg)) => some (.error (.bound d param.name arg))
      | some none => some (.ok (.named d stored))

end TypeResolution.Catalog
