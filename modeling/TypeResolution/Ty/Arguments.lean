import TypeResolution.Ty.Basic

/-!
# Argument lists of a definition

What can be wrong with the arguments that a definition is applied to, and the two checks that need
no catalog beyond the definition's arity: the number of arguments, and that all are closed.
-/

namespace TypeResolution

/-- Why a definition cannot be applied to some arguments. -/
inductive ArgumentError where
  /-- the definition takes another number of arguments -/
  | arity (definition : DefIndex) (expected found : Nat)
  /-- an argument misses a bound of the named parameter -/
  | bound (definition : DefIndex) (param : String) (arg : Ty)
  /-- the first argument of the array stand-in is not an encoded rank of at least one -/
  | malformedRank (rank : Ty)
  /-- the argument at this position mentions a parameter -/
  | openArgument (definition : DefIndex) (index : Nat)
  deriving DecidableEq

/-- Checks number and closedness of the arguments, in this order. -/
def checkArgs (definition : DefIndex) (arity : Nat) (args : List Ty) :
    Except ArgumentError Unit :=
  if args.length ≠ arity then
    .error (.arity definition arity args.length)
  else
    match args.findIdx? fun t => !t.isClosed with
    | some index => .error (.openArgument definition index)
    | none => .ok ()

end TypeResolution
