import TypeResolution.Catalog.Instantiation
import TypeResolution.Catalog.Lookup
import TypeResolution.Expr.Parser

/-!
# Reading type expressions with a catalog

An expression becomes a type when its names are looked up. An *open* expression stands in a
definition: it may mention parameters, and bounds are not checked, because the definitions that it
mentions may not be complete yet. A *closed* expression may not mention parameters, and every
application in it has to be valid.
-/

namespace TypeResolution

/-- Why a text does not denote a type. -/
inductive ReadingError where
  /-- it is no type expression -/
  | parse (error : ParseError)
  /-- there is no such definition for this number of arguments -/
  | unknown (name : String) (arity : Nat)
  /-- it mentions a parameter outside a definition -/
  | openParam (index : Nat)
  /-- it applies a definition to arguments that this does not take -/
  | instantiate (error : ArgumentError)

/-- The message of an error. -/
def ReadingError.message (c : Catalog) : ReadingError → String
  | .parse _ => "invalid type expression"
  | .unknown name arity =>
    "no type named " ++ quoted name ++ " taking " ++ toString arity ++ " type arguments"
  | .openParam index =>
    "generic parameter " ++ quoted ("!" ++ toString index) ++ " used outside a type definition"
  | .instantiate error => error.message c

namespace Expr

/-! ## Open expressions -/

mutual
/-- The type that an open expression denotes. -/
def toOpen (c : Catalog) : Expr → Except ReadingError Ty
  | .param index => .ok (.param index)
  | .named name args =>
    match c.find? name (some args.length) with
    | none => .error (.unknown name args.length)
    | some d => (toOpenAll c args).map (.named d)
  | .array elem rank => (toOpen c elem).map (.array rank)
  | .pointer elem => (toOpen c elem).map .pointer
  | .byRef elem => (toOpen c elem).map .byRef

/-- The types that open expressions denote, one by one. -/
def toOpenAll (c : Catalog) : List Expr → Except ReadingError (List Ty)
  | [] => .ok []
  | e :: es =>
    match toOpen c e with
    | .error e => .error e
    | .ok t => (toOpenAll c es).map (t :: ·)
end

/-! ## Closed expressions -/

mutual
/-- The type that a closed expression denotes. -/
def toClosed (c : Catalog) (fuel : Nat) : Expr → Fueled (Except ReadingError Ty)
  | .param index => some (.error (.openParam index))
  | .named name args =>
    match c.find? name (some args.length) with
    | none => some (.error (.unknown name args.length))
    | some d =>
      match toClosedAll c fuel args with
      | none => none
      | some (.error e) => some (.error e)
      | some (.ok ts) => (c.instantiate fuel d ts).map (Except.mapError .instantiate)
  | .array elem rank => (toClosed c fuel elem).map (Except.map (.array rank))
  | .pointer elem => (toClosed c fuel elem).map (Except.map .pointer)
  | .byRef elem => (toClosed c fuel elem).map (Except.map .byRef)

/-- The types that closed expressions denote, one by one. -/
def toClosedAll (c : Catalog) (fuel : Nat) : List Expr → Fueled (Except ReadingError (List Ty))
  | [] => some (.ok [])
  | e :: es =>
    match toClosed c fuel e with
    | none => none
    | some (.error e) => some (.error e)
    | some (.ok t) => (toClosedAll c fuel es).map (Except.map (t :: ·))
end

end Expr

namespace Catalog

/-- The type that a text denotes inside a definition. -/
def readOpen (c : Catalog) (src : String) : Except ReadingError Ty :=
  match Expr.parse src with
  | .error e => .error (.parse e)
  | .ok e => e.toOpen c

/-- The closed type that a text denotes. -/
def readClosed (c : Catalog) (fuel : Nat) (src : String) : Fueled (Except ReadingError Ty) :=
  match Expr.parse src with
  | .error e => some (.error (.parse e))
  | .ok e => e.toClosed c fuel

end Catalog

end TypeResolution
