import TypeResolution.Ty.Basic
import TypeResolution.Variance

/-!
# Type definitions

A definition declares a name, a kind, generic parameters, and the types it inherits from. Inherited
types and bounds may mention the definition's own parameters through `Ty.param`.
-/

namespace TypeResolution

/-- What sort of type a definition declares. -/
inductive Kind where
  /-- a reference type with a place in the base chain -/
  | classType
  /-- a reference type without state of its own -/
  | interfaceType
  /-- a value type -/
  | structType
  deriving DecidableEq, Inhabited

/-- What a generic argument has to be for the instantiation to be valid. -/
inductive Bound where
  /-- a reference type -/
  | referenceType
  /-- a value type -/
  | valueType
  /-- assignable to this type, which may mention the definition's parameters -/
  | implements (required : Ty)
  deriving DecidableEq

/-- A declared generic parameter. -/
structure TypeParam where
  /-- the name that patterns bind it by -/
  name : String
  /-- the declared variance -/
  variance : Variance := .invariant
  /-- the requirements on an argument, all of which must hold -/
  bounds : List Bound := []
  deriving DecidableEq

/-- A declared type. -/
structure Definition where
  /-- the full name, arity suffix included -/
  name : String
  /-- class, interface or struct -/
  kind : Kind := .classType
  /-- the generic parameters in order -/
  params : List TypeParam := []
  /-- the base type, over the definition's own parameters -/
  base : Option Ty := none
  /-- the declared interfaces, over the definition's own parameters -/
  interfaces : List Ty := []
  deriving DecidableEq

namespace Definition

/-- The number of generic parameters. -/
def arity (d : Definition) : Nat := d.params.length

/-- Whether the definition takes type arguments. -/
def isGeneric (d : Definition) : Bool := !d.params.isEmpty

/-- The position of the first generic parameter of that name. -/
def paramPosition? (d : Definition) (name : String) : Option Nat :=
  d.params.findIdx? (·.name == name)

/-- The part of a definition that is fixed when it is registered; ancestry may be added later. -/
def signature (d : Definition) : String × Kind × List TypeParam :=
  (d.name, d.kind, d.params)

/-- The definition with another base, if one is given, and with further interfaces. -/
def extend (d : Definition) (base : Option Ty) (interfaces : List Ty) : Definition :=
  { d with base := base <|> d.base, interfaces := d.interfaces ++ interfaces }

theorem signature_extend (d : Definition) (base : Option Ty) (interfaces : List Ty) :
    (d.extend base interfaces).signature = d.signature := rfl

end Definition

end TypeResolution
