import TypeResolution.Catalog.Basic
import TypeResolution.Fuel

/-!
# The hierarchy: what a type inherits from

`ancestors` lists every type that a type is an instance of through inheritance: the type itself,
then the interfaces declared along its base chain, each followed by the interfaces it extends, then
the base chain. Each type is listed once, at its first position; the list built so far is also what
keeps the walk from going around in a circle.

Declarations may grow without end (`A<T> : A<A<T>>` has infinitely many different bases), so the
walk runs under fuel.
-/

namespace TypeResolution.Catalog

/-- The declared base of a type, over the type's own arguments. -/
def declaredBase? (c : Catalog) : Ty → Option Ty
  | .named d ts => (c.definition d).base.map (Ty.subst ts)
  | .array .. => c.arrayBase
  | _ => none

/-- The interfaces that a type declares, over the type's own arguments. Only arrays of one
dimension have interfaces. -/
def declaredInterfaces (c : Catalog) : Ty → List Ty
  | .named d ts => (c.definition d).interfaces.map (Ty.subst ts)
  | .array 1 elem => c.arrayInterfaces.map (Ty.subst [elem])
  | _ => []

/-- The bases of `t` from the nearest outwards, up to the first type that was `seen` before. -/
def basesFrom (c : Catalog) : (fuel : Nat) → (seen : List Ty) → Ty → Fueled (List Ty)
  | 0, _, _ => none
  | fuel + 1, seen, t =>
    match c.declaredBase? t with
    | none => some []
    | some base =>
      if base ∈ seen then some []
      else (basesFrom c fuel (base :: seen) base).map (base :: ·)

/-- A type's proper bases, from the nearest outwards. -/
def bases (c : Catalog) (fuel : Nat) (t : Ty) : Fueled (List Ty) := c.basesFrom fuel [t] t

/-- Appends to `found` every type of `pending` that is not there yet, each followed by the
interfaces it extends. -/
def addInterfaces (c : Catalog) : (fuel : Nat) → (found pending : List Ty) → Fueled (List Ty)
  | _, found, [] => some found
  | 0, _, _ :: _ => none
  | fuel + 1, found, t :: pending =>
    if t ∈ found then addInterfaces c fuel found pending
    else addInterfaces c fuel (found ++ [t]) (c.declaredInterfaces t ++ pending)

/-- The types that are not listed in `found`. -/
def unlisted (found ts : List Ty) : List Ty := ts.filter fun t => decide (t ∉ found)

/-- Every type that `t` is an instance of through inheritance, `t` first. -/
def ancestors (c : Catalog) (fuel : Nat) (t : Ty) : Fueled (List Ty) :=
  match c.bases fuel t with
  | none => none
  | some bases =>
    match c.addInterfaces fuel [t] ((t :: bases).flatMap c.declaredInterfaces) with
    | none => none
    | some found => some (found ++ unlisted found bases)

/-- The ancestors of a definition applied to its own parameters. -/
def ancestorsOfDefinition (c : Catalog) (fuel : Nat) (d : DefIndex) : Fueled (List Ty) :=
  c.ancestors fuel (c.openInstance d)

end TypeResolution.Catalog
