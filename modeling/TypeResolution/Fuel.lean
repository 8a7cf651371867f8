/-!
# Fuel: questions whose answer may be infinite

A catalog is user data, and nothing stops it from declaring `A<T> : A<A<T>>`. The walk over the
supertypes of such a type has no end, and neither has an assignability question that keeps asking
itself a larger one. Every function that follows declared ancestry therefore takes a bound on its
steps, called *fuel*, and answers in `Fueled`: an answer, or the admission that the fuel ran out.

Fuel is not part of an answer. A finished answer stays the same under more fuel, so "terminates"
reads "there is a fuel at which the answer is `some`".
-/

namespace TypeResolution

/-- The answer of a function run under a bound: `none` means that the bound was reached before
the answer was known. -/
abbrev Fueled (α : Type) := Option α

namespace Fueled

/-- The fuel that programs run under: far above the depth of any finite question that fits in
memory. -/
def runtimeFuel : Nat := 1000000

/-- Whether some element passes a test that itself needs fuel. Elements behind the first one that
passes are not tested. -/
def any {α : Type} (p : α → Fueled Bool) : List α → Fueled Bool
  | [] => some false
  | a :: as =>
    match p a with
    | none => none
    | some true => some true
    | some false => any p as

/-- Whether all elements pass a test that itself needs fuel. Elements behind the first one that
fails are not tested. -/
def all {α : Type} (p : α → Fueled Bool) : List α → Fueled Bool
  | [] => some true
  | a :: as =>
    match p a with
    | none => none
    | some false => some false
    | some true => all p as

/-- Disjunction of two tests, the second asked only if the first fails. -/
def or (a : Fueled Bool) (b : Unit → Fueled Bool) : Fueled Bool :=
  match a with
  | none => none
  | some true => some true
  | some false => b ()

end Fueled

end TypeResolution
