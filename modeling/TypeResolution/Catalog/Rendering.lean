import TypeResolution.Catalog.Basic

/-!
# Written types

Types are written with the catalog's names, for instance `List<int[,]>`. The arity suffix of a
definition's name (a back-tick and digits) is left out, because the arguments show it.
-/

namespace TypeResolution

/-- The character that separates a definition's name from its arity. -/
def aritySeparator : Char := '\x60'

/-- A definition's name without its arity suffix. A suffix needs at least one digit. -/
def nameWithoutArity (name : String) : String :=
  let digits := name.toList.reverse.takeWhile Char.isDigit
  match name.toList.reverse.dropWhile Char.isDigit with
  | c :: rest =>
    if c = aritySeparator ∧ digits ≠ [] then String.ofList rest.reverse else name
  | [] => name

/-- A name with an arity suffix. -/
def nameWithArity (name : String) (arity : Nat) : String :=
  name.push aritySeparator ++ toString arity

/-- Texts with a comma and a blank between them. -/
def commaSeparated (texts : List String) : String := ", ".intercalate texts

/-- Texts in angle brackets, or nothing if there are none. -/
def angleBracketed : List String → String
  | [] => ""
  | texts => "<" ++ commaSeparated texts ++ ">"

/-- The brackets of an array: one comma less than it has dimensions. -/
def rankBrackets (rank : Nat) : String :=
  "[" ++ String.ofList (List.replicate (rank - 1) ',') ++ "]"

namespace Catalog

mutual
/-- A type as it is written. -/
def render (c : Catalog) : Ty → String
  | .param i => "!" ++ toString i
  | .named d ts => nameWithoutArity (c.name d) ++ angleBracketed (renderAll c ts)
  | .array n t => render c t ++ rankBrackets n
  | .pointer t => render c t ++ "*"
  | .byRef t => render c t ++ "&"

/-- Types as they are written, one by one. -/
def renderAll (c : Catalog) : List Ty → List String
  | [] => []
  | t :: ts => render c t :: renderAll c ts
end

theorem renderAll_eq_map (c : Catalog) (ts : List Ty) : c.renderAll ts = ts.map c.render := by
  induction ts with
  | nil => rfl
  | cons t ts ih => simp [renderAll, ih]

end Catalog

/-- A text between back-ticks. -/
def quoted (text : String) : String := "`" ++ text ++ "`"

/-- The message of a refused instantiation. -/
def ArgumentError.message (c : Catalog) : ArgumentError → String
  | .arity d expected found =>
    quoted (c.name d) ++ " takes " ++ toString expected ++ " type arguments but "
      ++ toString found ++ " were supplied"
  | .bound d param arg =>
    "type argument " ++ quoted (c.render arg) ++ " does not satisfy the bounds of "
      ++ quoted param ++ " on " ++ quoted (c.name d)
  | .malformedRank rank =>
    quoted (c.render rank) ++ " is not a rank encoding of at least one dimension"
  | .openArgument d index =>
    "type argument " ++ toString index ++ " of " ++ quoted (c.name d) ++ " is not closed"

end TypeResolution
