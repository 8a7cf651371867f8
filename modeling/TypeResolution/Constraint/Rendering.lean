import TypeResolution.Constraint.Basic
import TypeResolution.Catalog.Rendering

/-!
# Written constraints

A constraint is written like a type, with the mark of its variance in front; a wildcard is an
underscore, and a negation an exclamation mark before its parts.
-/

namespace TypeResolution.Constraint

mutual
/-- A constraint as it is written. -/
def render (c : Catalog) : Constraint → String
  | .wildcard => "_"
  | .param name v => v.mark ++ name
  | .instanceOf target v args =>
    v.mark ++ nameWithoutArity (c.name target) ++ angleBracketed (renderAll c args)
  | .negation inner => "!(" ++ commaSeparated (renderAll c inner) ++ ")"

/-- Constraints as they are written, one by one. -/
def renderAll (c : Catalog) : List Constraint → List String
  | [] => []
  | k :: ks => render c k :: renderAll c ks
end

end TypeResolution.Constraint
