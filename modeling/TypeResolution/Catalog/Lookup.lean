import TypeResolution.Catalog.Rendering

/-!
# Finding a definition by the name in a type expression

Type expressions leave the arity suffix out, so `List` has to find the definition that is
registered with the suffix for one parameter when it is applied to one argument.
-/

namespace TypeResolution.Catalog

/-- Whether a definition takes the wanted number of arguments; `none` wants any number. -/
def fits (c : Catalog) (arity? : Option Nat) (d : DefIndex) : Bool :=
  match arity? with
  | none => true
  | some n => c.arity d == n

/-- The definition that a name means when it is applied to so many arguments. Looked for in this
order: the name with the arity as its suffix, the very name if its definition fits, and the first
fitting definition whose name without suffix it is. -/
def find? (c : Catalog) (name : String) (arity? : Option Nat) : Option DefIndex :=
  let suffixed :=
    match arity? with
    | none => none
    | some 0 => none
    | some n => c.lookup? (nameWithArity name n)
  suffixed
    <|> (c.lookup? name).filter (c.fits arity?)
    <|> (c.entries.find? fun e => nameWithoutArity e.1.name == name && c.fits arity? e.2).map (·.2)

end TypeResolution.Catalog
