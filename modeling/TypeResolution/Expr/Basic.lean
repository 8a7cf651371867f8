/-!
# Type expressions

A type as it is written down, before its names are looked up: `int`, `List<string>`,
`Dictionary<string, int[]>`, `int[,]`, `int*`, `int&`, and `!0` for a parameter of the definition
that the expression stands in.
-/

namespace TypeResolution

/-- A type as it is written down. -/
inductive Expr where
  /-- the parameter at a position -/
  | param (index : Nat)
  /-- a name, applied to arguments -/
  | named (name : String) (args : List Expr)
  /-- an array with `rank` dimensions -/
  | array (elem : Expr) (rank : Nat)
  /-- a pointer -/
  | pointer (elem : Expr)
  /-- a by-reference type -/
  | byRef (elem : Expr)

end TypeResolution
