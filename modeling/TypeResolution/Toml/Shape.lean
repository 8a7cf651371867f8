import TypeResolution.Toml.Value

/-!
# Shapes of TOML values

Reading a value as what is wanted in its place. A value of another shape is not converted: a number
is no text, and a number with a fraction is no whole number even if the fraction is zero.
-/

namespace TypeResolution.Toml.Value

/-- A text. -/
def text? : Value → Option String
  | .string s => some s
  | _ => none

/-- A truth value. -/
def flag? : Value → Option Bool
  | .boolean b => some b
  | _ => none

/-- A whole number from zero up to, but not including, a limit. -/
def natBelow? (limit : Nat) : Value → Option Nat
  | .integer n => if 0 ≤ n ∧ n < limit then some n.toNat else none
  | _ => none

/-- A list of values of one shape. -/
def listOf? {α : Type} (read : Value → Option α) : Value → Option (List α)
  | .array items => items.mapM read
  | _ => none

/-- A list of texts. -/
def texts? : Value → Option (List String) := listOf? text?

/-- The fields of a table. A date counts as a table without any field that means something. -/
def fields? : Value → Option (List (String × Value))
  | .table fields => some fields
  | .datetime _ => some []
  | _ => none

/-- A name out of a fixed set. -/
def nameOf? {α : Type} (meaning : String → Option α) (v : Value) : Option α :=
  v.text?.bind meaning

/-- Whether a value holds nothing. -/
def isHollow : Value → Bool
  | .table [] => true
  | .array [] => true
  | _ => false

/-- A name out of a fixed set where a record has it in a field of its own: there it may also be
written as a table in which it names something hollow. -/
def fieldName? {α : Type} (meaning : String → Option α) : Value → Option α
  | .string s => meaning s
  | .table [(s, v)] => if v.isHollow then meaning s else none
  | _ => none

end TypeResolution.Toml.Value
