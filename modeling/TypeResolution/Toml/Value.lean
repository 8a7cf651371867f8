/-!
# TOML values

What a TOML document holds once it is read: a table of named values. Numbers with a fraction and
dates are kept as they are written, because nothing here computes with them.
-/

namespace TypeResolution.Toml

/-- A value of a TOML document. -/
inductive Value where
  /-- a text -/
  | string (text : String)
  /-- a whole number of 64 bits -/
  | integer (n : Int)
  /-- a number with a fraction or an exponent, infinity, or no number, as written -/
  | float (literal : String)
  /-- a truth value -/
  | boolean (b : Bool)
  /-- a date, a time, or both, as written -/
  | datetime (literal : String)
  /-- a list of values -/
  | array (items : List Value)
  /-- named values, each name once -/
  | table (fields : List (String × Value))

end TypeResolution.Toml
