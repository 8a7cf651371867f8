import TypeResolution.Expr.Basic

/-!
# Tokens of type expressions

A name is a maximal run of letters, digits, underscores, points and back-ticks; letters and digits
are ASCII. An exclamation mark takes the digits that follow it directly. Blanks between tokens are
space, tab, carriage return and line feed. Every other character is a token of its own, so a text
always has tokens; whether they make an expression is the parser's business.

Positions are counted in bytes of UTF-8, from the start of the text.
-/

namespace TypeResolution

/-- A token of a type expression. -/
inductive Token where
  /-- a name -/
  | name (text : String)
  /-- an exclamation mark with digits -/
  | param (index : Nat)
  /-- an exclamation mark without digits -/
  | bang
  /-- any other character -/
  | symbol (c : Char)
  deriving DecidableEq

/-- A token with its place in the text. -/
structure Lexeme where
  /-- the token -/
  token : Token
  /-- the number of bytes before it -/
  offset : Nat
  /-- its number of bytes -/
  length : Nat
  deriving DecidableEq

namespace Lexeme

/-- Whether a character may stand between tokens. -/
def isBlank (c : Char) : Bool := c == ' ' || c == '\t' || c == '\r' || c == '\n'

/-- Whether a character belongs to names. -/
def isNameChar (c : Char) : Bool := c.isAlphanum || c == '_' || c == '.' || c == '\x60'

/-- The number that decimal digits denote. -/
def decimal (digits : List Char) : Nat :=
  digits.foldl (fun n c => 10 * n + (c.toNat - '0'.toNat)) 0

theorem length_dropWhile_le (p : Char → Bool) (cs : List Char) :
    (cs.dropWhile p).length ≤ cs.length :=
  (List.dropWhile_suffix p).length_le

/-- The tokens of a text that starts `offset` bytes behind the beginning. -/
def scan (offset : Nat) : List Char → List Lexeme
  | [] => []
  | c :: cs =>
    if isBlank c then scan (offset + 1) cs
    else if isNameChar c then
      let name := c :: cs.takeWhile isNameChar
      ⟨.name (String.ofList name), offset, name.length⟩
        :: scan (offset + name.length) (cs.dropWhile isNameChar)
    else if c = '!' then
      let digits := cs.takeWhile Char.isDigit
      if digits = [] then ⟨.bang, offset, 1⟩ :: scan (offset + 1) cs
      else
        ⟨.param (decimal digits), offset, 1 + digits.length⟩
          :: scan (offset + 1 + digits.length) (cs.dropWhile Char.isDigit)
    else ⟨.symbol c, offset, c.utf8Size⟩ :: scan (offset + c.utf8Size) cs
termination_by cs => cs.length
decreasing_by
  all_goals simp_wf
  all_goals have h₁ := length_dropWhile_le isNameChar cs
  all_goals have h₂ := length_dropWhile_le Char.isDigit cs
  all_goals omega

end Lexeme

/-- The tokens of a text. -/
def lexemes (src : String) : List Lexeme := Lexeme.scan 0 src.toList

end TypeResolution
