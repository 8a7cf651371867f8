/-!
# Readers

A reader takes characters off the front of a text, or fails. A choice between two readers starts
the second one where the first one started. The repetition `many` is bounded by the text itself:
it takes at most as many steps as there are characters left.
-/

namespace TypeResolution.Toml

/-- Takes a value off the front of a text, or fails. -/
abbrev Reader (α : Type) := StateT (List Char) Option α

namespace Reader

/-- The next character, which stays. -/
def peek? : Reader (Option Char) := fun cs => some (cs.head?, cs)

/-- Takes one given character. -/
def expect (c : Char) : Reader Unit
  | d :: cs => if d = c then some ((), cs) else none
  | [] => none

/-- Takes given characters in order. -/
def expectAll : List Char → Reader Unit
  | [] => pure ()
  | c :: cs => do expect c; expectAll cs

/-- Takes all characters of a class up to the first other one. -/
def takeWhile (p : Char → Bool) : Reader (List Char) :=
  fun cs => some (cs.takeWhile p, cs.dropWhile p)

/-- Drops all characters of a class up to the first other one. -/
def skipWhile (p : Char → Bool) : Reader Unit := fun cs => some ((), cs.dropWhile p)

/-- Succeeds at the end of the text. -/
def atEnd : Reader Unit
  | [] => some ((), [])
  | _ :: _ => none

/-- A reader's value where it succeeds, and nothing where it fails. -/
def optional {α : Type} (p : Reader α) : Reader (Option α) := (some <$> p) <|> pure none

/-- What `p` reads one after another, at most as often as `bound` is long. -/
def collect {α : Type} (p : Reader α) : (bound cs : List Char) → List α × List Char
  | [], cs => ([], cs)
  | _ :: bound, cs =>
    match p cs with
    | none => ([], cs)
    | some (a, rest) =>
      let (as, rest) := collect p bound rest
      (a :: as, rest)

/-- Reads as often as possible. -/
def many {α : Type} (p : Reader α) : Reader (List α) := fun cs => some (collect p cs cs)

/-- Reads at least once, with a separator between two values. -/
def separated {α : Type} (p : Reader α) (separator : Reader Unit) : Reader (List α) := do
  let first ← p
  let rest ← many (do separator; p)
  return first :: rest

end Reader

/-! ## Blanks, line ends and comments -/

/-- Whether a character is a blank within a line. -/
def isBlank (c : Char) : Bool := c == ' ' || c == '\t'

/-- Whether a character may stand in a comment or, unless it delimits, in a text: no control
character but the tabulator. -/
def isPrintable (c : Char) : Bool := c == '\t' || (' ' ≤ c && c != '\x7f')

/-- Drops blanks. -/
def skipBlanks : Reader Unit := Reader.skipWhile isBlank

/-- Takes a line end. -/
def lineEnd : Reader Unit
  | '\n' :: cs => some ((), cs)
  | '\r' :: '\n' :: cs => some ((), cs)
  | _ => none

/-- Takes a comment up to the line's end. -/
def comment : Reader Unit := do
  Reader.expect '#'
  Reader.skipWhile isPrintable

/-- Drops blanks and a comment up to the line's end, and takes this or the end of the text. -/
def restOfLine : Reader Unit := do
  skipBlanks
  let _ ← Reader.optional comment
  lineEnd <|> Reader.atEnd

/-- Drops blanks, line ends and comments. -/
def skipLayout : Reader Unit := do
  let _ ← Reader.many (Reader.skipWhile isBlank *> (lineEnd <|> (comment *> lineEnd)))
  skipBlanks

end TypeResolution.Toml
