import TypeResolution.Toml.Reader

/-!
# TOML texts

Four ways to write a text: *basic* texts in double quotes have escapes, *literal* texts in single
quotes have none, and both may be tripled to span lines. A tripled text may hold one or two of its
quotes in a row, also right before its end, and loses a line end right behind its beginning.
-/

namespace TypeResolution.Toml

/-- The value of a hexadecimal digit. -/
def hexDigit? (c : Char) : Option Nat :=
  if c.isDigit then some (c.toNat - '0'.toNat)
  else if 'a' ≤ c ∧ c ≤ 'f' then some (c.toNat - 'a'.toNat + 10)
  else if 'A' ≤ c ∧ c ≤ 'F' then some (c.toNat - 'A'.toNat + 10)
  else none

/-- The number that hexadecimal digits denote. -/
def hexNumber? (digits : List Char) : Option Nat :=
  digits.foldlM (fun n c => (hexDigit? c).map (16 * n + ·)) 0

/-- The character of a code point, unless it is half of a surrogate pair or too large. -/
def charOfHex? (digits : List Char) : Option Char :=
  (hexNumber? digits).bind fun n =>
    if h : n.isValidChar then some (Char.ofNatAux n h) else none

/-- The character that an escape of one letter stands for. -/
def simpleEscape? : Char → Option Char
  | 'b' => some '\x08'
  | 't' => some '\t'
  | 'n' => some '\n'
  | 'f' => some '\x0c'
  | 'r' => some '\r'
  | '"' => some '"'
  | '\\' => some '\\'
  | _ => none

/-- A read character in front of what follows. -/
def prepend (c : Option Char) (rest : Option (List Char × List Char)) :
    Option (List Char × List Char) :=
  c.bind fun c => rest.map fun p => (c :: p.1, p.2)

/-! ## Texts on one line -/

/-- The rest of a basic text, whose opening quote has been taken. -/
def basicRest : List Char → Option (List Char × List Char)
  | [] => none
  | '"' :: cs => some ([], cs)
  | '\\' :: 'u' :: a :: b :: c :: d :: cs => prepend (charOfHex? [a, b, c, d]) (basicRest cs)
  | '\\' :: 'U' :: a :: b :: c :: d :: e :: f :: g :: h :: cs =>
    prepend (charOfHex? [a, b, c, d, e, f, g, h]) (basicRest cs)
  | '\\' :: c :: cs => prepend (simpleEscape? c) (basicRest cs)
  | c :: cs => if isPrintable c && c != '\\' then prepend (some c) (basicRest cs) else none

/-- The rest of a literal text, whose opening quote has been taken. -/
def literalRest : List Char → Option (List Char × List Char)
  | [] => none
  | '\'' :: cs => some ([], cs)
  | c :: cs => if isPrintable c then prepend (some c) (literalRest cs) else none

/-! ## Texts on several lines -/

/-- Drops a line end right behind the opening quotes. -/
def skipFirstLineEnd : List Char → List Char
  | '\n' :: cs => cs
  | '\r' :: '\n' :: cs => cs
  | cs => cs

/-- Whether only blanks stand before the line's end. -/
def endsLine (cs : List Char) : Bool :=
  match cs.dropWhile isBlank with
  | '\n' :: _ => true
  | '\r' :: '\n' :: _ => true
  | _ => false

/-- The rest of a basic text on several lines. While `joining`, blanks and line ends are dropped:
a backslash at the end of a line joins it with the next one that holds anything else. -/
def basicLines (joining : Bool) : List Char → Option (List Char × List Char)
  | [] => none
  | '"' :: '"' :: '"' :: '"' :: '"' :: cs => some (['"', '"'], cs)
  | '"' :: '"' :: '"' :: '"' :: cs => some (['"'], cs)
  | '"' :: '"' :: '"' :: cs => some ([], cs)
  | '\\' :: 'u' :: a :: b :: c :: d :: cs =>
    prepend (charOfHex? [a, b, c, d]) (basicLines false cs)
  | '\\' :: 'U' :: a :: b :: c :: d :: e :: f :: g :: h :: cs =>
    prepend (charOfHex? [a, b, c, d, e, f, g, h]) (basicLines false cs)
  | '\\' :: c :: cs =>
    if endsLine (c :: cs) then
      match c with
      | '\r' => basicLines true cs
      | _ => if isBlank c || c == '\n' then basicLines true cs else none
    else prepend (simpleEscape? c) (basicLines false cs)
  | '\r' :: '\n' :: cs =>
    if joining then basicLines true cs else prepend (some '\n') (basicLines false cs)
  | '\n' :: cs =>
    if joining then basicLines true cs else prepend (some '\n') (basicLines false cs)
  | c :: cs =>
    if joining && isBlank c then basicLines true cs
    else if isPrintable c && c != '\\' then prepend (some c) (basicLines false cs)
    else none

/-- The rest of a literal text on several lines. -/
def literalLines : List Char → Option (List Char × List Char)
  | [] => none
  | '\'' :: '\'' :: '\'' :: '\'' :: '\'' :: cs => some (['\'', '\''], cs)
  | '\'' :: '\'' :: '\'' :: '\'' :: cs => some (['\''], cs)
  | '\'' :: '\'' :: '\'' :: cs => some ([], cs)
  | '\r' :: '\n' :: cs => prepend (some '\n') (literalLines cs)
  | '\n' :: cs => prepend (some '\n') (literalLines cs)
  | c :: cs => if isPrintable c then prepend (some c) (literalLines cs) else none

/-! ## Any text -/

/-- Reads a text on one line. -/
def lineText : Reader String := fun cs =>
  match cs with
  | '"' :: cs => (basicRest cs).map fun p => (String.ofList p.1, p.2)
  | '\'' :: cs => (literalRest cs).map fun p => (String.ofList p.1, p.2)
  | _ => none

/-- Reads a text of any of the four forms. -/
def anyText : Reader String := fun cs =>
  match cs with
  | '"' :: '"' :: '"' :: cs =>
    (basicLines false (skipFirstLineEnd cs)).map fun p => (String.ofList p.1, p.2)
  | '\'' :: '\'' :: '\'' :: cs =>
    (literalLines (skipFirstLineEnd cs)).map fun p => (String.ofList p.1, p.2)
  | _ => lineText cs

/-! ## Keys -/

/-- Whether a character may stand in a key without quotes. -/
def isKeyChar (c : Char) : Bool := c.isAlphanum || c == '_' || c == '-'

/-- Reads one part of a key. -/
def keyPart : Reader String :=
  lineText <|> do
    let cs ← Reader.takeWhile isKeyChar
    guard (cs ≠ [])
    return String.ofList cs

/-- The number of levels that values may be nested in, and of parts that a key may have, is below
this one. -/
def nestingLimit : Nat := 80

/-- Reads a key: parts with points between them. -/
def key : Reader (List String) := do
  let parts ← Reader.separated (skipBlanks *> keyPart <* skipBlanks) (Reader.expect '.')
  guard (parts.length < nestingLimit)
  return parts

end TypeResolution.Toml
