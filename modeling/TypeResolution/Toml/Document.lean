import TypeResolution.Toml.Table
import TypeResolution.Toml.Time

/-!
# TOML documents

`parse?` reads a text of TOML 1.0 as a table, or finds that it is none. A document is a list of
lines: pairs, and headers that begin a new table. Values are nested in arrays and inline tables up
to a limit, which is what the recursion runs on.
-/

namespace TypeResolution.Toml

/-! ## Plain values -/

/-- Whether a character may stand in a number, a date, a truth value or a name of a number. -/
def isWordChar (c : Char) : Bool :=
  c.isAlphanum || c == '_' || c == '+' || c == '-' || c == '.' || c == ':'

/-- Takes a word; a date takes the time behind it along, with the blank between them. -/
def word : Reader (List Char) := do
  let cs ← Reader.takeWhile isWordChar
  if afterDate? cs matches some [] then
    match ← Reader.optional (do Reader.expect ' '; Reader.peek?) with
    | some (some c) =>
      if c.isDigit then return cs ++ ' ' :: (← Reader.takeWhile isWordChar)
      else return cs
    | _ => return cs
  else return cs

/-- The value that a word denotes. -/
def wordValue? (cs : List Char) : Option Value :=
  if cs = "true".toList then some (.boolean true)
  else if cs = "false".toList then some (.boolean false)
  else if isDatetime cs then some (.datetime (String.ofList cs))
  else if isFloat cs then some (.float (String.ofList cs))
  else (integer? cs).map .integer

/-- Reads a value that holds no others. -/
def plainValue : Reader Value :=
  (Value.string <$> anyText) <|> do
    match wordValue? (← word) with
    | some v => return v
    | none => failure

/-! ## Nested values -/

/-- Reads the rest of an array, whose opening bracket has been taken. A comma may stand behind the
last item. -/
def arrayRest (item : Reader Value) : Reader Value := do
  let items ← Reader.many (do
    skipLayout
    let v ← item
    skipLayout
    (Reader.expect ',' <|> do
      guard ((← Reader.peek?) = some ']'))
    return v)
  skipLayout
  Reader.expect ']'
  return .array items

/-- Reads a key, an equals sign and a value. -/
def pair (item : Reader Value) : Reader Fields.Pair := do
  let path ← key
  Reader.expect '='
  skipBlanks
  return (path, ← item)

/-- Reads the rest of an inline table, whose opening brace has been taken. It stands on one line,
and no comma stands behind the last pair. -/
def inlineTableRest (item : Reader Value) : Reader Value := do
  let pairs ←
    Reader.separated (pair item <* skipBlanks) (Reader.expect ',') <|>
      (skipBlanks *> pure [])
  Reader.expect '\x7d'
  match Fields.addPairs pairs [] with
  | some fields => return fields.toValue
  | none => failure

/-- Reads a value that is nested at most `depth` levels deep. -/
def value : (depth : Nat) → Reader Value
  | 0 => plainValue
  | depth + 1 => do
    match ← Reader.peek? with
    | some '[' => Reader.expect '['; arrayRest (value depth)
    | some '\x7b' => Reader.expect '\x7b'; inlineTableRest (value depth)
    | _ => plainValue

/-! ## Lines -/

/-- A line of a document that is not empty. -/
inductive Line where
  /-- a key and its value -/
  | pair (p : Fields.Pair)
  /-- the header of a table or, if `isItem`, of a further table in a list -/
  | header (isItem : Bool) (path : List String)

/-- Reads the header of a further table in a list. -/
def itemHeader : Reader Line := do
  Reader.expectAll ['[', '[']
  let path ← key
  Reader.expectAll [']', ']']
  return .header true path

/-- Reads the header of a table. -/
def tableHeader : Reader Line := do
  Reader.expect '['
  let path ← key
  Reader.expect ']'
  return .header false path

/-- Reads a line up to its end, with nothing for an empty one. There is a line while there is
text. -/
def line : Reader (Option Line) := do
  guard ((← Reader.peek?) ≠ none)
  skipBlanks
  match ← Reader.peek? with
  | none => return none
  | some '#' => restOfLine; return none
  | some '\n' => restOfLine; return none
  | some '\r' => restOfLine; return none
  | some '[' =>
    let l ← itemHeader <|> tableHeader
    restOfLine
    return some l
  | _ =>
    let p ← pair (value (nestingLimit - 1))
    restOfLine
    return some (.pair p)

/-- Reads all lines of a text. -/
def lines : Reader (List Line) := do
  let ls ← Reader.many line
  Reader.atEnd
  return ls.filterMap id

/-! ## Documents -/

/-- A header with the pairs below it. -/
structure Section where
  /-- whether it begins a further table in a list -/
  isItem : Bool
  /-- its key -/
  path : List String
  /-- the pairs up to the next header -/
  pairs : List Fields.Pair

/-- The pairs in front of the first header, and the sections. -/
def sections : List Line → List Fields.Pair × List Section
  | [] => ([], [])
  | .pair p :: rest =>
    let (pairs, later) := sections rest
    (p :: pairs, later)
  | .header isItem path :: rest =>
    let (pairs, later) := sections rest
    ([], ⟨isItem, path, pairs⟩ :: later)

/-- Adds a section to a document. -/
def addSection (fields : Fields) (s : Section) : Option Fields :=
  match s.path.getLast? with
  | none => none
  | some k =>
    Fields.descend
      (if s.isItem then Fields.appendTable k s.pairs else Fields.defineTable k s.pairs)
      s.path.dropLast fields

/-- Drops the mark that a text in Unicode may begin with. -/
def skipMark : List Char → List Char
  | '\ufeff' :: cs => cs
  | cs => cs

/-- The table that a text denotes, if it is a document of TOML. -/
def parse? (src : String) : Option Value := do
  let (ls, _) ← lines (skipMark src.toList)
  let (pairs, later) := sections ls
  let top ← Fields.addPairs pairs []
  let fields ← later.foldlM addSection top
  return fields.toValue

end TypeResolution.Toml
