import TypeResolution.Expr.Token

/-!
# The parser of type expressions

The grammar needs no more than the next token to know what to do:

* a type is a name or a parameter, behind a name possibly arguments in angle brackets, and then any
  number of suffixes `[`…`]`, `*` and `&`, each of which wraps what stands before it;
* the brackets of an array hold one comma less than it has dimensions.

So the parser is a machine that goes from state to state, one token at a time. A state remembers
the definitions whose arguments are still being read, innermost first. A token without a transition
is where the text stops being the beginning of any expression, and that is the error reported.
-/

namespace TypeResolution

/-- What would have been possible where a text stops being the beginning of an expression. -/
inductive ParseReason where
  /-- only a type -/
  | expectedType
  /-- only the digits of a parameter -/
  | expectedIndex
  /-- only a comma, or the end of the array's brackets -/
  | expectedComma
  /-- arguments or a suffix, and, outside all angle brackets, the end of the text -/
  | expectedAfterName (outermost : Bool)
  /-- a suffix, and, outside all angle brackets, the end of the text -/
  | expectedAfterType (outermost : Bool)
  /-- the text is an expression, but a parameter does not fit in 32 bits -/
  | indexOutOfRange
  deriving DecidableEq

/-- The words for a reason. -/
def ParseReason.text : ParseReason → String
  | .expectedType => "expected a type"
  | .expectedIndex => "expected a parameter index"
  | .expectedComma => "expected `,`"
  | .expectedAfterName true => "expected end of input, `[`, `*`, `&`, or type arguments"
  | .expectedAfterName false => "expected `[`, `*`, `&`, or type arguments"
  | .expectedAfterType true => "expected end of input, `[`, `*`, or `&`"
  | .expectedAfterType false => "expected `[`, `*`, or `&`"
  | .indexOutOfRange => "parameter index out of range"

/-- Why, and where in bytes, a text is no type expression. -/
structure ParseError where
  /-- what is wrong -/
  reason : ParseReason
  /-- the number of bytes before the place -/
  offset : Nat
  /-- the number of bytes that are wrong; none where something is missing -/
  length : Nat
  deriving DecidableEq

namespace Expr

/-- A definition whose arguments are being read. -/
structure Frame where
  /-- its name -/
  name : String
  /-- the arguments read so far -/
  args : List Expr

/-- The state of the parser between two tokens. -/
inductive State where
  /-- a type has to come -/
  | wantType (outer : List Frame)
  /-- a name has come, of which arguments may follow -/
  | afterName (name : String) (outer : List Frame)
  /-- a type has come, of which only suffixes may follow -/
  | afterType (t : Expr) (outer : List Frame)
  /-- the bracket of an array is open -/
  | inBrackets (elem : Expr) (rank : Nat) (outer : List Frame)

namespace State

/-- The transition behind a complete type: a suffix, or the end of an argument. -/
def afterTypeStep (t : Expr) : List Frame → Token → Option State
  | outer, .symbol '[' => some (.inBrackets t 1 outer)
  | outer, .symbol '*' => some (.afterType (.pointer t) outer)
  | outer, .symbol '&' => some (.afterType (.byRef t) outer)
  | frame :: outer, .symbol ',' => some (.wantType (⟨frame.name, frame.args ++ [t]⟩ :: outer))
  | frame :: outer, .symbol '>' => some (.afterType (.named frame.name (frame.args ++ [t])) outer)
  | _, _ => none

/-- The state behind a token, or `none` if the token cannot stand there. -/
def step : State → Token → Option State
  | .wantType outer, .name text => some (.afterName text outer)
  | .wantType outer, .param index => some (.afterType (.param index) outer)
  | .wantType _, _ => none
  | .afterName name outer, .symbol '<' => some (.wantType (⟨name, []⟩ :: outer))
  | .afterName name outer, token => afterTypeStep (.named name []) outer token
  | .afterType t outer, token => afterTypeStep t outer token
  | .inBrackets t rank outer, .symbol ',' => some (.inBrackets t (rank + 1) outer)
  | .inBrackets t rank outer, .symbol ']' => some (.afterType (.array t rank) outer)
  | .inBrackets .., _ => none

/-- The expression that has been read if the text ends here. -/
def finished? : State → Option Expr
  | .afterName name [] => some (.named name [])
  | .afterType t [] => some t
  | _ => none

/-- What could have come in a state. -/
def expected : State → ParseReason
  | .wantType _ => .expectedType
  | .afterName _ outer => .expectedAfterName outer.isEmpty
  | .afterType _ outer => .expectedAfterType outer.isEmpty
  | .inBrackets .. => .expectedComma

/-- The error at a token that cannot stand in a state. Where a type has to come, a lone exclamation
mark begins one, and it is its digits that are missing. -/
def errorAt (s : State) (l : Lexeme) : ParseError :=
  match s, l.token with
  | .wantType _, .bang => ⟨.expectedIndex, l.offset + l.length, 0⟩
  | s, _ => ⟨s.expected, l.offset, 0⟩

/-- Reads tokens up to the end of the text, which lies `stop` bytes behind its beginning. -/
def run (stop : Nat) : State → List Lexeme → Except ParseError Expr
  | s, [] =>
    match s.finished? with
    | some t => .ok t
    | none => .error ⟨s.expected, stop, 0⟩
  | s, l :: ls =>
    match s.step l.token with
    | some s => run stop s ls
    | none => .error (s.errorAt l)

end State

/-- The largest number that parameters stay below. -/
def indexLimit : Nat := Nat.pow 2 32

/-- Whether a token is a parameter that does not fit in 32 bits. -/
def isOutOfRange (l : Lexeme) : Bool :=
  match l.token with
  | .param index => decide (indexLimit ≤ index)
  | _ => false

/-- Reads a text as a type expression. A parameter out of range is reported only if the text is an
expression otherwise, and the first one then. -/
def parse (src : String) : Except ParseError Expr :=
  match State.run src.utf8ByteSize (.wantType []) (lexemes src) with
  | .error e => .error e
  | .ok t =>
    match (lexemes src).find? isOutOfRange with
    | some l => .error ⟨.indexOutOfRange, l.offset, l.length⟩
    | none => .ok t

end Expr

end TypeResolution
