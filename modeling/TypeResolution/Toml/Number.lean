import TypeResolution.Toml.Text

/-!
# TOML numbers

Whole numbers are decimal with an optional sign, or hexadecimal, octal or binary without one; they
have to fit in 64 bits. Single underscores may separate digits. A number with a fraction or an
exponent must not be so large that it would be read as infinity.
-/

namespace TypeResolution.Toml

/-- Digits without the single underscores between them; there must be a digit, and no underscore
but between two digits. -/
def plainDigits? (isDigit : Char → Bool) : List Char → Option (List Char)
  | [] => none
  | [c] => if isDigit c then some [c] else none
  | c :: '_' :: cs => if isDigit c then (plainDigits? isDigit cs).map (c :: ·) else none
  | c :: cs => if isDigit c then (plainDigits? isDigit cs).map (c :: ·) else none

/-- The number that digits of a base denote. -/
def numberOfDigits (base : Nat) (digits : List Char) : Nat :=
  digits.foldl (fun n c => base * n + (hexDigit? c).getD 0) 0

/-- Whether a whole number fits in 64 bits with a sign. -/
def fits64 (n : Int) : Bool := decide (-(Int.pow 2 63) ≤ n ∧ n < Int.pow 2 63)

/-- A whole number, if it fits in 64 bits. -/
def checked? (n : Int) : Option Int := if fits64 n then some n else none

/-- Splits the sign off; `true` means negative. -/
def splitSign : List Char → Bool × List Char
  | '-' :: cs => (true, cs)
  | '+' :: cs => (false, cs)
  | cs => (false, cs)

/-- Decimal digits of a whole number: no zero in front of others. -/
def wholeDigits? (cs : List Char) : Option (List Char) :=
  match cs with
  | ['0'] => some cs
  | '0' :: _ => none
  | _ => plainDigits? Char.isDigit cs

/-- Whether a character is an octal digit. -/
def isOctalDigit (c : Char) : Bool := '0' ≤ c && c ≤ '7'

/-- Whether a character is a binary digit. -/
def isBinaryDigit (c : Char) : Bool := c == '0' || c == '1'

/-- A whole number, as written. -/
def integer? : List Char → Option Int
  | '0' :: 'x' :: cs =>
    (plainDigits? (fun c => (hexDigit? c).isSome) cs).bind fun ds => checked? (numberOfDigits 16 ds)
  | '0' :: 'o' :: cs => (plainDigits? isOctalDigit cs).bind fun ds => checked? (numberOfDigits 8 ds)
  | '0' :: 'b' :: cs =>
    (plainDigits? isBinaryDigit cs).bind fun ds => checked? (numberOfDigits 2 ds)
  | cs =>
    let (negative, digits) := splitSign cs
    (wholeDigits? digits).bind fun ds =>
      let n : Int := numberOfDigits 10 ds
      checked? (if negative then -n else n)

/-! ## Numbers with a fraction or an exponent -/

/-- The parts of a number that is not whole. -/
structure Scientific where
  /-- whether there is a minus in front -/
  negative : Bool
  /-- the digits before and behind the point -/
  digits : List Char
  /-- the power of ten that the last digit counts -/
  exponent : Int

/-- Splits a text before the first character of a class. -/
def splitBefore (p : Char → Bool) (cs : List Char) : List Char × List Char :=
  cs.span fun c => !p c

/-- An exponent behind its letter: digits with an optional sign, in which zeros may come first. -/
def exponent? (cs : List Char) : Option Int :=
  let (negative, digits) := splitSign cs
  (plainDigits? Char.isDigit digits).map fun ds =>
    let n : Int := numberOfDigits 10 ds
    if negative then -n else n

/-- The digits behind the point, if there is one, and the exponent, if there is one; one of both
there must be. -/
def fractionAndExponent? (cs : List Char) : Option (List Char × Int) :=
  match cs with
  | '.' :: cs =>
    let (fraction, rest) := splitBefore (fun c => c == 'e' || c == 'E') cs
    (plainDigits? Char.isDigit fraction).bind fun ds =>
      match rest with
      | [] => some (ds, 0)
      | _ :: rest => (exponent? rest).map fun e => (ds, e)
  | c :: cs => if c == 'e' || c == 'E' then (exponent? cs).map fun e => ([], e) else none
  | [] => none

/-- A number that is not whole, as written. -/
def scientific? (cs : List Char) : Option Scientific :=
  let (negative, cs) := splitSign cs
  let (whole, rest) := splitBefore (fun c => c == '.' || c == 'e' || c == 'E') cs
  (wholeDigits? whole).bind fun w =>
    (fractionAndExponent? rest).map fun p =>
      { negative, digits := w ++ p.1, exponent := p.2 - p.1.length }

/-- Whether `m · 10 ^ e` rounds to infinity in double precision: whether it is at least halfway
between the largest double and the next power of two. Numbers that differ from that by many digits
are told apart by their digits alone. -/
def overflows (m : Nat) (e : Int) : Bool :=
  let size : Int := (Nat.toDigits 10 m).length + e
  if m = 0 then false
  else if size < 300 then false
  else if 320 < size then true
  else
    let bound := Nat.pow 2 1024 - Nat.pow 2 970
    if 0 ≤ e then decide (bound ≤ m * Nat.pow 10 e.toNat)
    else decide (bound * Nat.pow 10 (-e).toNat ≤ m)

/-- Whether a text is a number that is not whole. Infinity must be spelled out; only below zero may
a number be too large. -/
def isFloat (cs : List Char) : Bool :=
  let (_, name) := splitSign cs
  if name == "inf".toList || name == "nan".toList then true
  else
    match scientific? cs with
    | none => false
    | some s => s.negative || !overflows (numberOfDigits 10 s.digits) s.exponent

end TypeResolution.Toml
