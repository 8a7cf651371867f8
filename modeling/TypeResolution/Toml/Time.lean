import TypeResolution.Toml.Number

/-!
# TOML dates and times

A date, a time, or a date and a time with or without the distance from universal time. Dates have
to be days of the calendar; a minute may have a sixty-first second.
-/

namespace TypeResolution.Toml

/-- The number of given decimal digits, all of which must be digits. -/
def fixedDigits? (digits : List Char) : Option Nat :=
  if digits.all Char.isDigit then some (numberOfDigits 10 digits) else none

/-- Whether a year has a twenty-ninth of February. -/
def isLeapYear (year : Nat) : Bool :=
  year % 4 == 0 && (year % 100 != 0 || year % 400 == 0)

/-- The number of days of a month. -/
def daysInMonth (year month : Nat) : Nat :=
  if month = 2 then (if isLeapYear year then 29 else 28)
  else if month = 4 ∨ month = 6 ∨ month = 9 ∨ month = 11 then 30
  else 31

/-- Whether two digits denote a number up to a limit. -/
def isUpTo (limit : Nat) (a b : Char) : Bool :=
  match fixedDigits? [a, b] with
  | some n => decide (n ≤ limit)
  | none => false

/-- The text behind a date, if it begins with one. -/
def afterDate? : List Char → Option (List Char)
  | a :: b :: c :: d :: '-' :: e :: f :: '-' :: g :: h :: rest =>
    match fixedDigits? [a, b, c, d], fixedDigits? [e, f], fixedDigits? [g, h] with
    | some year, some month, some day =>
      if 1 ≤ month ∧ month ≤ 12 ∧ 1 ≤ day ∧ day ≤ daysInMonth year month then some rest else none
    | _, _, _ => none
  | _ => none

/-- The text behind a fraction of a second; without one, the whole text. -/
def afterFraction? : List Char → Option (List Char)
  | '.' :: c :: rest => if c.isDigit then some (rest.dropWhile Char.isDigit) else none
  | '.' :: [] => none
  | rest => some rest

/-- The text behind a time of day, if it begins with one. -/
def afterTime? : List Char → Option (List Char)
  | a :: b :: ':' :: c :: d :: ':' :: e :: f :: rest =>
    if isUpTo 23 a b && isUpTo 59 c d && isUpTo 60 e f then afterFraction? rest else none
  | _ => none

/-- Whether a text is a distance from universal time. -/
def isOffset : List Char → Bool
  | ['Z'] => true
  | ['z'] => true
  | [sign, a, b, ':', c, d] => (sign == '+' || sign == '-') && isUpTo 23 a b && isUpTo 59 c d
  | _ => false

/-- Whether a text is a time, behind a date with or without a distance from universal time. -/
def isTime (behindDate : Bool) (cs : List Char) : Bool :=
  match afterTime? cs with
  | some [] => true
  | some rest => behindDate && isOffset rest
  | none => false

/-- Whether a character may stand between a date and a time. -/
def isTimeMark (c : Char) : Bool := c == 'T' || c == 't' || c == ' '

/-- Whether a text is a date, a time, or both. -/
def isDatetime (cs : List Char) : Bool :=
  match afterDate? cs with
  | some [] => true
  | some (c :: rest) => isTimeMark c && isTime true rest
  | none => isTime false cs

end TypeResolution.Toml
