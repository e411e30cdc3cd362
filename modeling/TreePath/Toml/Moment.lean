import TreePath.Toml.Text

/-!
# Dates and times of a settings text

A date, a time of day, or both with an optional offset.  The parts have a fixed number of digits and
are checked against the calendar.
-/

set_option autoImplicit false

namespace TreePath

namespace Toml

/-- Reads a number of `size` digits between two bounds. -/
def readDigits (size least greatest : Nat) (input : List Char) : Option (Nat × List Char) :=
  let digits := input.take size
  let value := Decimal.ofDigits 10 digits
  if digits.length = size && digits.all Char.isDigit && least ≤ value && value ≤ greatest then
    some (value, input.drop size)
  else none

/-- The input behind a given character. -/
def skipChar? (c : Char) : List Char → Option (List Char)
  | d :: rest => if d = c then some rest else none
  | [] => none

/-- The years of 366 days in the Gregorian calendar. -/
def isLeapYear (year : Nat) : Bool := year % 4 == 0 && (year % 100 != 0 || year % 400 == 0)

/-- The number of days of a month. -/
def daysOfMonth (year month : Nat) : Nat :=
  if month = 2 then if isLeapYear year then 29 else 28
  else if month = 4 ∨ month = 6 ∨ month = 9 ∨ month = 11 then 30
  else 31

/-- The input behind a date. -/
def skipDate? (input : List Char) : Option (List Char) := do
  let (year, rest) ← readDigits 4 0 9999 input
  let (month, rest) ← readDigits 2 1 12 (← skipChar? '-' rest)
  let (_, rest) ← readDigits 2 1 (daysOfMonth year month) (← skipChar? '-' rest)
  return rest

/-- The input behind a time of day. -/
def skipTime? (input : List Char) : Option (List Char) := do
  let (_, rest) ← readDigits 2 0 23 input
  let (_, rest) ← readDigits 2 0 59 (← skipChar? ':' rest)
  let (_, rest) ← readDigits 2 0 60 (← skipChar? ':' rest)
  match rest with
  | '.' :: fraction =>
    if (fraction.head?.map Char.isDigit).getD false then return fraction.dropWhile Char.isDigit
    else return rest
  | _ => return rest

/-- The input behind an offset. -/
def skipOffset? : List Char → Option (List Char)
  | c :: rest =>
    if c = 'Z' ∨ c = 'z' then some rest
    else if c = '+' ∨ c = '-' then do
      let (_, rest) ← readDigits 2 0 23 rest
      let (_, rest) ← readDigits 2 0 59 (← skipChar? ':' rest)
      return rest
    else none
  | [] => none

/-- The input behind a time that follows a date, with its offset. -/
def skipTimeOfDate? : List Char → Option (List Char)
  | c :: rest =>
    if c = 'T' ∨ c = 't' ∨ c = ' ' then (skipTime? rest).map fun rest => (skipOffset? rest).getD rest
    else none
  | [] => none

/-- The input behind a date, a time, or both. -/
def skipMoment? (input : List Char) : Option (List Char) :=
  match skipDate? input with
  | some rest => some ((skipTimeOfDate? rest).getD rest)
  | none => skipTime? input

/-- Reads a date, a time, or both, as written. -/
def readMoment (input : List Char) : Option (String × List Char) :=
  (skipMoment? input).map fun rest =>
    (String.ofList (input.take (input.length - rest.length)), rest)

end Toml

end TreePath
