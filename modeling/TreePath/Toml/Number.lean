import TreePath.Decimal.Reading
import TreePath.Toml.Text

/-!
# Numbers of a settings text

Integers are decimal, without leading zeros, or have a radix of sixteen, eight or two; single
underscores may stand between digits.  A decimal integer with a fraction or an exponent is a float,
as are the names of infinity and of what is no number.
-/

set_option autoImplicit false

namespace TreePath

namespace Toml

/-- The digits at the front of an input with underscores between them, without these, and what
follows. -/
def readDigitRun (isDigit : Char → Bool) : List Char → List Char × List Char
  | '_' :: c :: rest =>
    if isDigit c then
      let (digits, rest) := readDigitRun isDigit rest
      (c :: digits, rest)
    else ([], '_' :: c :: rest)
  | c :: rest =>
    if isDigit c then
      let (digits, rest) := readDigitRun isDigit rest
      (c :: digits, rest)
    else ([], c :: rest)
  | [] => ([], [])

/-- Reads one or more digits with underscores between them. -/
def readDigitChars (isDigit : Char → Bool) : Reader (List Char)
  | c :: rest =>
    if isDigit c then
      let (digits, rest) := readDigitRun isDigit rest
      some (c :: digits, rest)
    else none
  | [] => none

/-- Reads an optional sign, as the characters in front of the digits. -/
def readSign : List Char → List Char × List Char
  | '+' :: rest => (['+'], rest)
  | '-' :: rest => (['-'], rest)
  | input => ([], input)

/-- Reads the characters of a decimal integer, which has no leading zero. -/
def readDecimalChars (input : List Char) : Option (List Char × List Char) :=
  let (sign, rest) := readSign input
  match rest with
  | '0' :: rest => some (sign ++ ['0'], rest)
  | rest => (readDigitChars Char.isDigit rest).map fun (digits, rest) => (sign ++ digits, rest)

/-- Reads an integer of a radix behind its mark. -/
def readRadix (radix : Nat) (input : List Char) : Option (Int64 × List Char) := do
  let (digits, rest) ← readDigitChars (Decimal.isDigitOf radix) input
  let value ← word? (Decimal.ofDigits radix digits)
  return (value, rest)

/-- Reads an integer. -/
def readInteger : Reader Int64
  | '0' :: 'x' :: rest => readRadix 16 rest
  | '0' :: 'o' :: rest => readRadix 8 rest
  | '0' :: 'b' :: rest => readRadix 2 rest
  | input => do
    let (digits, rest) ← readDecimalChars input
    let value ← Decimal.readInt64 digits
    return (value, rest)

/-- Reads a fraction behind an integer, its point included. -/
def readFraction : Reader (List Char)
  | '.' :: rest => (readDigitChars Char.isDigit rest).map fun (digits, rest) => ('.' :: digits, rest)
  | _ => none

/-- Reads an exponent, its letter included. -/
def readExponent : Reader (List Char)
  | c :: rest =>
    if c = 'e' ∨ c = 'E' then
      let (sign, rest) := readSign rest
      (readDigitChars Char.isDigit rest).map fun (digits, rest) => ('e' :: sign ++ digits, rest)
    else none
  | [] => none

/-- Reads the names of infinity and of what is no number. -/
def readNamedFloat (input : List Char) : Option (Binary64 × List Char) :=
  let (sign, rest) := readSign input
  let negative := sign == ['-']
  match rest with
  | 'i' :: 'n' :: 'f' :: rest => some (Binary64.infinity negative, rest)
  | 'n' :: 'a' :: 'n' :: rest => some (Binary64.nan, rest)
  | _ => none

/-- Reads a float with digits; a positive one must not be too large. -/
def readDecimalFloat (input : List Char) : Option (Binary64 × List Char) := do
  let (whole, rest) ← readDecimalChars input
  let (tail, rest) ←
    match readFraction rest with
    | some (fraction, rest) =>
      match readExponent rest with
      | some (exponent, rest) => some (fraction ++ exponent, rest)
      | none => some (fraction, rest)
    | none => readExponent rest
  let x ← Decimal.readFloat (whole ++ tail)
  if x.equal (Binary64.infinity false) then none else return (x, rest)

/-- Reads a float. -/
def readFloat (input : List Char) : Option (Binary64 × List Char) :=
  match readDecimalFloat input with
  | some result => some result
  | none => readNamedFloat input

end Toml

end TreePath
