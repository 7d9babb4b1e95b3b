import StepScript.Number.Double
set_option autoImplicit false

/-!
# Reading a number

A number is written as digits, optionally a point with further digits, optionally
an exponent.  The value is the double nearest to the decimal.
-/

namespace StepScript.Number

def digitsValue (prior : Nat) (digits : List Char) : Nat :=
  digits.foldl (fun n c => 10 * n + (c.toNat - '0'.toNat)) prior

def spanDigits (cs : List Char) : List Char × List Char :=
  (cs.takeWhile Char.isDigit, cs.dropWhile Char.isDigit)

/-- Decimal exponents beyond this size make any nonzero value infinite or zero. -/
def exponentLimit : Int := 2000

/-- The double nearest to `mantissa · 10 ^ exponent`.  A value with its first digit
far outside the range of doubles is decided by its size alone. -/
def ofDecimal (mantissa : Nat) (exponent : Int) : Float :=
  if mantissa = 0 then 0.0
  else
    let magnitude := exponent + (Nat.toDigits 10 mantissa).length
    if exponentLimit < magnitude then 1.0 / 0.0
    else if magnitude < -exponentLimit then 0.0
    else if 0 ≤ exponent then Float.ofScientific (mantissa * Nat.pow 10 exponent.toNat) false 0
    else Float.ofScientific mantissa true (-exponent).toNat

/-- The exponent that `cs` consists of, from its letter on; an empty text is zero. -/
def readExponent? : List Char → Option Int
  | [] => some 0
  | c :: rest =>
    if c == 'e' || c == 'E' then
      let (negative, digits) := match rest with
        | '-' :: more => (true, more)
        | '+' :: more => (false, more)
        | _ => (false, rest)
      if digits.isEmpty || !digits.all Char.isDigit then none
      else
        let size : Int := digitsValue 0 digits
        some (if negative then -size else size)
    else none

/-- The number that `cs` consists of, if it is one; it starts with a digit. -/
def read? (cs : List Char) : Option Float :=
  let (whole, afterWhole) := spanDigits cs
  if whole.isEmpty then none
  else
    let (fraction, afterFraction) := match afterWhole with
      | '.' :: rest => spanDigits rest
      | _ => ([], afterWhole)
    (readExponent? afterFraction).map fun exponent =>
      ofDecimal (digitsValue (digitsValue 0 whole) fraction) (exponent - fraction.length)

end StepScript.Number
