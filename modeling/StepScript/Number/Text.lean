import StepScript.Number.Shortest
set_option autoImplicit false

/-!
# The text of a number

A whole number below `10 ^ 15` in size is written as an integer, so that zero has
no sign.  Any other finite number is written with its shortest digits and never
with an exponent.
-/

namespace StepScript.Number

def digitsText (n : Nat) : List Char := Nat.toDigits 10 n

/-- `digits` behind zeros, at least `width` long. -/
def padZeros (width : Nat) (digits : List Char) : List Char :=
  List.replicate (width - digits.length) '0' ++ digits

def dropTrailingZeros (digits : List Char) : List Char :=
  (digits.reverse.dropWhile (· == '0')).reverse

/-- A decimal written out: zeros stand for a positive exponent, and a point divides
off the digits of a negative one. -/
def Decimal.positional (d : Decimal) : List Char :=
  if 0 ≤ d.exponent then digitsText d.digits ++ List.replicate d.exponent.toNat '0'
  else
    let places := (-d.exponent).toNat
    let whole := digitsText (d.digits / Nat.pow 10 places)
    let fraction := dropTrailingZeros (padZeros places (digitsText (d.digits % Nat.pow 10 places)))
    if fraction.isEmpty then whole else whole ++ '.' :: fraction

/-- Whole numbers of this size and above are written by their shortest digits. -/
def integerLimit : Nat := Nat.pow 10 15

def Double.text (x : Double) : List Char :=
  match x with
  | .nan => "NaN".toList
  | .infinite negative => if negative then "-inf".toList else "inf".toList
  | .finite negative mantissa exponent =>
    let whole := x.wholePart
    if x.isIntegral && whole < integerLimit then
      if negative && whole ≠ 0 then '-' :: digitsText whole else digitsText whole
    else
      let digits := (shortest mantissa exponent).positional
      if negative then '-' :: digits else digits

def text (x : Float) : String := String.ofList (Double.ofFloat x).text

end StepScript.Number
