set_option autoImplicit false

/-!
# Doubles as integers

A number of the language is a 64-bit binary float.  Printing it and taking a
remainder are exact operations, so both work on the integers behind the bits:
a finite double is `± mantissa · 2 ^ exponent`.
-/

namespace StepScript.Number

inductive Double where
  /-- Not a number. -/
  | nan
  /-- An infinity, with its sign. -/
  | infinite (negative : Bool)
  /-- `± mantissa · 2 ^ exponent`; the mantissa is below `2 ^ 53`. -/
  | finite (negative : Bool) (mantissa : Nat) (exponent : Int)
  deriving DecidableEq, Repr, Inhabited

namespace Double

/-- Exponent of the smallest positive double. -/
def minExponent : Int := -1074

def ofBits (bits : UInt64) : Double :=
  let negative := bits >>> 63 == 1
  let biased := ((bits >>> 52) &&& 0x7ff).toNat
  let fraction := (bits &&& 0xfffffffffffff).toNat
  if biased = 0x7ff then
    if fraction = 0 then .infinite negative else .nan
  else if biased = 0 then .finite negative fraction minExponent
  else .finite negative (Nat.pow 2 52 + fraction) (biased - 1075)

def ofFloat (x : Float) : Double := ofBits x.toBits

/-- Bit pattern of `mantissa · 2 ^ exponent`, for a mantissa below `2 ^ 53` and
an exponent from `minExponent` up: the mantissa is shifted left as far as the
format allows, and the bits it then has are the fraction. -/
def magnitudeBits (mantissa : Nat) (exponent : Int) : Nat :=
  let room := 52 - Nat.log2 mantissa
  let shift := min room (exponent - minExponent).toNat
  let scaled := mantissa * Nat.pow 2 shift
  if scaled < Nat.pow 2 52 then scaled
  else ((exponent - shift + 1075).toNat) * Nat.pow 2 52 + (scaled - Nat.pow 2 52)

def toFloat : Double → Float
  | .nan => 0.0 / 0.0
  | .infinite negative => if negative then -1.0 / 0.0 else 1.0 / 0.0
  | .finite negative mantissa exponent =>
    let magnitude := Float.ofBits (magnitudeBits mantissa exponent).toUInt64
    if negative then -magnitude else magnitude

def isIntegral : Double → Bool
  | .finite _ mantissa exponent =>
    0 ≤ exponent || mantissa % Nat.pow 2 (-exponent).toNat = 0
  | _ => false

def wholePart : Double → Nat
  | .finite _ mantissa exponent =>
    if 0 ≤ exponent then mantissa * Nat.pow 2 exponent.toNat
    else mantissa / Nat.pow 2 (-exponent).toNat
  | _ => 0

def isNegative : Double → Bool
  | .nan => false
  | .infinite negative => negative
  | .finite negative _ _ => negative

end Double

/-! ## Floor -/

def floor (x : Float) : Float :=
  match Double.ofFloat x with
  | .finite negative mantissa exponent =>
    if 0 ≤ exponent then x
    else
      let unit := Nat.pow 2 (-exponent).toNat
      let whole := mantissa / unit
      if mantissa % unit = 0 then x
      else Double.toFloat (.finite negative (if negative then whole + 1 else whole) 0)
  | _ => x

/-! ## Remainder -/

/-- The remainder of a division that goes toward zero: the part of `x` left after
taking away `y` as often as it fits.  It is exact, and has the sign of `x`. -/
def remainder (x y : Float) : Float :=
  match Double.ofFloat x, Double.ofFloat y with
  | .finite negative a p, .finite _ b q =>
    if b = 0 then 0.0 / 0.0
    else
      let e := min p q
      let rest := (a * Nat.pow 2 (p - e).toNat) % (b * Nat.pow 2 (q - e).toNat)
      Double.toFloat (.finite negative rest e)
  | .finite _ _ _, .infinite _ => x
  | _, _ => 0.0 / 0.0

end StepScript.Number
