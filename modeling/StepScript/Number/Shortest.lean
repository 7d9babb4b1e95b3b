import StepScript.Number.Double
set_option autoImplicit false

/-!
# The shortest decimal of a double

Among the decimals that read back as a given double, the shortest is the one with
the fewest digits, and of those the one nearest to the double.  The search tries
the decimal grids from coarse to fine and tests, in exact integer arithmetic, the
two points of each grid next to the double.
-/

namespace StepScript.Number

structure Decimal where
  digits : Nat
  exponent : Int
  deriving DecidableEq, Repr, Inhabited

/-- A positive double and the reals that round to it, all over one denominator:
the double is `value / denominator`, and the reals are those from
`low / denominator` to `high / denominator`. -/
structure Interval where
  low : Nat
  value : Nat
  high : Nat
  denominator : Nat
  /-- The two ends round to the double as well. -/
  closed : Bool
  deriving DecidableEq, Repr, Inhabited

namespace Interval

/-- The reals that round to `mantissa · 2 ^ exponent`.  Just above a power of two
the neighbour below is half as far away as the neighbour above.  A real halfway
between two doubles rounds to the one with the even mantissa. -/
def ofParts (mantissa : Nat) (exponent : Int) : Interval :=
  let narrow := mantissa = Nat.pow 2 52 && Double.minExponent < exponent
  let up := Nat.pow 2 (exponent - 2).toNat
  { low := (4 * mantissa - if narrow then 1 else 2) * up
    value := 4 * mantissa * up
    high := (4 * mantissa + 2) * up
    denominator := Nat.pow 2 (2 - exponent).toNat
    closed := mantissa % 2 = 0 }

/-- The decimal grid `10 ^ p`, as the factors that numerator and denominator of a
fraction are multiplied with to measure it in units of the grid. -/
def gridFactors (p : Int) : Nat × Nat := (Nat.pow 10 (-p).toNat, Nat.pow 10 p.toNat)

/-- `digits · 10 ^ p` rounds to the double. -/
def contains (i : Interval) (digits : Nat) (p : Int) : Bool :=
  let (up, down) := gridFactors p
  let point := digits * (i.denominator * down)
  if i.closed then i.low * up ≤ point && point ≤ i.high * up
  else i.low * up < point && point < i.high * up

/-- The point of the grid `10 ^ p` that rounds to the double and is nearest to it,
if one of the two points next to it does.  Of two equally near points the upper
one is taken. -/
def onGrid? (i : Interval) (p : Int) : Option Decimal :=
  let (up, down) := gridFactors p
  let unit := i.denominator * down
  let below := i.value * up / unit
  let above := below + 1
  match i.contains below p, i.contains above p with
  | true, true =>
    if i.value * up - below * unit < above * unit - i.value * up then some ⟨below, p⟩
    else some ⟨above, p⟩
  | true, false => some ⟨below, p⟩
  | false, true => some ⟨above, p⟩
  | false, false => none

/-- The first hit on the grids `10 ^ p`, `10 ^ (p - 1)` and so on, `count` of them. -/
def search (i : Interval) : Nat → Int → Option Decimal
  | 0, _ => none
  | count + 1, p =>
    match i.onGrid? p with
    | some found => some found
    | none => i.search count (p - 1)

end Interval

def digitCount (n : Nat) : Nat := (Nat.toDigits 10 n).length

/-- The shortest decimal of the positive double `mantissa · 2 ^ exponent`.  Seventeen
digits always suffice; the first grid tried is coarser than the double, so that
twenty grids reach them. -/
def shortest (mantissa : Nat) (exponent : Int) : Decimal :=
  let i := Interval.ofParts mantissa exponent
  let start : Int := (digitCount i.value : Int) - digitCount i.denominator + 1
  (i.search 20 start).getD ⟨i.value / i.denominator, 0⟩

end StepScript.Number
