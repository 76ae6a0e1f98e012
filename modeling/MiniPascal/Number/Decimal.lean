import MiniPascal.Number.Binary64

/-! # Decimals

A decimal is a natural number of digits at a power of ten. A finite value of binary64 is
identified by the decimal with the fewest digits that reads back as that value; of two such
decimals on one grid the nearer is taken, and the upper one if the value lies in the middle.
Decimals are written out without an exponent. -/
set_option autoImplicit false
namespace MiniPascal

/-- The number `digits * 10 ^ exponent`. -/
structure Decimal where
  digits : Nat
  exponent : Int
deriving DecidableEq

namespace Decimal

/-- The nearest binary64 value; too large a decimal reads as infinity. -/
def toFloat (decimal : Decimal) : Float :=
  Float.ofScientific decimal.digits (decide (decimal.exponent < 0)) decimal.exponent.natAbs

def digitCount (n : Nat) : Nat :=
  (Nat.toDigits 10 n).length

/-- The least `k` such that the positive quotient lies below `10 ^ k`. -/
def scale (numerator denominator : Nat) : Int :=
  if denominator ≤ numerator then digitCount (numerator / denominator)
  else 1 - (digitCount ((denominator - 1) / numerator) : Int)

/-- Among the two multiples of `10 ^ exponent` around the quotient, the one that reads back as
`value`; of two such multiples the nearer one, or the upper one in the middle. -/
def onGrid? (value : Float) (numerator denominator : Nat) (exponent : Int) : Option Decimal :=
  let scaled := numerator * Nat.pow 10 (-exponent).toNat
  let unit := denominator * Nat.pow 10 exponent.toNat
  let lower : Decimal := ⟨scaled / unit, exponent⟩
  let upper : Decimal := ⟨scaled / unit + 1, exponent⟩
  if lower.toFloat = value then
    if upper.toFloat = value ∧ (2 * lower.digits + 1) * unit ≤ 2 * scaled then some upper
    else some lower
  else if upper.toFloat = value then some upper
  else none

/-- The exact value of `mantissa * 2 ^ exponent` as a decimal. -/
def exact (mantissa : Nat) (exponent : Int) : Decimal :=
  if 0 ≤ exponent then ⟨mantissa * Nat.pow 2 exponent.toNat, 0⟩
  else ⟨mantissa * Nat.pow 5 (-exponent).toNat, exponent⟩

/-- The decimal with the fewest digits that reads back as the positive value
`mantissa * 2 ^ exponent`. Grids are tried from the coarsest on, and seventeen digits are always
enough; the exact value stands behind them so that nothing has to be assumed about that. -/
def shortest (value : Float) (mantissa : Nat) (exponent : Int) : Decimal :=
  let (numerator, denominator) := Binary64.quotient mantissa exponent
  let top := scale numerator denominator
  let found := (List.range 18).findSome? fun (digits : Nat) =>
    onGrid? value numerator denominator (top - digits)
  found.getD (Decimal.exact mantissa exponent)

def zeros (n : Nat) : String :=
  String.ofList (List.replicate n '0')

/-- A decimal written out without an exponent. -/
def positional (decimal : Decimal) : String :=
  let text := Nat.toDigits 10 decimal.digits
  if 0 ≤ decimal.exponent then String.ofList text ++ zeros decimal.exponent.toNat
  else
    let places := decimal.exponent.natAbs
    if places < text.length then
      String.ofList (text.take (text.length - places)) ++ "."
        ++ String.ofList (text.drop (text.length - places))
    else "0." ++ zeros (places - text.length) ++ String.ofList text

end Decimal

namespace Binary64

open Float.Model (UnpackedFloat)

def signText : UnpackedFloat.Sign → String
  | .positive => ""
  | .negative => "-"

/-- From this magnitude on an integral value is written like any other value. -/
def integralLimit : Nat :=
  1000000000000000

/-- A positive value as text: an integral value below the limit with one decimal, every other value
with the fewest digits that read back. -/
def magnitudeText (value : Float) (mantissa : Nat) (exponent : Int) : String :=
  let (numerator, denominator) := quotient mantissa exponent
  if numerator % denominator = 0 ∧ numerator / denominator < integralLimit then
    (numerator / denominator).repr ++ ".0"
  else (Decimal.shortest value mantissa exponent).positional

def shown (value : Float) : String :=
  match value.toModel.unpack with
  | .notANumber => "NaN"
  | .infinity sign => signText sign ++ "inf"
  | .zero sign => signText sign ++ "0.0"
  | .finite sign mantissa exponent _ => signText sign ++ magnitudeText value.abs mantissa exponent

end Binary64
end MiniPascal
