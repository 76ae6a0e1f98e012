/-! # Binary64 values taken apart

Reals are binary64 values. This module takes them apart exactly, as a mantissa and a power of
two: whether a value is integral, and its integral part toward zero. -/
set_option autoImplicit false
namespace MiniPascal.Binary64

open Float.Model (UnpackedFloat)

/-- The magnitude `mantissa * 2 ^ exponent` as a quotient of two naturals. -/
def quotient (mantissa : Nat) (exponent : Int) : Nat × Nat :=
  (mantissa * Nat.pow 2 exponent.toNat, Nat.pow 2 (-exponent).toNat)

/-- The value of the given magnitude, negative if asked for. Zero keeps its sign too. -/
def signed (sign : UnpackedFloat.Sign) (magnitude : Float) : Float :=
  match sign with
  | .positive => magnitude
  | .negative => magnitude.neg

/-- The integral part, rounded toward zero. What has no fraction stays as it is, and a value
between zero and one in magnitude becomes the zero of its sign. -/
def trunc (value : Float) : Float :=
  match value.toModel.unpack with
  | .finite sign mantissa exponent _ =>
    if 0 ≤ exponent then value
    else signed sign (Float.ofNat (mantissa / Nat.pow 2 (-exponent).toNat))
  | _ => value

end MiniPascal.Binary64
