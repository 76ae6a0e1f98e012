import MiniPascal.Number.Basic

/-! # Number literals

What the digits of a literal stand for. An integer literal has to fit into 64 bits with a sign; a
real literal stands for the nearest real, which is infinity if the literal is too large. -/
set_option autoImplicit false
namespace MiniPascal.Number

def digitsValue (digits : List Char) : Nat :=
  digits.foldl (fun value digit => 10 * value + (digit.toNat - '0'.toNat)) 0

/-- The number an integer literal stands for, if it is small enough. -/
def ofIntegerLiteral? (text : String) : Option Number :=
  match ofExact (digitsValue text.toList) with
  | .ok number => some number
  | .error _ => none

/-- The number a real literal stands for: digits, a dot, digits. -/
def ofRealLiteral (text : String) : Number :=
  let whole := text.toList.takeWhile (· != '.')
  let fraction := (text.toList.dropWhile (· != '.')).tail
  .real (Decimal.toFloat ⟨digitsValue (whole ++ fraction), -(fraction.length : Int)⟩)

end MiniPascal.Number
