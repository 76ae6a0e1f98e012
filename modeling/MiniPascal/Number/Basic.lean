import MiniPascal.Number.Decimal

/-! # Numbers

A number is a 64-bit integer or a binary64 real. An operation on two integers stays an integer and
is exact, or it is refused; one real operand makes the result real. -/
set_option autoImplicit false
namespace MiniPascal

inductive DataType where
  | integer
  | real
deriving DecidableEq

/-- Every type, in the order in which scopes register them. -/
def DataType.all : List DataType :=
  [.integer, .real]

def DataType.name : DataType → String
  | .integer => "INTEGER"
  | .real => "REAL"

inductive Number where
  | integer (value : Int64)
  | real (value : Float)
deriving DecidableEq

inductive ArithmeticFault where
  | divisionByZero
  | overflow
deriving DecidableEq

namespace Number

def dataType : Number → DataType
  | .integer _ => .integer
  | .real _ => .real

/-- The value as a real: the nearest one to a large integer. -/
def toReal : Number → Float
  | .integer value => Float.ofInt value.toInt
  | .real value => value

/-- Whether a value may not divide: the integer zero and the real zeros of both signs. -/
def isZero : Number → Bool
  | .integer value => value == 0
  | .real value => Float.beq value 0.0

/-- Equality of numbers of one type. Numbers of different types are never equal, and a real that
is no number is not equal to itself. -/
def equals : Number → Number → Bool
  | .integer left, .integer right => left == right
  | .real left, .real right => Float.beq left right
  | _, _ => false

def least : Int :=
  -9223372036854775808

def greatest : Int :=
  9223372036854775807

/-- The integer, if it fits into 64 bits with a sign. -/
def ofExact (value : Int) : Except ArithmeticFault Number :=
  if least ≤ value ∧ value ≤ greatest then .ok (.integer (Int64.ofInt value))
  else .error .overflow

/-- Applies the exact operation to two integers, and the real one if an operand is real. -/
def combine (exact : Int → Int → Int) (rounded : Float → Float → Float) :
    Number → Number → Except ArithmeticFault Number
  | .integer left, .integer right => ofExact (exact left.toInt right.toInt)
  | left, right => .ok (.real (rounded left.toReal right.toReal))

def add : Number → Number → Except ArithmeticFault Number :=
  combine (fun left right => left + right) Float.add

def subtract : Number → Number → Except ArithmeticFault Number :=
  combine (fun left right => left - right) Float.sub

def multiply : Number → Number → Except ArithmeticFault Number :=
  combine (fun left right => left * right) Float.mul

/-- Division without a fraction, toward zero. A real operand keeps the result real. -/
def integerDivide (left right : Number) : Except ArithmeticFault Number :=
  if right.isZero then .error .divisionByZero
  else combine Int.tdiv (fun a b => Binary64.trunc (Float.div a b)) left right

/-- Division with a fraction: always real. -/
def realDivide (left right : Number) : Except ArithmeticFault Number :=
  if right.isZero then .error .divisionByZero
  else .ok (.real (Float.div left.toReal right.toReal))

/-- The number with the other sign; the least integer has none. -/
def negate : Number → Except ArithmeticFault Number
  | .integer value => ofExact (-value.toInt)
  | .real value => .ok (.real value.neg)

def shown : Number → String
  | .integer value => value.toInt.repr
  | .real value => Binary64.shown value

def described (number : Number) : String :=
  number.shown ++ ": " ++ number.dataType.name

end Number
end MiniPascal
