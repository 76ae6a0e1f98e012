import MiniPascal.Number.Basic
import MiniPascal.Source.Position

/-! # Program trees

The tree of a program. Every node carries a number of its own; positions are those of the names,
types and operators that a message may have to point at. -/
set_option autoImplicit false
namespace MiniPascal

/-- The number of a node within a session. Numbers count up without a bound: what is said about
nodes holds wherever 32 bits are enough for them, which is up to `2 ^ 32` nodes in a session. -/
abbrev NodeId := Nat

inductive BinaryOperator where
  | plus | minus | multiply | integerDivide | realDivide
deriving DecidableEq

def BinaryOperator.symbol : BinaryOperator → String
  | .plus => "+"
  | .minus => "-"
  | .multiply => "*"
  | .integerDivide => "DIV"
  | .realDivide => "/"

inductive UnaryOperator where
  | plus | minus
deriving DecidableEq

def UnaryOperator.symbol : UnaryOperator → String
  | .plus => "+"
  | .minus => "-"

structure Variable where
  id : NodeId
  name : String
  position : Position
deriving DecidableEq

structure TypeSpec where
  id : NodeId
  dataType : DataType
  position : Position
deriving DecidableEq

/-- Variables declared together with one type. -/
structure VarDecl where
  id : NodeId
  names : List Variable
  typeSpec : TypeSpec
deriving DecidableEq

/-- One parameter of a procedure; names that share a type become one parameter each. -/
structure Param where
  id : NodeId
  declared : Variable
  typeSpec : TypeSpec
deriving DecidableEq

/-- Expressions. Parentheses leave no node. -/
inductive Expr where
  | number (id : NodeId) (value : Number)
  | read (source : Variable)
  | unary (id : NodeId) (operator : UnaryOperator) (operand : Expr) (position : Position)
  | binary (id : NodeId) (operator : BinaryOperator) (left right : Expr) (position : Position)
deriving DecidableEq

def Expr.id : Expr → NodeId
  | .number id _ => id
  | .read source => source.id
  | .unary id _ _ _ => id
  | .binary id _ _ _ _ => id

/-- Statements. A call without arguments has no parentheses in the text of a program. -/
inductive Statement where
  | compound (id : NodeId) (statements : List Statement)
  | assignment (id : NodeId) (target : Variable) (value : Expr)
  | call (id : NodeId) (name : String) (position : Position) (arguments : List Expr)
  | empty (id : NodeId)

def Statement.id : Statement → NodeId
  | .compound id _ => id
  | .assignment id _ _ => id
  | .call id _ _ _ => id
  | .empty id => id

/-- Statements in brackets: the statement part of a block. -/
structure Compound where
  id : NodeId
  statements : List Statement

mutual

structure Block where
  id : NodeId
  declarations : List VarDecl
  procedures : List Procedure
  body : Compound

structure Procedure where
  id : NodeId
  name : String
  position : Position
  params : List Param
  block : Block

end

structure Program where
  id : NodeId
  name : String
  block : Block

end MiniPascal
