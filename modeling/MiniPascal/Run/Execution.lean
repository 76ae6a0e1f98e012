import MiniPascal.Run.Machine
import MiniPascal.Scope.Tree

/-! # Execution

Expressions are evaluated and statements executed on a machine. The first fault ends a run, and
what the machine has done up to that point stays. How a procedure's body is invoked is a parameter
here, so evaluation and execution recurse over the tree of a program alone. -/
set_option autoImplicit false
namespace MiniPascal

/-- Faults that no analysed program meets: the scopes and the program do not fit together. -/
inductive Mismatch where
  | procedureNotFound (name : String)
  | declarationMissing (name : String)
  | argumentCount (name : String) (got expected : Nat)
  | emptyStack
  | programFrameMissing
deriving DecidableEq

def Mismatch.message : Mismatch → String
  | .procedureNotFound name => "procedure '" ++ name ++ "' not found"
  | .declarationMissing name => "no declaration for procedure '" ++ name ++ "'"
  | .argumentCount name got expected =>
    "procedure '" ++ name ++ "' called with " ++ got.repr ++ " argument(s), expected "
      ++ expected.repr
  | .emptyStack => "empty call stack"
  | .programFrameMissing => "program frame missing at end of run"

inductive RuntimeError where
  | divisionByZero (position : Position)
  | uninitialized (name scope : String) (position : Position)
  | overflow (position : Position)
  | mismatch (reason : Mismatch)
deriving DecidableEq

def RuntimeError.message : RuntimeError → String
  | .divisionByZero position => position.shown ++ " Invalid division by zero"
  | .uninitialized name scope position =>
    position.shown ++ " Unknown value for variable '" ++ name ++ "' in scope '" ++ scope ++ "'"
  | .overflow position => position.shown ++ " Integer overflow"
  | .mismatch reason => "Internal interpreter error: " ++ reason.message

/-- How a run ends early: with a fault of the program, or because calls are nested deeper than was
allowed for. The second is no statement about the program. -/
inductive Halt where
  | fault (error : RuntimeError)
  | depthExceeded
deriving DecidableEq

def Halt.message : Halt → String
  | .fault error => error.message
  | .depthExceeded => "Calls are nested too deeply"

/-- Computations on a machine. What they did stays when they end early. -/
abbrev Execute (α : Type) :=
  EStateM Halt Machine α

namespace Execute

def fail {α : Type} (error : RuntimeError) : Execute α := fun machine =>
  .error (.fault error) machine

def note (event : Event) : Execute Unit := fun machine =>
  .ok () (machine.note event)

def innermost : Execute Frame := fun machine =>
  match machine.stack with
  | [] => .error (.fault (.mismatch .emptyStack)) machine
  | frame :: _ => .ok frame machine

def assign (name : String) (value : Number) : Execute Unit := fun machine =>
  match machine.stack with
  | [] => .error (.fault (.mismatch .emptyStack)) machine
  | frame :: rest => .ok () { machine with stack := frame.set name value :: rest }

def noteStatement (statement : Statement) : Execute Unit := fun machine =>
  .ok () (machine.note (.executing machine.stack statement))

/-- Computes with a frame of its own, which is taken off again however the computation ends. -/
def framed (frame : Frame) (body : Execute Unit) : Execute (Option Frame) := fun machine =>
  match body (machine.push frame) with
  | .ok _ machine => .ok machine.pop.1 machine.pop.2
  | .error halt machine => .error halt machine.pop.2

def arithmetic (position : Position) : Except ArithmeticFault Number → Execute Number
  | .ok value => pure value
  | .error .divisionByZero => fail (.divisionByZero position)
  | .error .overflow => fail (.overflow position)

end Execute

def UnaryOperator.apply : UnaryOperator → Number → Except ArithmeticFault Number
  | .plus, operand => .ok operand
  | .minus, operand => operand.negate

def BinaryOperator.apply : BinaryOperator → Number → Number → Except ArithmeticFault Number
  | .plus => Number.add
  | .minus => Number.subtract
  | .multiply => Number.multiply
  | .integerDivide => Number.integerDivide
  | .realDivide => Number.realDivide

open Execute

/-- The value of an expression in the innermost frame. Operands are evaluated from the left. -/
def Expr.evaluate : Expr → Execute Number
  | .number id value => do
    note (.evaluated id value)
    return value
  | .read source => do
    let frame ← innermost
    match frame.get? source.name with
    | none => fail (.uninitialized source.name frame.scope source.position)
    | some value =>
      note (.evaluated source.id value)
      return value
  | .unary id operator operand position => do
    let inner ← operand.evaluate
    let value ← arithmetic position (operator.apply inner)
    note (.evaluated id value)
    return value
  | .binary id operator left right position => do
    let first ← left.evaluate
    let second ← right.evaluate
    let value ← arithmetic position (operator.apply first second)
    note (.evaluated id value)
    return value

def Expr.evaluateAll : List Expr → Execute (List Number)
  | [] => return []
  | first :: rest => do
    let value ← first.evaluate
    let values ← Expr.evaluateAll rest
    return value :: values

mutual

/-- Executes a statement, where `call` executes the call of a procedure by name. -/
def Statement.execute (call : String → List Expr → Execute Unit) : Statement → Execute Unit
  | .compound id statements => do
    noteStatement (.compound id statements)
    Statement.executeAll call statements
  | .assignment id target value => do
    noteStatement (.assignment id target value)
    let result ← value.evaluate
    note (.assigned target.name result)
    assign target.name result
  | .call id name position arguments => do
    noteStatement (.call id name position arguments)
    call name arguments
  | .empty id => noteStatement (.empty id)

def Statement.executeAll (call : String → List Expr → Execute Unit) : List Statement → Execute Unit
  | [] => return ()
  | statement :: rest => do
    statement.execute call
    Statement.executeAll call rest

end

end MiniPascal
