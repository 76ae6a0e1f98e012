import MiniPascal.Program.Tree

/-! # Statements as text

Expressions and statements are written back as program text. Every operator is put in
parentheses together with its operands, so the text shows the tree without any rule of
precedence. -/
set_option autoImplicit false
namespace MiniPascal

def Expr.shown : Expr → String
  | .number _ value => value.shown
  | .read source => source.name
  | .unary _ operator operand _ => "(" ++ operator.symbol ++ operand.shown ++ ")"
  | .binary _ operator left right _ =>
    "(" ++ left.shown ++ " " ++ operator.symbol ++ " " ++ right.shown ++ ")"

mutual

def Statement.shown : Statement → String
  | .compound _ statements => "BEGIN " ++ "; ".intercalate (Statement.texts statements) ++ " END"
  | .assignment _ target value => target.name ++ " := " ++ value.shown
  | .call _ name _ arguments => name ++ "(" ++ ", ".intercalate (arguments.map Expr.shown) ++ ")"
  | .empty _ => ""

def Statement.texts : List Statement → List String
  | [] => []
  | statement :: rest => statement.shown :: Statement.texts rest

end

mutual

/-- The statement parts of a block under the given name: those of its procedures in source order,
each behind its own nested ones, and last the block's own, every top-level statement as text. -/
def Block.renderings (name : String) : Block → List (String × List String)
  | ⟨_, _, procedures, body⟩ =>
    Procedure.renderings procedures ++ [(name, Statement.texts body.statements)]

def Procedure.renderings : List Procedure → List (String × List String)
  | [] => []
  | ⟨_, name, _, _, block⟩ :: rest => block.renderings name ++ Procedure.renderings rest

end

/-- Every statement part of a program as text, the program's own last. -/
def Program.renderings (program : Program) : List (String × List String) :=
  program.block.renderings program.name

end MiniPascal
