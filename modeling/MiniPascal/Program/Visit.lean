import MiniPascal.Program.Tree

/-! # Walking a program

A walk over a program is the list of its visits. Programs, blocks, declarations and bracketed
statements are visited when they begin and when they end, and everything inside lies between the
two; every other node is visited once, and behind its operands. Declarations come before
statements. -/
set_option autoImplicit false
namespace MiniPascal

/-- One visit of a walk, with the node that is visited. -/
inductive Visit where
  | programStart (program : Program)
  | programEnd (program : Program)
  | blockStart (block : Block)
  | blockEnd (block : Block)
  | varDeclStart (decl : VarDecl)
  | varDeclEnd (decl : VarDecl)
  | procedureStart (procedure : Procedure)
  | procedureEnd (procedure : Procedure)
  | param (param : Param)
  | declared (name : Variable)
  | typeSpec (typeSpec : TypeSpec)
  | compoundStart (compound : Compound)
  | compoundEnd (compound : Compound)
  | assignment (id : NodeId) (target : Variable) (value : Expr)
  | call (id : NodeId) (name : String) (position : Position) (arguments : List Expr)
  | empty (id : NodeId)
  | binary (id : NodeId) (operator : BinaryOperator) (left right : Expr) (position : Position)
  | unary (id : NodeId) (operator : UnaryOperator) (operand : Expr) (position : Position)
  | used (name : Variable)
  | number (id : NodeId) (value : Number)

def Visit.id : Visit → NodeId
  | .programStart node | .programEnd node => node.id
  | .blockStart node | .blockEnd node => node.id
  | .varDeclStart node | .varDeclEnd node => node.id
  | .procedureStart node | .procedureEnd node => node.id
  | .compoundStart node | .compoundEnd node => node.id
  | .param node => node.id
  | .declared node | .used node => node.id
  | .typeSpec node => node.id
  | .assignment id .. | .call id .. | .empty id | .binary id .. | .unary id .. | .number id _ => id

/-- The visits of an expression: operands before their operator. -/
def Expr.visits : Expr → List Visit
  | .number id value => [.number id value]
  | .read source => [.used source]
  | .unary id operator operand position =>
    operand.visits ++ [.unary id operator operand position]
  | .binary id operator left right position =>
    left.visits ++ right.visits ++ [.binary id operator left right position]

mutual

/-- The visits of a statement. The target of an assignment comes before its value. -/
def Statement.visits : Statement → List Visit
  | .compound id statements =>
    .compoundStart ⟨id, statements⟩ :: Statement.visitsOf statements
      ++ [.compoundEnd ⟨id, statements⟩]
  | .assignment id target value => .used target :: value.visits ++ [.assignment id target value]
  | .call id name position arguments =>
    arguments.flatMap Expr.visits ++ [.call id name position arguments]
  | .empty id => [.empty id]

def Statement.visitsOf : List Statement → List Visit
  | [] => []
  | statement :: rest => statement.visits ++ Statement.visitsOf rest

end

def Compound.visits (compound : Compound) : List Visit :=
  .compoundStart compound :: Statement.visitsOf compound.statements ++ [.compoundEnd compound]

def VarDecl.visits (decl : VarDecl) : List Visit :=
  .varDeclStart decl :: decl.names.map Visit.declared
    ++ [.typeSpec decl.typeSpec, .varDeclEnd decl]

def Param.visits (param : Param) : List Visit :=
  [.param param, .declared param.declared, .typeSpec param.typeSpec]

mutual

/-- The visits of a block: variables, procedures, statements. -/
def Block.visits : Block → List Visit
  | ⟨id, declarations, procedures, body⟩ =>
    .blockStart ⟨id, declarations, procedures, body⟩ :: declarations.flatMap VarDecl.visits
      ++ Procedure.visitsOf procedures ++ body.visits
      ++ [.blockEnd ⟨id, declarations, procedures, body⟩]

/-- The visits of several procedures: each one's parameters and then its block. -/
def Procedure.visitsOf : List Procedure → List Visit
  | [] => []
  | ⟨id, name, position, params, block⟩ :: rest =>
    (.procedureStart ⟨id, name, position, params, block⟩ :: params.flatMap Param.visits
      ++ block.visits ++ [.procedureEnd ⟨id, name, position, params, block⟩])
      ++ Procedure.visitsOf rest

end

def Program.visits (program : Program) : List Visit :=
  .programStart program :: program.block.visits ++ [.programEnd program]

theorem Statement.mem_visitsOf {statements : List Statement} {visit : Visit} :
    visit ∈ Statement.visitsOf statements
      ↔ ∃ statement ∈ statements, visit ∈ statement.visits := by
  induction statements with
  | nil => simp [Statement.visitsOf]
  | cons statement rest ih => simp [Statement.visitsOf, ih]

end MiniPascal
