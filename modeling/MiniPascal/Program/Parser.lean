import MiniPascal.Number.Literal
import MiniPascal.Program.Session

/-! # The parser

Recursive descent with one token of look-ahead, and two for statements that begin with a name:

    program    is  PROGRAM name ; block .
    block      is  [VAR (variables ;)+] (PROCEDURE name [( groups )] ; block ;)* compound
    groups     is  variables (; variables)*
    variables  is  name (, name)* : type
    type       is  INTEGER or REAL
    compound   is  BEGIN statement (; statement)* END
    statement  is  compound, or name ( expression (, expression)* ), or name := expression, or nothing
    expression is  term ((+ or -) term)*
    term       is  factor ((* or DIV or /) factor)*
    factor     is  (+ or -) factor, or a literal, or ( expression ), or name

A name alone is a statement only if it is the name of a procedure whose header has been read, and
is then a call without arguments. The first error ends the descent.

Every parser that calls itself is bounded by a number of tokens. With as many as can still be met
the bound decides nothing: at bound zero the text has ended, and the answer is the one at its
end. -/
set_option autoImplicit false
namespace MiniPascal.Parser

open Session

/-- What follows the first of several items: a separator and an item as long as there is one. -/
def following {α : Type} (item : Parse α) (separator : TokenKind) : Nat → Parse (List α)
  | 0 => return []
  | bound + 1 => do
    if ← accept separator then
      let first ← item
      let rest ← following item separator bound
      return first :: rest
    else return []

/-- One or more items with a separator between them. -/
def separated {α : Type} (item : Parse α) (separator : TokenKind) (bound : Nat) :
    Parse (List α) := do
  let first ← item
  let rest ← following item separator bound
  return first :: rest

def variableName : Parse Variable := do
  let name ← expect .identifier
  let id ← freshId
  return ⟨id, name.text, name.start⟩

/-! ## Expressions -/

def adding : TokenKind → Option BinaryOperator
  | .plus => some .plus
  | .minus => some .minus
  | _ => none

def multiplying : TokenKind → Option BinaryOperator
  | .multiply => some .multiply
  | .integerDivide => some .integerDivide
  | .realDivide => some .realDivide
  | _ => none

/-- Operators and operands to the right of an expression, grouped to the left. -/
def chain (operator? : TokenKind → Option BinaryOperator) (operand : Parse Expr) :
    Nat → Expr → Parse Expr
  | 0, left => return left
  | bound + 1, left => do
    let token ← currentToken
    match operator? token.kind with
    | none => return left
    | some operator =>
      consume
      let right ← operand
      let id ← freshId
      chain operator? operand bound (.binary id operator left right token.start)

def term (factor : Parse Expr) (bound : Nat) : Parse Expr := do
  let first ← factor
  chain multiplying factor bound first

def sum (factor : Parse Expr) (bound : Nat) : Parse Expr := do
  let first ← term factor bound
  chain adding (term factor bound) bound first

def signed (operator : UnaryOperator) (operand : Parse Expr) : Parse Expr := do
  let token ← currentToken
  consume
  let inner ← operand
  let id ← freshId
  return .unary id operator inner token.start

/-- An integer literal. It is refused only after the parser has moved behind it. -/
def integerLiteral : Parse Expr := do
  let literal ← expect .integerConst
  match Number.ofIntegerLiteral? literal.text with
  | some value => return .number (← freshId) value
  | none => throw (.invalidLiteral literal)

def realLiteral : Parse Expr := do
  let literal ← expect .realConst
  return .number (← freshId) (Number.ofRealLiteral literal.text)

def factor : Nat → Parse Expr
  | 0 => refuse .expression
  | bound + 1 => do
    let token ← currentToken
    match token.kind with
    | .plus => signed .plus (factor bound)
    | .minus => signed .minus (factor bound)
    | .integerConst => integerLiteral
    | .realConst => realLiteral
    | .parenthesisLeft =>
      consume
      let inner ← sum (factor bound) bound
      let _ ← expect .parenthesisRight
      return inner
    | .identifier => return .read (← variableName)
    | _ => refuse .expression

def expression (bound : Nat) : Parse Expr :=
  sum (factor bound) bound

/-! ## Statements -/

def emptyStatement : Parse Statement := do
  return .empty (← freshId)

def callWithArguments (bound : Nat) : Parse Statement := do
  let name ← expect .identifier
  let _ ← expect .parenthesisLeft
  let arguments ← separated (expression bound) .comma bound
  let _ ← expect .parenthesisRight
  return .call (← freshId) name.text name.start arguments

def bareCall : Parse Statement := do
  let name ← expect .identifier
  return .call (← freshId) name.text name.start []

def assignment (bound : Nat) : Parse Statement := do
  let target ← variableName
  let _ ← expect .assign
  let value ← expression bound
  return .assignment (← freshId) target value

def compoundOf (statement : Parse Statement) (bound : Nat) : Parse Compound := do
  let _ ← expect .begin
  let statements ← separated statement .semicolon bound
  let _ ← expect .finish
  return ⟨← freshId, statements⟩

/-- A statement that begins with a name. What follows the name decides; without an assignment sign
the name has to be a known procedure's to stand alone. -/
def named (bound : Nat) : Parse Statement := do
  if ← isNext .parenthesisLeft then callWithArguments bound
  else if ← isNext .assign then assignment bound
  else if ← knows (← currentToken).text then bareCall
  else assignment bound

def statement : Nat → Parse Statement
  | 0 => emptyStatement
  | bound + 1 => do
    let token ← currentToken
    match token.kind with
    | .begin =>
      let body ← compoundOf (statement bound) bound
      return .compound body.id body.statements
    | .identifier => named bound
    | _ => emptyStatement

/-! ## Declarations -/

def dataType : Parse (DataType × Position) := do
  let token ← currentToken
  match token.kind with
  | .integer =>
    consume
    return (.integer, token.start)
  | .real =>
    consume
    return (.real, token.start)
  | _ => refuse .dataType

def varDecl (bound : Nat) : Parse VarDecl := do
  let names ← separated variableName .comma bound
  let _ ← expect .colon
  let (dataType, position) ← dataType
  let typeSpec : TypeSpec := ⟨← freshId, dataType, position⟩
  return ⟨← freshId, names, typeSpec⟩

/-- Declarations of variables, each with its semicolon, as long as another name follows. -/
def varDecls : Nat → Parse (List VarDecl)
  | 0 => refuse (.token .identifier)
  | bound + 1 => do
    let first ← varDecl bound
    let _ ← expect .semicolon
    if ← isAt .identifier then
      let rest ← varDecls bound
      return first :: rest
    else return [first]

/-- The parameters of the given names: each has a type of its own. -/
def paramsOf (dataType : DataType) (position : Position) : List Variable → Parse (List Param)
  | [] => return []
  | declared :: rest => do
    let typeSpec : TypeSpec := ⟨← freshId, dataType, position⟩
    let param : Param := ⟨← freshId, declared, typeSpec⟩
    let others ← paramsOf dataType position rest
    return param :: others

def paramGroup (bound : Nat) : Parse (List Param) := do
  let names ← separated variableName .comma bound
  let _ ← expect .colon
  let (dataType, position) ← dataType
  paramsOf dataType position names

def params (bound : Nat) : Parse (List Param) := do
  if ← accept .parenthesisLeft then
    let groups ← separated (paramGroup bound) .semicolon bound
    let _ ← expect .parenthesisRight
    return groups.flatten
  else return []

/-- A procedure behind its keyword. Its name is known from its header on, so its own block may
already call it. -/
def procedureOf (block : Parse Block) (bound : Nat) : Parse Procedure := do
  let name ← expect .identifier
  learn name.text
  let params ← params bound
  let _ ← expect .semicolon
  let block ← block
  let _ ← expect .semicolon
  return ⟨← freshId, name.text, name.start, params, block⟩

/-- Procedures as long as their keyword stands in front. -/
def proceduresOf (block : Parse Block) (size : Nat) : Nat → Parse (List Procedure)
  | 0 => return []
  | bound + 1 => do
    if ← accept .procedure then
      let first ← procedureOf block size
      let rest ← proceduresOf block size bound
      return first :: rest
    else return []

def block : Nat → Parse Block
  | 0 => refuse (.token .begin)
  | bound + 1 => do
    let declarations ← if ← accept .var then varDecls bound else pure []
    let procedures ← proceduresOf (block bound) bound (bound + 1)
    let body ← compoundOf (statement bound) bound
    return ⟨← freshId, declarations, procedures, body⟩

/-! ## Programs -/

/-- A program. Its last dot is looked at and left in place. -/
def program (bound : Nat) : Parse Program := do
  let _ ← expect .program
  let name ← expect .identifier
  let _ ← expect .semicolon
  let block ← block bound
  if ← isAt .dot then return ⟨← freshId, name.text, block⟩
  else refuse (.token .dot)

def parse : Parse Program := do
  consume
  program (← get).bound

/-- Moves behind the dot of a program and fails unless the text ends there. -/
def expectEnd : Parse Unit := do
  consume
  if ← isAt .endOfFile then return ()
  else refuse (.token .endOfFile)

end MiniPascal.Parser
