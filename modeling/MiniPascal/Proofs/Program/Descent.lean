import Mathlib.Logic.Basic
import MiniPascal.Proofs.Program.Lockstep

/-! # The descent without bounds

The grammar's functions as they are meant: nothing is counted, and every function that comes back to
itself and every loop goes on through a table of them. `Rules.unfold` is one pass through each of
them. A pass uses the table only behind a token that the pass itself has taken, so what it does in a
session is decided by what the table does in later ones. -/
set_option autoImplicit false
namespace MiniPascal.Parser

open Session
open Parse (Twins Strides Behind)

variable {α : Type} {start : Session}

/-! ## One pass through each function

What a function does where the functions and loops that it comes back to are given. -/

/-- The items behind a separator, or behind a keyword that each of them begins with: at most one of
them, and what `more` makes of the others. -/
def followingBy (item : Parse α) (separator : TokenKind) (more : Parse (List α)) :
    Parse (List α) := do
  if ← accept separator then
    let first ← item
    let rest ← more
    return first :: rest
  else return []

theorem twins_followingBy {item item' : Parse α} {separator : TokenKind}
    {more more' : Parse (List α)} (inside : separator ≠ .endOfFile)
    (items : Behind start item item') (mores : Behind start more more') :
    Twins start (followingBy item separator more) (followingBy item' separator more') :=
  .accept inside (items.bind fun _ => mores.bind fun _ => .of_all (.pure _)) (.pure _ _)

/-- The first item and the others. -/
def separatedBy (item : Parse α) (more : Parse (List α)) : Parse (List α) := do
  let first ← item
  let rest ← more
  return first :: rest

theorem behind_separatedBy {item item' : Parse α} {more more' : Parse (List α)}
    (items : Behind start item item') (mores : Behind start more more') :
    Behind start (separatedBy item more) (separatedBy item' more') :=
  items.bind fun _ => mores.bind fun _ => .of_all (.pure _)

theorem strides_variableName : Strides start variableName variableName :=
  (Strides.expect (by decide)).bind fun _ => .node _

/-! ### Expressions -/

/-- The next operator with its operand, and what `more` makes of the others. -/
def chainBy (operator? : TokenKind → Option BinaryOperator) (operand : Parse Expr)
    (more : Expr → Parse Expr) (left : Expr) : Parse Expr := do
  let token ← currentToken
  match operator? token.kind with
  | none => return left
  | some operator =>
    consume
    let right ← operand
    let id ← freshId
    more (.binary id operator left right token.start)

theorem twins_chainBy {operator? : TokenKind → Option BinaryOperator}
    {operand operand' : Parse Expr} {more more' : Expr → Parse Expr}
    (ended : operator? .endOfFile = none) (operands : Behind start operand operand')
    (mores : ∀ left, Behind start (more left) (more' left)) (left : Expr) :
    Twins start (chainBy operator? operand more left) (chainBy operator? operand' more' left) := by
  apply Twins.currentToken
  cases found : operator? start.current.kind with
  | none => exact .pure _ _
  | some operator =>
      have inside : start.current.kind ≠ .endOfFile := by
        intro last
        rw [last, ended] at found
        cases found
      exact ((Strides.consume inside).bind fun _ => operands.bind fun right =>
        (Behind.of_all .freshId).bind fun id => mores _).toTwins

theorem twins_signed {operand operand' : Parse Expr} (inside : start.current.kind ≠ .endOfFile)
    (operands : Behind start operand operand') (operator : UnaryOperator) :
    Twins start (signed operator operand) (signed operator operand') :=
  .currentToken
    ((Strides.consume inside).bind fun _ => operands.bind fun _ => .node _).toTwins

theorem twins_integerLiteral : Twins start integerLiteral integerLiteral := by
  refine ((Strides.expect (by decide)).bind fun literal => ?_).toTwins
  cases Number.ofIntegerLiteral? literal.text with
  | some value => exact .node _
  | none => exact .of_all (.throw _)

theorem twins_realLiteral : Twins start realLiteral realLiteral :=
  ((Strides.expect (by decide)).bind fun _ => .node _).toTwins

def factorBy (factor sum : Parse Expr) : Parse Expr := do
  let token ← currentToken
  match token.kind with
  | .plus => signed .plus factor
  | .minus => signed .minus factor
  | .integerConst => integerLiteral
  | .realConst => realLiteral
  | .parenthesisLeft =>
    consume
    let inner ← sum
    let _ ← expect .parenthesisRight
    return inner
  | .identifier => return .read (← variableName)
  | _ => refuse .expression

theorem twins_factorBy {factor factor' sum sum' : Parse Expr}
    (factors : Behind start factor factor') (sums : Behind start sum sum') :
    Twins start (factorBy factor sum) (factorBy factor' sum') := by
  apply Twins.currentToken
  split
  · exact twins_signed (Eq.trans_ne ‹_› (by decide)) factors .plus
  · exact twins_signed (Eq.trans_ne ‹_› (by decide)) factors .minus
  · exact twins_integerLiteral
  · exact twins_realLiteral
  · exact ((Strides.consume (Eq.trans_ne ‹_› (by decide))).bind fun _ => sums.bind fun _ =>
      (Behind.expect (by decide)).bind fun _ => .of_all (.pure _)).toTwins
  · exact (strides_variableName.bind fun _ => .of_all (.pure _)).toTwins
  · exact .refuse _ _

/-! ### Statements -/

theorem twins_emptyStatement : Twins start emptyStatement emptyStatement :=
  (Twins.freshId start).then_all fun _ => .pure _

theorem twins_bareCall : Twins start bareCall bareCall :=
  ((Strides.expect (by decide)).bind fun _ => .node _).toTwins

def callBy (arguments : Parse (List Expr)) : Parse Statement := do
  let name ← expect .identifier
  let _ ← expect .parenthesisLeft
  let arguments ← arguments
  let _ ← expect .parenthesisRight
  return .call (← freshId) name.text name.start arguments

theorem twins_callBy {arguments arguments' : Parse (List Expr)}
    (same : Behind start arguments arguments') :
    Twins start (callBy arguments) (callBy arguments') :=
  ((Strides.expect (by decide)).bind fun _ => (Behind.expect (by decide)).bind fun _ =>
    same.bind fun _ => (Behind.expect (by decide)).bind fun _ => .node _).toTwins

def assignmentBy (value : Parse Expr) : Parse Statement := do
  let target ← variableName
  let _ ← expect .assign
  let value ← value
  return .assignment (← freshId) target value

theorem twins_assignmentBy {value value' : Parse Expr} (same : Behind start value value') :
    Twins start (assignmentBy value) (assignmentBy value') :=
  (strides_variableName.bind fun _ => (Behind.expect (by decide)).bind fun _ =>
    same.bind fun _ => .node _).toTwins

/-- A statement that begins with a name. -/
def namedBy (call assignment : Parse Statement) : Parse Statement := do
  if ← isNext .parenthesisLeft then call
  else if ← isNext .assign then assignment
  else if ← knows (← currentToken).text then bareCall
  else assignment

theorem current_of_isNext {kind : TokenKind} {found : Bool} {session after : Session}
    (done : isNext kind session = .ok found after) : after.current = session.current := by
  rw [isNext] at done
  split at done
  · cases done
    rfl
  · split at done
    · cases done
      rfl
    · cases done

theorem twins_namedBy {call call' assignment assignment' : Parse Statement}
    (inside : start.current.kind ≠ .endOfFile)
    (calls : ∀ session, start.Goes session → Twins session call call')
    (assignments : ∀ session, start.Goes session → Twins session assignment assignment') :
    Twins start (namedBy call assignment) (namedBy call' assignment') := by
  apply (Twins.isNext _ inside).bind
  intro opens first done goes
  cases opens with
  | true => exact calls first goes
  | false =>
      rw [← current_of_isNext done] at inside
      apply (Twins.isNext _ inside).bind
      intro assigns second _ further
      have onward := goes.trans further
      cases assigns with
      | true => exact assignments second onward
      | false =>
          apply Twins.currentToken
          apply (Twins.knows _ _).bind
          intro known third _ last
          cases known with
          | true => exact twins_bareCall
          | false => exact assignments third (onward.trans last)

def compoundBy (statements : Parse (List Statement)) : Parse Compound := do
  let _ ← expect .begin
  let statements ← statements
  let _ ← expect .finish
  return ⟨← freshId, statements⟩

theorem twins_compoundBy {statements statements' : Parse (List Statement)}
    (same : Behind start statements statements') :
    Twins start (compoundBy statements) (compoundBy statements') :=
  ((Strides.expect (by decide)).bind fun _ => same.bind fun _ =>
    (Behind.expect (by decide)).bind fun _ => .node _).toTwins

def statementBy (compound : Parse Compound) (named : Parse Statement) : Parse Statement := do
  let token ← currentToken
  match token.kind with
  | .begin =>
    let body ← compound
    return .compound body.id body.statements
  | .identifier => named
  | _ => emptyStatement

theorem twins_statementBy {compound compound' : Parse Compound} {named named' : Parse Statement}
    (compounds : Twins start compound compound')
    (names : start.current.kind ≠ .endOfFile → Twins start named named') :
    Twins start (statementBy compound named) (statementBy compound' named') := by
  apply Twins.currentToken
  split
  · exact compounds.then_all fun _ => .pure _
  · exact names (Eq.trans_ne ‹_› (by decide))
  · exact twins_emptyStatement

/-! ### Declarations -/

theorem twins_dataType : Twins start dataType dataType := by
  apply Twins.currentToken
  split
  · exact ((Strides.consume (Eq.trans_ne ‹_› (by decide))).bind fun _ => .of_all (.pure _)).toTwins
  · exact ((Strides.consume (Eq.trans_ne ‹_› (by decide))).bind fun _ => .of_all (.pure _)).toTwins
  · exact .refuse _ _

def varDeclBy (names : Parse (List Variable)) : Parse VarDecl := do
  let names ← names
  let _ ← expect .colon
  let (dataType, position) ← dataType
  let typeSpec : TypeSpec := ⟨← freshId, dataType, position⟩
  return ⟨← freshId, names, typeSpec⟩

theorem strides_varDeclBy {names names' : Parse (List Variable)}
    (strides : Strides start names names') :
    Strides start (varDeclBy names) (varDeclBy names') :=
  strides.bind fun _ => (Behind.expect (by decide)).bind fun _ =>
    (Behind.of_all fun _ => twins_dataType).bind fun _ => (Behind.of_all .freshId).bind fun _ =>
      .node _

/-- Declarations of variables, the first one and what `more` makes of the others. -/
def varDeclsBy (declaration : Parse VarDecl) (more : Parse (List VarDecl)) :
    Parse (List VarDecl) := do
  let first ← declaration
  let _ ← expect .semicolon
  if ← isAt .identifier then
    let rest ← more
    return first :: rest
  else return [first]

theorem strides_varDeclsBy {declaration declaration' : Parse VarDecl}
    {more more' : Parse (List VarDecl)} (strides : Strides start declaration declaration')
    (mores : Behind start more more') :
    Strides start (varDeclsBy declaration more) (varDeclsBy declaration' more') := by
  apply strides.bind
  intro first
  apply (Behind.expect (by decide)).bind
  intro _
  apply (Behind.of_all (.isAt _)).bind
  intro found
  cases found with
  | true => exact mores.bind fun _ => .of_all (.pure _)
  | false => exact .of_all (.pure _)

theorem twins_paramsOf (dataType : DataType) (position : Position) (names : List Variable) :
    ∀ session, Twins session (paramsOf dataType position names)
      (paramsOf dataType position names) := by
  induction names with
  | nil => exact .pure _
  | cons name rest ih =>
      intro session
      apply (Twins.freshId session).then_all
      intro typeId session
      apply (Twins.freshId session).then_all
      exact fun id session => (ih session).then_all fun _ => .pure _

def paramGroupBy (names : Parse (List Variable)) : Parse (List Param) := do
  let names ← names
  let _ ← expect .colon
  let (dataType, position) ← dataType
  paramsOf dataType position names

theorem strides_paramGroupBy {names names' : Parse (List Variable)}
    (strides : Strides start names names') :
    Strides start (paramGroupBy names) (paramGroupBy names') :=
  strides.bind fun _ => (Behind.expect (by decide)).bind fun _ =>
    (Behind.of_all fun _ => twins_dataType).bind fun _ => .of_all (twins_paramsOf _ _ _)

/-- The parameters of a procedure, if it has any. -/
def paramsBy (groups : Parse (List (List Param))) : Parse (List Param) := do
  if ← accept .parenthesisLeft then
    let groups ← groups
    let _ ← expect .parenthesisRight
    return groups.flatten
  else return []

theorem behind_paramsBy {groups groups' : Parse (List (List Param))}
    (same : Behind start groups groups') : Behind start (paramsBy groups) (paramsBy groups') :=
  .accept (by decide)
    (same.bind fun _ => (Behind.expect (by decide)).bind fun _ => .of_all (.pure _))
    (.of_all (.pure _))

def procedureBy (params : Parse (List Param)) (block : Parse Block) : Parse Procedure := do
  let name ← expect .identifier
  learn name.text
  let params ← params
  let _ ← expect .semicolon
  let block ← block
  let _ ← expect .semicolon
  return ⟨← freshId, name.text, name.start, params, block⟩

theorem strides_procedureBy {params params' : Parse (List Param)} {block block' : Parse Block}
    (heads : Behind start params params') (blocks : Behind start block block') :
    Strides start (procedureBy params block) (procedureBy params' block') :=
  (Strides.expect (by decide)).bind fun _ => (Behind.of_all (.learn _)).bind fun _ =>
    heads.bind fun _ => (Behind.expect (by decide)).bind fun _ => blocks.bind fun _ =>
      (Behind.expect (by decide)).bind fun _ => .node _

def blockBy (declarations : Parse (List VarDecl)) (procedures : Parse (List Procedure))
    (compound : Parse Compound) : Parse Block := do
  let declarations ← if ← accept .var then declarations else pure []
  let procedures ← procedures
  let body ← compound
  return ⟨← freshId, declarations, procedures, body⟩

theorem twins_blockBy {declarations declarations' : Parse (List VarDecl)}
    {procedures procedures' : Parse (List Procedure)} {compound compound' : Parse Compound}
    (declared : Behind start declarations declarations')
    (nested : ∀ session, start.Goes session → Twins session procedures procedures')
    (bodies : ∀ session, start.Goes session → Twins session compound compound') :
    Twins start (blockBy declarations procedures compound)
      (blockBy declarations' procedures' compound') := by
  -- The procedures and the body come behind the declarations or at once.
  have rest : ∀ (declared : List VarDecl) (session : Session), start.Goes session →
      Twins session
        (do
          let procedures ← procedures
          let body ← compound
          return Block.mk (← freshId) declared procedures body)
        (do
          let procedures ← procedures'
          let body ← compound'
          return Block.mk (← freshId) declared procedures body) :=
    fun declared session goes => (nested session goes).bind fun _ after _ further =>
      (bodies after (goes.trans further)).then_all fun _ session =>
        (Twins.freshId session).then_all fun _ => .pure _
  apply Twins.accept (by decide)
  · exact declared.bind fun _ session goes _ => rest _ session goes
  · exact (Twins.pure _ start).bind fun _ session _ goes => rest _ session goes

def programBy (block : Parse Block) : Parse Program := do
  let _ ← expect .program
  let name ← expect .identifier
  let _ ← expect .semicolon
  let block ← block
  if ← isAt .dot then return ⟨← freshId, name.text, block⟩
  else refuse (.token .dot)

theorem strides_programBy {block block' : Parse Block} (blocks : Behind start block block') :
    Strides start (programBy block) (programBy block') := by
  apply (Strides.expect (by decide)).bind
  intro _
  apply (Behind.expect (by decide)).bind
  intro name
  apply (Behind.expect (by decide)).bind
  intro _
  apply blocks.bind
  intro block
  apply (Behind.of_all (.isAt _)).bind
  intro found
  cases found with
  | true => exact .node _
  | false => exact .of_all (.refuse _)

/-! ## The table -/

/-- The functions that come back to themselves and the loops. A loop stands for what follows its
first item, or for all of it where it begins with a keyword or comes right behind one. -/
inductive Rule where
  | factor
  | products (left : Expr)
  | sums (left : Expr)
  | arguments
  | statement
  | statements
  | names
  | declarations
  | groups
  | procedures
  | block

/-- What is read by a rule. -/
abbrev Rule.Result : Rule → Type
  | .factor | .products _ | .sums _ => Expr
  | .arguments => List Expr
  | .statement => Statement
  | .statements => List Statement
  | .names => List Variable
  | .declarations => List VarDecl
  | .groups => List (List Param)
  | .procedures => List Procedure
  | .block => Block

/-- A parser for each of them. -/
def Rules := ∀ rule : Rule, Parse rule.Result

namespace Rules

variable (rules : Rules)

def product : Parse Expr := do
  let first ← rules .factor
  rules (.products first)

def sum : Parse Expr := do
  let first ← rules.product
  rules (.sums first)

def compound : Parse Compound :=
  compoundBy (separatedBy (rules .statement) (rules .statements))

def named : Parse Statement :=
  namedBy (callBy (separatedBy rules.sum (rules .arguments))) (assignmentBy rules.sum)

def nameList : Parse (List Variable) :=
  separatedBy variableName (rules .names)

def group : Parse (List Param) :=
  paramGroupBy rules.nameList

def procedure : Parse Procedure :=
  procedureBy (paramsBy (separatedBy rules.group (rules .groups))) (rules .block)

/-- Procedures, each behind its keyword. -/
def procedureList : Parse (List Procedure) :=
  followingBy rules.procedure .procedure (rules .procedures)

/-- One pass through each function and one turn of each loop. -/
def unfold : Rules
  | .factor => factorBy (rules .factor) rules.sum
  | .products left => chainBy multiplying (rules .factor) (fun left => rules (.products left)) left
  | .sums left => chainBy adding rules.product (fun left => rules (.sums left)) left
  | .arguments => followingBy rules.sum .comma (rules .arguments)
  | .statement => statementBy rules.compound rules.named
  | .statements => followingBy (rules .statement) .semicolon (rules .statements)
  | .names => followingBy variableName .comma (rules .names)
  | .declarations => varDeclsBy (varDeclBy rules.nameList) (rules .declarations)
  | .groups => followingBy rules.group .semicolon (rules .groups)
  | .procedures => rules.procedureList
  | .block => blockBy (rules .declarations) rules.procedureList rules.compound

/-- Reads a program from the next token on. -/
def parse : Parse Program := do
  consume
  programBy (rules .block)

variable {rules} {other : Rules}

/-- Two tables that do the same behind every token do the same here after one pass: each return to a
function and each turn of a loop comes behind a token. -/
theorem twins_unfold (behind : ∀ rule, Behind start (rules rule) (other rule)) (rule : Rule) :
    Twins start (rules.unfold rule) (other.unfold rule) := by
  have products : Behind start rules.product other.product :=
    (behind .factor).bind fun left => behind (.products left)
  have sums : Behind start rules.sum other.sum := products.bind fun left => behind (.sums left)
  have names : ∀ session, start.Goes session →
      Strides session rules.nameList other.nameList := fun session goes =>
    strides_variableName.bind fun _ => ((behind .names).mono goes).bind fun _ => .of_all (.pure _)
  have groups : Behind start rules.group other.group := fun session goes _ =>
    (strides_paramGroupBy (names session goes)).toTwins
  have procedures : Behind start rules.procedure other.procedure := fun session goes _ =>
    (strides_procedureBy ((behind_paramsBy (behind_separatedBy groups (behind .groups))).mono goes)
      ((behind .block).mono goes)).toTwins
  have lists : ∀ session, start.Goes session →
      Twins session rules.procedureList other.procedureList := fun session goes =>
    twins_followingBy (by decide) (procedures.mono goes) ((behind .procedures).mono goes)
  have compounds : ∀ session, start.Goes session →
      Twins session rules.compound other.compound := fun session goes =>
    twins_compoundBy ((behind_separatedBy (behind .statement) (behind .statements)).mono goes)
  cases rule with
  | factor => exact twins_factorBy (behind .factor) sums
  | products left =>
      exact twins_chainBy rfl (behind .factor) (fun left => behind (.products left)) left
  | sums left => exact twins_chainBy rfl products (fun left => behind (.sums left)) left
  | arguments => exact twins_followingBy (by decide) sums (behind .arguments)
  | statement =>
      apply twins_statementBy (compounds start (.refl start))
      intro inside
      apply twins_namedBy inside
      · exact fun session goes =>
          twins_callBy ((behind_separatedBy sums (behind .arguments)).mono goes)
      · exact fun session goes => twins_assignmentBy (sums.mono goes)
  | statements => exact twins_followingBy (by decide) (behind .statement) (behind .statements)
  | names =>
      exact twins_followingBy (by decide) (fun _ _ _ => strides_variableName.toTwins)
        (behind .names)
  | declarations =>
      exact (strides_varDeclsBy (strides_varDeclBy (names start (.refl start)))
        (behind .declarations)).toTwins
  | groups => exact twins_followingBy (by decide) groups (behind .groups)
  | procedures => exact lists start (.refl start)
  | block => exact twins_blockBy (behind .declarations) lists compounds

end Rules
end MiniPascal.Parser
