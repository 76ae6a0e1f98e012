import MiniPascal.Program.Tree
import MiniPascal.Number.Literal
import MiniPascal.Token.Basic

/-! # The grammar

The grammar of programs as relations between tokens and trees, one for each production. The trees
are bare: all numbers of nodes are zero and all positions are the start of a text, so a tree says
nothing but what is read off its derivation. The grammar knows no parser, no look-ahead and no
bound.

    program   := PROGRAM ident ; block .
    block     := [VAR (vardecl ;)+] (PROCEDURE ident [( paramlist )] ; block ;)* compound
    vardecl   := ident (, ident)* : type
    paramlist := params (; params)*
    params    := ident (, ident)* : type
    compound  := BEGIN stmt (; stmt)* END
    stmt      := compound | ident ( expr (, expr)* ) | ident := expr | ident | empty
    expr      := term ((+ | -) term)*
    term      := factor ((* | DIV | /) factor)*
    factor    := (+ | -) factor | INT_CONST | REAL_CONST | ( expr ) | ident

A statement that is a name alone is derived only behind a procedure header of that name. -/
set_option autoImplicit false
namespace MiniPascal

/-- A variable of a bare tree. -/
def Variable.named (name : String) : Variable :=
  ⟨0, name, Position.start⟩

/-- A type of a bare tree. -/
def TypeSpec.ofType (dataType : DataType) : TypeSpec :=
  ⟨0, dataType, Position.start⟩

/-! ## Bare trees -/

def Variable.bare (declared : Variable) : Variable :=
  .named declared.name

def TypeSpec.bare (typeSpec : TypeSpec) : TypeSpec :=
  .ofType typeSpec.dataType

def VarDecl.bare (decl : VarDecl) : VarDecl :=
  ⟨0, decl.names.map Variable.bare, decl.typeSpec.bare⟩

def Param.bare (param : Param) : Param :=
  ⟨0, param.declared.bare, param.typeSpec.bare⟩

def Expr.bare : Expr → Expr
  | .number _ value => .number 0 value
  | .read source => .read source.bare
  | .unary _ operator operand _ => .unary 0 operator operand.bare Position.start
  | .binary _ operator left right _ => .binary 0 operator left.bare right.bare Position.start

mutual

def Statement.bare : Statement → Statement
  | .compound _ statements => .compound 0 (Statement.bareAll statements)
  | .assignment _ target value => .assignment 0 target.bare value.bare
  | .call _ name _ arguments => .call 0 name Position.start (arguments.map Expr.bare)
  | .empty _ => .empty 0

def Statement.bareAll : List Statement → List Statement
  | [] => []
  | statement :: rest => statement.bare :: Statement.bareAll rest

end

theorem Statement.bareAll_eq_map : ∀ statements : List Statement,
    Statement.bareAll statements = statements.map Statement.bare := by
  intro statements
  induction statements with
  | nil => rfl
  | cons statement rest ih => rw [Statement.bareAll, ih, List.map_cons]

mutual

def Block.bare : Block → Block
  | ⟨_, declarations, procedures, body⟩ =>
    ⟨0, declarations.map VarDecl.bare, Procedure.bareAll procedures,
      ⟨0, Statement.bareAll body.statements⟩⟩

def Procedure.bareAll : List Procedure → List Procedure
  | [] => []
  | ⟨_, name, _, params, block⟩ :: rest =>
    ⟨0, name, Position.start, params.map Param.bare, block.bare⟩ :: Procedure.bareAll rest

end

def Program.bare (program : Program) : Program :=
  ⟨0, program.name, program.block.bare⟩

namespace Grammar

/-! ## Parts of productions -/

/-- One or more items with a separator between them. -/
inductive Separated {α : Type} (separator : TokenKind) (Item : List Token → α → Prop) :
    List Token → List α → Prop where
  | one {tokens : List Token} {item : α} : Item tokens item → Separated separator Item tokens [item]
  | more {tokens others : List Token} {between : Token} {item : α} {items : List α} :
    Item tokens item → between.kind = separator → Separated separator Item others items →
      Separated separator Item (tokens ++ between :: others) (item :: items)

/-- Something between two brackets. -/
inductive Bracketed {α : Type} (opening closing : TokenKind) (Inner : List Token → α → Prop) :
    List Token → α → Prop where
  | mk {first last : Token} {tokens : List Token} {inner : α} :
    first.kind = opening → Inner tokens inner → last.kind = closing →
      Bracketed opening closing Inner (first :: (tokens ++ [last])) inner

/-- Operands with operators between them. All that stands to the left of an operator is its left
operand. -/
inductive Chain (Operator : TokenKind → BinaryOperator → Prop)
    (Operand : List Token → Expr → Prop) : List Token → Expr → Prop where
  | first {tokens : List Token} {expr : Expr} :
    Operand tokens expr → Chain Operator Operand tokens expr
  | next {tokens others : List Token} {sign : Token} {operator : BinaryOperator}
      {left right : Expr} :
    Chain Operator Operand tokens left → Operator sign.kind operator → Operand others right →
      Chain Operator Operand (tokens ++ sign :: others)
        (.binary 0 operator left right Position.start)

/-! ## Expressions -/

inductive Adding : TokenKind → BinaryOperator → Prop where
  | plus : Adding .plus .plus
  | minus : Adding .minus .minus

inductive Multiplying : TokenKind → BinaryOperator → Prop where
  | multiply : Multiplying .multiply .multiply
  | integerDivide : Multiplying .integerDivide .integerDivide
  | realDivide : Multiplying .realDivide .realDivide

inductive Sign : TokenKind → UnaryOperator → Prop where
  | plus : Sign .plus .plus
  | minus : Sign .minus .minus

inductive Factor : List Token → MiniPascal.Expr → Prop where
  | signed {sign : Token} {operator : UnaryOperator} {tokens : List Token} {operand : Expr} :
    Sign sign.kind operator → Factor tokens operand →
      Factor (sign :: tokens) (.unary 0 operator operand Position.start)
  | integer {token : Token} : token.kind = .integerConst →
      Factor [token]
        (.number 0 (.integer (Int64.ofNat (Number.digitsValue token.text.toList))))
  | real {token : Token} : token.kind = .realConst →
      Factor [token] (.number 0 (Number.ofRealLiteral token.text))
  | parentheses {tokens : List Token} {expr : Expr} :
    Bracketed .parenthesisLeft .parenthesisRight (Chain Adding (Chain Multiplying Factor)) tokens
        expr → Factor tokens expr
  | name {token : Token} : token.kind = .identifier → Factor [token] (.read (.named token.text))

abbrev Term : List Token → Expr → Prop :=
  Chain Multiplying Factor

abbrev Expression : List Token → Expr → Prop :=
  Chain Adding Term

/-! ## Statements -/

/-- Statements where some names may be called without arguments. -/
inductive Statement (callable : String → Prop) : List Token → MiniPascal.Statement → Prop where
  | compound {tokens : List Token} {statements : List MiniPascal.Statement} :
    Bracketed .begin .finish (Separated .semicolon (Statement callable)) tokens statements →
      Statement callable tokens (.compound 0 statements)
  | call {name : Token} {tokens : List Token} {arguments : List Expr} :
    name.kind = .identifier →
      Bracketed .parenthesisLeft .parenthesisRight (Separated .comma Expression) tokens arguments →
      Statement callable (name :: tokens) (.call 0 name.text Position.start arguments)
  | assignment {target sign : Token} {tokens : List Token} {value : Expr} :
    target.kind = .identifier → sign.kind = .assign → Expression tokens value →
      Statement callable (target :: sign :: tokens) (.assignment 0 (.named target.text) value)
  | bareCall {name : Token} : name.kind = .identifier → callable name.text →
      Statement callable [name] (.call 0 name.text Position.start [])
  | empty : Statement callable [] (.empty 0)

abbrev Compound (callable : String → Prop) : List Token → List MiniPascal.Statement → Prop :=
  Bracketed .begin .finish (Separated .semicolon (Statement callable))

/-! ## Declarations -/

inductive Name : List Token → Variable → Prop where
  | mk {token : Token} : token.kind = .identifier → Name [token] (.named token.text)

inductive TypeName : TokenKind → DataType → Prop where
  | integer : TypeName .integer .integer
  | real : TypeName .real .real

/-- Names that share a type. -/
inductive Variables : List Token → List Variable × DataType → Prop where
  | mk {tokens : List Token} {names : List Variable} {colon type : Token} {dataType : DataType} :
    Separated .comma Name tokens names → colon.kind = .colon → TypeName type.kind dataType →
      Variables (tokens ++ [colon, type]) (names, dataType)

inductive VarDecls : List Token → List VarDecl → Prop where
  | one {tokens : List Token} {names : List Variable} {dataType : DataType} {semicolon : Token} :
    Variables tokens (names, dataType) → semicolon.kind = .semicolon →
      VarDecls (tokens ++ [semicolon]) [⟨0, names, .ofType dataType⟩]
  | more {tokens others : List Token} {names : List Variable} {dataType : DataType}
      {semicolon : Token} {declarations : List VarDecl} :
    Variables tokens (names, dataType) → semicolon.kind = .semicolon →
      VarDecls others declarations →
      VarDecls (tokens ++ semicolon :: others) (⟨0, names, .ofType dataType⟩ :: declarations)

inductive Declarations : List Token → List VarDecl → Prop where
  | none : Declarations [] []
  | some {keyword : Token} {tokens : List Token} {declarations : List VarDecl} :
    keyword.kind = .var → VarDecls tokens declarations →
      Declarations (keyword :: tokens) declarations

/-- Parameters that share a type: one for each name. -/
inductive ParamGroup : List Token → List Param → Prop where
  | mk {tokens : List Token} {names : List Variable} {dataType : DataType} :
    Variables tokens (names, dataType) →
      ParamGroup tokens (names.map fun name => ⟨0, name, .ofType dataType⟩)

inductive Params : List Token → List Param → Prop where
  | none : Params [] []
  | some {tokens : List Token} {groups : List (List Param)} :
    Bracketed .parenthesisLeft .parenthesisRight (Separated .semicolon ParamGroup) tokens groups →
      Params tokens groups.flatten

/-- A procedure header of this name stands among the tokens. -/
def IsHeader (tokens : List Token) (name : String) : Prop :=
  ∃ before keyword token after, tokens = before ++ keyword :: token :: after
    ∧ keyword.kind = .procedure ∧ token.kind = .identifier ∧ token.text = name

mutual

/-- Blocks behind the given tokens of the same text. -/
inductive Block : List Token → List Token → MiniPascal.Block → Prop where
  | mk {before declared nested body : List Token} {declarations : List VarDecl}
      {procedures : List Procedure} {statements : List MiniPascal.Statement} :
    Declarations declared declarations → Procedures (before ++ declared) nested procedures →
      Compound (IsHeader (before ++ declared ++ nested)) body statements →
      Block before (declared ++ nested ++ body) ⟨0, declarations, procedures, ⟨0, statements⟩⟩

/-- Procedures behind the given tokens of the same text. -/
inductive Procedures : List Token → List Token → List Procedure → Prop where
  | none {before : List Token} : Procedures before [] []
  | more {before parameters inner others : List Token} {keyword name semicolon last : Token}
      {params : List Param} {block : MiniPascal.Block} {procedures : List Procedure} :
    keyword.kind = .procedure → name.kind = .identifier → Params parameters params →
      semicolon.kind = .semicolon →
      Block (before ++ keyword :: name :: (parameters ++ [semicolon])) inner block →
      last.kind = .semicolon →
      Procedures (before ++ keyword :: name :: (parameters ++ semicolon :: (inner ++ [last]))) others
        procedures →
      Procedures before
        (keyword :: name :: (parameters ++ semicolon :: (inner ++ last :: others)))
        (⟨0, name.text, Position.start, params, block⟩ :: procedures)

end

inductive Program : List Token → MiniPascal.Program → Prop where
  | mk {keyword name semicolon dot : Token} {tokens : List Token} {block : MiniPascal.Block} :
    keyword.kind = .program → name.kind = .identifier → semicolon.kind = .semicolon →
      Block [keyword, name, semicolon] tokens block → dot.kind = .dot →
      Program (keyword :: name :: semicolon :: (tokens ++ [dot])) ⟨0, name.text, block⟩

/-! ## Induction on derivations -/

theorem Factor.induct {motive : (tokens : List Token) → (expr : Expr) → Factor tokens expr → Prop}
    (signed : ∀ {sign : Token} {operator : UnaryOperator} {tokens : List Token} {operand : Expr}
      (kind : Sign sign.kind operator) (factor : Factor tokens operand),
      motive tokens operand factor → motive _ _ (.signed kind factor))
    (integer : ∀ {token : Token} (kind : token.kind = .integerConst), motive _ _ (.integer kind))
    (real : ∀ {token : Token} (kind : token.kind = .realConst), motive _ _ (.real kind))
    (parentheses : ∀ {first last : Token} {tokens : List Token} {inner : Expr}
      (derived : Factor (first :: (tokens ++ [last])) inner), first.kind = .parenthesisLeft →
      Chain Adding (Chain Multiplying fun tokens expr => ∃ factor, motive tokens expr factor)
        tokens inner →
      last.kind = .parenthesisRight → motive _ _ derived)
    (name : ∀ {token : Token} (kind : token.kind = .identifier), motive _ _ (.name kind))
    {tokens : List Token} {expr : Expr} (derived : Factor tokens expr) :
    motive tokens expr derived := by
  let Holds : List Token → Expr → Prop := fun tokens expr => ∃ factor, motive tokens expr factor
  refine @Factor.rec motive
    (fun tokens expr _ => ∀ derived : Factor tokens expr, motive tokens expr derived)
    (fun tokens expr _ => Chain Adding (Chain Multiplying Holds) tokens expr)
    (fun tokens expr _ => Chain Multiplying Holds tokens expr)
    signed integer real (fun _ inner => inner _) name
    (fun opens _ closes inner derived => parentheses derived opens inner closes)
    (fun _ term => .first term) (fun _ sign _ left right => .next left sign right)
    (fun factor holds => .first ⟨factor, holds⟩)
    (fun _ sign factor left holds => .next left sign ⟨factor, holds⟩) tokens expr derived

theorem Statement.induct {callable : String → Prop}
    {motive : (tokens : List Token) → (statement : MiniPascal.Statement) →
      Statement callable tokens statement → Prop}
    (compound : ∀ {first last : Token} {tokens : List Token}
      {statements : List MiniPascal.Statement}
      (derived : Statement callable (first :: (tokens ++ [last])) (.compound 0 statements)),
      first.kind = .begin →
      Separated .semicolon (fun tokens statement => ∃ inner, motive tokens statement inner)
        tokens statements →
      last.kind = .finish → motive _ _ derived)
    (call : ∀ {name : Token} {tokens : List Token} {arguments : List Expr}
      (kind : name.kind = .identifier) (listed : Bracketed .parenthesisLeft .parenthesisRight
        (Separated .comma Expression) tokens arguments), motive _ _ (.call kind listed))
    (assignment : ∀ {target sign : Token} {tokens : List Token} {value : Expr}
      (kind : target.kind = .identifier) (assigns : sign.kind = .assign)
      (expression : Expression tokens value), motive _ _ (.assignment kind assigns expression))
    (bareCall : ∀ {name : Token} (kind : name.kind = .identifier) (called : callable name.text),
      motive _ _ (.bareCall kind called))
    (empty : motive _ _ .empty) {tokens : List Token} {statement : MiniPascal.Statement}
    (derived : Statement callable tokens statement) : motive tokens statement derived := by
  let Holds : List Token → MiniPascal.Statement → Prop :=
    fun tokens statement => ∃ inner, motive tokens statement inner
  refine @Statement.rec callable motive
    (fun tokens statements _ => ∀ derived : Statement callable tokens (.compound 0 statements),
      motive tokens _ derived)
    (fun tokens statements _ => Separated .semicolon Holds tokens statements)
    (fun _ inner => inner _) call assignment bareCall empty
    (fun opens _ closes inner derived => compound derived opens inner closes)
    (fun statement holds => .one ⟨statement, holds⟩)
    (fun statement between _ holds others => .more ⟨statement, holds⟩ between others)
    tokens statement derived

end Grammar
end MiniPascal
