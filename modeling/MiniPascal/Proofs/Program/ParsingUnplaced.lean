import MiniPascal.Proofs.Program.Unplaced

/-! # Every parser mirrors itself without positions

One lemma for each parser: on a session without positions it yields what it yields on the session,
but for positions. Two texts whose tokens differ only in their places are therefore both parsed, to
trees that differ only in positions, or fail with errors that do. -/
set_option autoImplicit false
namespace MiniPascal.Parser

open Session

variable {α β : Type} {erase : α → β} {item : Parse α} {item' : Parse β}

theorem mirrors_following (items : Parse.Mirrors erase item item') (separator : TokenKind)
    (bound : Nat) : Parse.Mirrors (List.map erase) (following item separator bound)
      (following item' separator bound) := by
  induction bound with
  | zero => exact Mirrors.pure
  | succ bound ih =>
      rw [following, following]
      apply (Parse.Mirrors.accept separator).bind
      intro found
      cases found with
      | false => exact Mirrors.pure
      | true =>
          apply items.bind
          intro first
          exact ih.bind fun rest => Mirrors.pure

theorem mirrors_separated (items : Parse.Mirrors erase item item') (separator : TokenKind)
    (bound : Nat) : Parse.Mirrors (List.map erase) (separated item separator bound)
      (separated item' separator bound) := by
  rw [separated, separated]
  apply items.bind
  intro first
  exact (mirrors_following items separator bound).bind fun rest => Mirrors.pure

theorem mirrors_variableName : Parse.Mirrors Variable.unplaced variableName variableName := by
  rw [variableName]
  apply (Parse.Mirrors.expect .identifier).bind
  intro name
  exact Parse.Mirrors.node fun id => rfl

/-! ## Expressions -/

theorem mirrors_chain {operator? : TokenKind → Option BinaryOperator}
    {operand operand' : Parse Expr}
    (operands : Parse.Mirrors Expr.unplaced operand operand') (bound : Nat) :
    ∀ left : Expr, Parse.Mirrors Expr.unplaced (chain operator? operand bound left)
      (chain operator? operand' bound left.unplaced) := by
  induction bound with
  | zero => exact fun left => Mirrors.pure
  | succ bound ih =>
      intro left
      rw [chain, chain]
      apply Parse.Mirrors.currentToken.bind
      intro token
      rw [show token.unplaced.kind = token.kind from rfl]
      cases operator? token.kind with
      | none => exact Mirrors.pure
      | some operator =>
          apply Parse.Mirrors.consume.bind
          intro _
          apply operands.bind
          intro right
          exact Parse.Mirrors.freshId.bind fun id => ih (.binary id operator left right token.start)

theorem mirrors_term {factor factor' : Parse Expr}
    (factors : Parse.Mirrors Expr.unplaced factor factor') (bound : Nat) :
    Parse.Mirrors Expr.unplaced (term factor bound) (term factor' bound) := by
  rw [term, term]
  exact factors.bind (mirrors_chain factors bound)

theorem mirrors_sum {factor factor' : Parse Expr}
    (factors : Parse.Mirrors Expr.unplaced factor factor') (bound : Nat) :
    Parse.Mirrors Expr.unplaced (sum factor bound) (sum factor' bound) := by
  rw [sum, sum]
  exact (mirrors_term factors bound).bind (mirrors_chain (mirrors_term factors bound) bound)

theorem mirrors_signed {operand operand' : Parse Expr}
    (operands : Parse.Mirrors Expr.unplaced operand operand') (operator : UnaryOperator) :
    Parse.Mirrors Expr.unplaced (signed operator operand) (signed operator operand') := by
  rw [signed, signed]
  apply Parse.Mirrors.currentToken.bind
  intro token
  apply Parse.Mirrors.consume.bind
  intro _
  apply operands.bind
  intro inner
  exact Parse.Mirrors.node fun id => rfl

theorem mirrors_integerLiteral : Parse.Mirrors Expr.unplaced integerLiteral integerLiteral := by
  rw [integerLiteral]
  apply (Parse.Mirrors.expect .integerConst).bind
  intro literal
  rw [show literal.unplaced.text = literal.text from rfl]
  cases Number.ofIntegerLiteral? literal.text with
  | none => exact Mirrors.throw
  | some value => exact Parse.Mirrors.node fun id => rfl

theorem mirrors_realLiteral : Parse.Mirrors Expr.unplaced realLiteral realLiteral := by
  rw [realLiteral]
  apply (Parse.Mirrors.expect .realConst).bind
  intro literal
  exact Parse.Mirrors.node fun id => rfl

theorem mirrors_factor (bound : Nat) :
    Parse.Mirrors Expr.unplaced (factor bound) (factor bound) := by
  induction bound with
  | zero => exact Parse.Mirrors.refuse _
  | succ bound ih =>
      rw [factor]
      apply Parse.Mirrors.currentToken.bind
      intro token
      rw [show token.unplaced.kind = token.kind from rfl]
      split
      · exact mirrors_signed ih .plus
      · exact mirrors_signed ih .minus
      · exact mirrors_integerLiteral
      · exact mirrors_realLiteral
      · apply Parse.Mirrors.consume.bind
        intro _
        apply (mirrors_sum ih bound).bind
        intro inner
        exact (Parse.Mirrors.expect .parenthesisRight).bind fun _ => Mirrors.pure
      · exact mirrors_variableName.bind fun name => Mirrors.pure
      · exact Parse.Mirrors.refuse _

theorem mirrors_expression (bound : Nat) :
    Parse.Mirrors Expr.unplaced (expression bound) (expression bound) :=
  mirrors_sum (mirrors_factor bound) bound

/-! ## Statements -/

theorem mirrors_emptyStatement :
    Parse.Mirrors Statement.unplaced emptyStatement emptyStatement :=
  Parse.Mirrors.node fun _ => rfl

theorem mirrors_callWithArguments (bound : Nat) :
    Parse.Mirrors Statement.unplaced (callWithArguments bound) (callWithArguments bound) := by
  rw [callWithArguments]
  apply (Parse.Mirrors.expect .identifier).bind
  intro name
  apply (Parse.Mirrors.expect .parenthesisLeft).bind
  intro _
  apply (mirrors_separated (mirrors_expression bound) .comma bound).bind
  intro arguments
  apply (Parse.Mirrors.expect .parenthesisRight).bind
  intro _
  exact Parse.Mirrors.node fun id => rfl

theorem mirrors_bareCall : Parse.Mirrors Statement.unplaced bareCall bareCall := by
  rw [bareCall]
  apply (Parse.Mirrors.expect .identifier).bind
  intro name
  exact Parse.Mirrors.node fun id => rfl

theorem mirrors_assignment (bound : Nat) :
    Parse.Mirrors Statement.unplaced (assignment bound) (assignment bound) := by
  rw [assignment]
  apply mirrors_variableName.bind
  intro target
  apply (Parse.Mirrors.expect .assign).bind
  intro _
  apply (mirrors_expression bound).bind
  intro value
  exact Parse.Mirrors.node fun id => rfl

theorem mirrors_compoundOf {statement : Parse Statement}
    (statements : Parse.Mirrors Statement.unplaced statement statement) (bound : Nat) :
    Parse.Mirrors Compound.unplaced (compoundOf statement bound) (compoundOf statement bound) := by
  rw [compoundOf]
  apply (Parse.Mirrors.expect .begin).bind
  intro _
  apply (mirrors_separated statements .semicolon bound).bind
  intro inner
  apply (Parse.Mirrors.expect .finish).bind
  intro _
  apply Parse.Mirrors.node
  intro id
  rw [Compound.unplaced, Statement.unplacedAll_eq_map]

theorem mirrors_named (bound : Nat) :
    Parse.Mirrors Statement.unplaced (named bound) (named bound) := by
  rw [named]
  apply (Parse.Mirrors.isNext .parenthesisLeft).bind
  intro opens
  cases opens with
  | true => exact mirrors_callWithArguments bound
  | false =>
      apply (Parse.Mirrors.isNext .assign).bind
      intro assigns
      cases assigns with
      | true => exact mirrors_assignment bound
      | false =>
          apply Parse.Mirrors.currentToken.bind
          intro token
          apply (Parse.Mirrors.knows token.text).bind
          intro known
          cases known with
          | true => exact mirrors_bareCall
          | false => exact mirrors_assignment bound

theorem mirrors_statement (bound : Nat) :
    Parse.Mirrors Statement.unplaced (statement bound) (statement bound) := by
  induction bound with
  | zero => exact mirrors_emptyStatement
  | succ bound ih =>
      rw [statement]
      apply Parse.Mirrors.currentToken.bind
      intro token
      rw [show token.unplaced.kind = token.kind from rfl]
      split
      · exact (mirrors_compoundOf ih bound).bind fun body => Mirrors.pure
      · exact mirrors_named bound
      · exact mirrors_emptyStatement

/-! ## Declarations -/

theorem mirrors_dataType :
    Parse.Mirrors (fun typed => (typed.1, Position.start)) dataType dataType := by
  rw [dataType]
  apply Parse.Mirrors.currentToken.bind
  intro token
  rw [show token.unplaced.kind = token.kind from rfl]
  split
  · exact Parse.Mirrors.consume.bind fun _ => Mirrors.pure
  · exact Parse.Mirrors.consume.bind fun _ => Mirrors.pure
  · exact Parse.Mirrors.refuse _

theorem mirrors_varDecl (bound : Nat) :
    Parse.Mirrors VarDecl.unplaced (varDecl bound) (varDecl bound) := by
  rw [varDecl]
  apply (mirrors_separated mirrors_variableName .comma bound).bind
  intro names
  apply (Parse.Mirrors.expect .colon).bind
  intro _
  apply mirrors_dataType.bind
  intro typed
  apply Parse.Mirrors.freshId.bind
  intro typeId
  exact Parse.Mirrors.node fun id => rfl

theorem mirrors_varDecls (bound : Nat) :
    Parse.Mirrors (List.map VarDecl.unplaced) (varDecls bound) (varDecls bound) := by
  induction bound with
  | zero => exact Parse.Mirrors.refuse _
  | succ bound ih =>
      rw [varDecls]
      apply (mirrors_varDecl bound).bind
      intro first
      apply (Parse.Mirrors.expect .semicolon).bind
      intro _
      apply (Parse.Mirrors.isAt .identifier).bind
      intro another
      cases another with
      | true => exact ih.bind fun rest => Mirrors.pure
      | false => exact Mirrors.pure

theorem mirrors_paramsOf (dataType : DataType) (position : Position) (names : List Variable) :
    Parse.Mirrors (List.map Param.unplaced) (paramsOf dataType position names)
      (paramsOf dataType Position.start (names.map Variable.unplaced)) := by
  induction names with
  | nil => exact Mirrors.pure
  | cons declared rest ih =>
      rw [List.map_cons, paramsOf, paramsOf]
      apply Parse.Mirrors.freshId.bind
      intro typeId
      apply Parse.Mirrors.freshId.bind
      intro id
      exact ih.bind fun others => Mirrors.pure

theorem mirrors_paramGroup (bound : Nat) :
    Parse.Mirrors (List.map Param.unplaced) (paramGroup bound) (paramGroup bound) := by
  rw [paramGroup]
  apply (mirrors_separated mirrors_variableName .comma bound).bind
  intro names
  apply (Parse.Mirrors.expect .colon).bind
  intro _
  apply mirrors_dataType.bind
  intro typed
  exact mirrors_paramsOf typed.1 typed.2 names

theorem mirrors_params (bound : Nat) :
    Parse.Mirrors (List.map Param.unplaced) (params bound) (params bound) := by
  rw [params]
  apply (Parse.Mirrors.accept .parenthesisLeft).bind
  intro found
  cases found with
  | false => exact Mirrors.pure
  | true =>
      apply (mirrors_separated (mirrors_paramGroup bound) .semicolon bound).bind
      intro groups
      apply (Parse.Mirrors.expect .parenthesisRight).bind
      intro _
      rw [← List.map_flatten]
      exact Mirrors.pure

theorem mirrors_procedureOf {block : Parse Block}
    (blocks : Parse.Mirrors Block.unplaced block block) (bound : Nat) :
    Parse.Mirrors Procedure.unplaced (procedureOf block bound) (procedureOf block bound) := by
  rw [procedureOf]
  apply (Parse.Mirrors.expect .identifier).bind
  intro name
  apply (Parse.Mirrors.learn name.text).bind
  intro _
  apply (mirrors_params bound).bind
  intro params
  apply (Parse.Mirrors.expect .semicolon).bind
  intro _
  apply blocks.bind
  intro body
  apply (Parse.Mirrors.expect .semicolon).bind
  intro _
  exact Parse.Mirrors.node fun id => rfl

theorem mirrors_proceduresOf {block : Parse Block}
    (blocks : Parse.Mirrors Block.unplaced block block) (size bound : Nat) :
    Parse.Mirrors (List.map Procedure.unplaced) (proceduresOf block size bound)
      (proceduresOf block size bound) := by
  induction bound with
  | zero => exact Mirrors.pure
  | succ bound ih =>
      rw [proceduresOf]
      apply (Parse.Mirrors.accept .procedure).bind
      intro found
      cases found with
      | false => exact Mirrors.pure
      | true =>
          apply (mirrors_procedureOf blocks size).bind
          intro first
          exact ih.bind fun rest => Mirrors.pure

theorem mirrors_declarationsOf (bound : Nat) :
    Parse.Mirrors (List.map VarDecl.unplaced) (declarationsOf bound) (declarationsOf bound) := by
  rw [declarationsOf]
  apply (Parse.Mirrors.accept .var).bind
  intro found
  cases found with
  | true => exact mirrors_varDecls bound
  | false => exact Mirrors.pure

theorem mirrors_block (bound : Nat) :
    Parse.Mirrors Block.unplaced (block bound) (block bound) := by
  induction bound with
  | zero => exact Parse.Mirrors.refuse _
  | succ bound ih =>
      rw [block_succ]
      apply (mirrors_declarationsOf bound).bind
      intro declarations
      apply (mirrors_proceduresOf ih bound (bound + 1)).bind
      intro procedures
      apply (mirrors_compoundOf (mirrors_statement bound) bound).bind
      intro body
      exact Parse.Mirrors.node fun id => Block.unplaced_eq _

theorem mirrors_program (bound : Nat) :
    Parse.Mirrors Program.unplaced (program bound) (program bound) := by
  rw [program]
  apply (Parse.Mirrors.expect .program).bind
  intro _
  apply (Parse.Mirrors.expect .identifier).bind
  intro name
  apply (Parse.Mirrors.expect .semicolon).bind
  intro _
  apply (mirrors_block bound).bind
  intro body
  apply (Parse.Mirrors.isAt .dot).bind
  intro found
  cases found with
  | true => exact Parse.Mirrors.node fun id => rfl
  | false => exact Parse.Mirrors.refuse _

theorem mirrors_parse : Parse.Mirrors Program.unplaced parse parse := by
  rw [parse]
  apply Parse.Mirrors.consume.bind
  intro _ session
  show program session.unplaced.bound session.unplaced = _
  rw [session.unplaced_bound]
  exact mirrors_program session.bound session

end MiniPascal.Parser
