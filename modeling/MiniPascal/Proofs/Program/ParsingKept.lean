import MiniPascal.Proofs.Program.Keeping

/-! # What the parser keeps

Every parser of the grammar keeps every invariant of sessions. All that is visited on a walk over
what it yields is made of the tokens that were current meanwhile. -/
set_option autoImplicit false
namespace MiniPascal.Parser

open Session Parse Grammar

variable {kept : Session.Invariant}

theorem keeps_following {α : Type} {item : Parse α} {yields : α → Prop}
    (items : Keeps kept item yields) (separator : TokenKind) (bound : Nat) :
    Keeps kept (following item separator bound) fun values => ∀ value ∈ values, yields value := by
  induction bound with
  | zero => exact .pure (by simp)
  | succ bound ih =>
      rw [following]
      apply Keeps.accept
      · intro next _
        apply Keeps.anywhere
        apply items.bind
        intro first one
        exact ih.bind fun rest others => .pure (List.forall_mem_cons.mpr ⟨one, others⟩)
      · exact .pure (by simp)

theorem keeps_separated {α : Type} {item : Parse α} {yields : α → Prop}
    (items : Keeps kept item yields) (separator : TokenKind) (bound : Nat) :
    Keeps kept (separated item separator bound) fun values => ∀ value ∈ values, yields value := by
  rw [separated]
  apply items.bind
  intro first one
  exact (keeps_following items separator bound).bind fun rest others =>
    .pure (List.forall_mem_cons.mpr ⟨one, others⟩)

theorem keeps_variableName :
    Keeps kept variableName fun name => kept.Names name.name name.position := by
  rw [variableName]
  apply (Keeps.expect .identifier).bind
  rintro name ⟨good, kind⟩
  exact Keeps.node fun id => Invariant.names_of_good good kind

/-! ## Expressions -/

theorem keeps_chain {operator? : TokenKind → Option BinaryOperator} {operand : Parse Expr}
    (operators : ∀ kind operator, operator? kind = some operator →
      Adding kind operator ∨ Multiplying kind operator)
    (operands : Keeps kept operand fun expr => kept.MakesAll expr.visits) (bound : Nat) :
    ∀ left : Expr, kept.MakesAll left.visits →
      Keeps kept (chain operator? operand bound left) fun expr => kept.MakesAll expr.visits := by
  induction bound with
  | zero => exact fun _ made => .pure made
  | succ bound ih =>
      intro left made
      rw [chain]
      apply Keeps.currentToken
      intro token good
      split
      · exact Keeps.anywhere (.pure made)
      · rename_i operator found
        apply KeepsFrom.consume
        intro _ _
        apply Keeps.anywhere
        apply operands.bind
        intro right more
        apply Keeps.freshId.bind
        intro id _
        apply ih
        have node : kept.Makes (.binary id operator left right token.start) :=
          ⟨token.kind, token.text, operators _ _ found, good⟩
        exact (made.append more).append (.single node)

theorem keeps_term {factor : Parse Expr}
    (factors : Keeps kept factor fun expr => kept.MakesAll expr.visits) (bound : Nat) :
    Keeps kept (term factor bound) fun expr => kept.MakesAll expr.visits := by
  rw [term]
  refine factors.bind (keeps_chain (fun kind operator found => .inr ?_) factors bound)
  exact (multiplying_eq_some_iff kind operator).mp found

theorem keeps_sum {factor : Parse Expr}
    (factors : Keeps kept factor fun expr => kept.MakesAll expr.visits) (bound : Nat) :
    Keeps kept (sum factor bound) fun expr => kept.MakesAll expr.visits := by
  rw [sum]
  have terms := keeps_term factors bound
  refine terms.bind (keeps_chain (fun kind operator found => .inl ?_) terms bound)
  exact (adding_eq_some_iff kind operator).mp found

theorem keeps_signed {operator : UnaryOperator} {operand : Parse Expr} {token : Token}
    (operands : Keeps kept operand fun expr => kept.MakesAll expr.visits)
    (sign : Sign token.kind operator) (good : kept.Good token) :
    KeepsFrom kept token (signed operator operand) fun expr => kept.MakesAll expr.visits := by
  intro session held same
  subst same
  have further : KeepsFrom kept session.current (do
      consume
      let inner ← operand
      let id ← freshId
      return Expr.unary id operator inner session.current.start)
      fun expr => kept.MakesAll expr.visits := by
    apply KeepsFrom.consume
    intro _ _
    apply Keeps.anywhere
    apply operands.bind
    intro inner made
    exact Keeps.node fun id => made.append (.single ⟨_, _, sign, good⟩)
  rw [signed, bind_eq (show currentToken session = _ from rfl)]
  exact further session held rfl

theorem keeps_integerLiteral :
    Keeps kept integerLiteral fun expr => kept.MakesAll expr.visits := by
  rw [integerLiteral]
  apply (Keeps.expect .integerConst).bind
  rintro literal ⟨good, kind⟩
  split
  · rename_i value found
    exact Keeps.node fun id => .single ⟨literal, good, .inl ⟨kind, found⟩⟩
  · exact fun session held => ⟨kept.rests held, good, kind⟩

theorem keeps_realLiteral : Keeps kept realLiteral fun expr => kept.MakesAll expr.visits := by
  rw [realLiteral]
  apply (Keeps.expect .realConst).bind
  rintro literal ⟨good, kind⟩
  exact Keeps.node fun id => .single ⟨literal, good, .inr ⟨kind, rfl⟩⟩

theorem keeps_factor (bound : Nat) :
    Keeps kept (factor bound) fun expr => kept.MakesAll expr.visits := by
  induction bound with
  | zero => exact Keeps.refuse _
  | succ bound ih =>
      rw [factor]
      apply Keeps.currentToken
      intro token good
      split
      · rename_i kind
        exact keeps_signed ih (kind ▸ .plus) good
      · rename_i kind
        exact keeps_signed ih (kind ▸ .minus) good
      · exact keeps_integerLiteral.anywhere
      · exact keeps_realLiteral.anywhere
      · apply KeepsFrom.consume
        intro _ _
        apply Keeps.anywhere
        apply (keeps_sum ih bound).bind
        intro inner made
        exact (Keeps.expect .parenthesisRight).bind fun _ _ => .pure made
      · exact (keeps_variableName.bind fun name names => .pure (.single names)).anywhere
      · exact (Keeps.refuse _).anywhere

theorem keeps_expression (bound : Nat) :
    Keeps kept (expression bound) fun expr => kept.MakesAll expr.visits :=
  keeps_sum (keeps_factor bound) bound

/-! ## Statements -/

theorem keeps_emptyStatement :
    Keeps kept emptyStatement fun statement => kept.MakesAll statement.visits := by
  rw [emptyStatement]
  exact Keeps.node fun id => .single trivial

theorem keeps_callWithArguments (bound : Nat) :
    Keeps kept (callWithArguments bound) fun statement => kept.MakesAll statement.visits := by
  rw [callWithArguments]
  apply (Keeps.expect .identifier).bind
  rintro name ⟨good, kind⟩
  apply (Keeps.expect .parenthesisLeft).bind
  intro _ _
  apply (keeps_separated (keeps_expression bound) .comma bound).bind
  intro arguments made
  apply (Keeps.expect .parenthesisRight).bind
  intro _ _
  exact Keeps.node fun id =>
    (Invariant.MakesAll.flatMap made).append (.single (Invariant.names_of_good good kind))

theorem keeps_bareCall : Keeps kept bareCall fun statement => kept.MakesAll statement.visits := by
  rw [bareCall]
  apply (Keeps.expect .identifier).bind
  rintro name ⟨good, kind⟩
  exact Keeps.node fun id => .single (Invariant.names_of_good good kind)

theorem keeps_assignment (bound : Nat) :
    Keeps kept (assignment bound) fun statement => kept.MakesAll statement.visits := by
  rw [assignment]
  apply keeps_variableName.bind
  intro target names
  apply (Keeps.expect .assign).bind
  intro _ _
  apply (keeps_expression bound).bind
  intro value made
  exact Keeps.node fun id => .append (.cons names made) (.single trivial)

theorem keeps_compoundOf {statement : Parse Statement}
    (statements : Keeps kept statement fun statement => kept.MakesAll statement.visits)
    (bound : Nat) :
    Keeps kept (compoundOf statement bound) fun compound => kept.MakesAll compound.visits := by
  rw [compoundOf]
  apply (Keeps.expect .begin).bind
  intro _ _
  apply (keeps_separated statements .semicolon bound).bind
  intro inner made
  apply (Keeps.expect .finish).bind
  intro _ _
  apply Keeps.node
  intro id
  refine Invariant.MakesAll.append (.cons trivial ?_) (.single trivial)
  intro visit member
  obtain ⟨statement, among, inside⟩ := Statement.mem_visitsOf.mp member
  exact made statement among visit inside

theorem keeps_named (bound : Nat) :
    Keeps kept (named bound) fun statement => kept.MakesAll statement.visits := by
  rw [named]
  apply (Keeps.isNext .parenthesisLeft).bind
  intro opens _
  split
  · exact keeps_callWithArguments bound
  · apply (Keeps.isNext .assign).bind
    intro assigns _
    split
    · exact keeps_assignment bound
    · apply Keeps.currentToken
      intro token _
      apply Keeps.anywhere
      apply (Keeps.knows token.text).bind
      intro known _
      split
      · exact keeps_bareCall
      · exact keeps_assignment bound

theorem keeps_statement (bound : Nat) :
    Keeps kept (statement bound) fun statement => kept.MakesAll statement.visits := by
  induction bound with
  | zero => exact keeps_emptyStatement
  | succ bound ih =>
      rw [statement]
      apply Keeps.currentToken
      intro token _
      apply Keeps.anywhere
      split
      · exact (keeps_compoundOf ih bound).bind fun body made => .pure made
      · exact keeps_named bound
      · exact keeps_emptyStatement

/-! ## Declarations -/

theorem keeps_dataType : Keeps kept dataType fun typed =>
    ∃ kind text, TypeName kind typed.1 ∧ kept.Good ⟨kind, text, typed.2⟩ := by
  rw [dataType]
  apply Keeps.currentToken
  intro token good
  split
  · rename_i kind
    exact .consume fun _ _ => Keeps.anywhere (.pure ⟨_, _, kind ▸ .integer, good⟩)
  · rename_i kind
    exact .consume fun _ _ => Keeps.anywhere (.pure ⟨_, _, kind ▸ .real, good⟩)
  · exact (Keeps.refuse _).anywhere

theorem keeps_varDecl (bound : Nat) :
    Keeps kept (varDecl bound) fun decl => kept.MakesAll decl.visits := by
  rw [varDecl]
  apply (keeps_separated keeps_variableName .comma bound).bind
  intro names made
  apply (Keeps.expect .colon).bind
  intro _ _
  apply keeps_dataType.bind
  intro typed types
  apply Keeps.freshId.bind
  intro typeId _
  apply Keeps.node
  intro id
  exact .append (.cons types (.map made)) (.cons types (.single trivial))

theorem keeps_varDecls (bound : Nat) :
    Keeps kept (varDecls bound) fun decls => ∀ decl ∈ decls, kept.MakesAll decl.visits := by
  induction bound with
  | zero => exact Keeps.refuse _
  | succ bound ih =>
      rw [varDecls]
      apply (keeps_varDecl bound).bind
      intro first one
      apply (Keeps.expect .semicolon).bind
      intro _ _
      apply (Keeps.isAt .identifier).bind
      intro another _
      split
      · exact ih.bind fun rest others => .pure (List.forall_mem_cons.mpr ⟨one, others⟩)
      · exact .pure (List.forall_mem_singleton.mpr one)

theorem keeps_paramsOf (dataType : DataType) (position : Position)
    (types : ∃ kind text, TypeName kind dataType ∧ kept.Good ⟨kind, text, position⟩)
    (names : List Variable) (made : ∀ name ∈ names, kept.Names name.name name.position) :
    Keeps kept (paramsOf dataType position names)
      fun params => ∀ param ∈ params, kept.MakesAll param.visits := by
  induction names with
  | nil => exact .pure (List.forall_mem_nil _)
  | cons declared rest ih =>
      obtain ⟨one, others⟩ := List.forall_mem_cons.mp made
      rw [paramsOf]
      apply Keeps.freshId.bind
      intro typeId _
      apply Keeps.freshId.bind
      intro id _
      apply (ih others).bind
      intro params further
      apply Keeps.pure
      exact List.forall_mem_cons.mpr ⟨.cons types (.cons one (.single types)), further⟩

theorem keeps_paramGroup (bound : Nat) :
    Keeps kept (paramGroup bound) fun params => ∀ param ∈ params, kept.MakesAll param.visits := by
  rw [paramGroup]
  apply (keeps_separated keeps_variableName .comma bound).bind
  intro names made
  apply (Keeps.expect .colon).bind
  intro _ _
  apply keeps_dataType.bind
  intro typed types
  exact keeps_paramsOf typed.1 typed.2 types names made

theorem keeps_params (bound : Nat) :
    Keeps kept (params bound) fun params => ∀ param ∈ params, kept.MakesAll param.visits := by
  rw [params]
  apply Keeps.accept
  · intro _ _
    apply Keeps.anywhere
    apply (keeps_separated (keeps_paramGroup bound) .semicolon bound).bind
    intro groups made
    apply (Keeps.expect .parenthesisRight).bind
    intro _ _
    apply Keeps.pure
    intro param member
    obtain ⟨group, among, inside⟩ := List.mem_flatten.mp member
    exact made group among param inside
  · exact .pure (List.forall_mem_nil _)

/-- The name of a procedure is the token behind its keyword. -/
theorem keeps_procedureOf {block : Parse Block} {token : Token}
    (blocks : Keeps kept block fun block => kept.MakesAll block.visits) (bound : Nat)
    (good : kept.Good token) (head : kept.Head token) :
    KeepsFrom kept token (procedureOf block bound)
      fun procedure => kept.MakesAll (Procedure.visitsOf [procedure]) := by
  rw [procedureOf]
  apply (KeepsFrom.expect .identifier).bind
  rintro name ⟨rfl, kind⟩
  apply (Keeps.learn name.text).bind
  intro _ _
  apply (keeps_params bound).bind
  intro params parameters
  apply (Keeps.expect .semicolon).bind
  intro _ _
  apply blocks.bind
  intro body made
  apply (Keeps.expect .semicolon).bind
  intro _ _
  apply Keeps.node
  intro id
  have header : kept.Makes (.procedureStart ⟨id, name.text, name.start, params, body⟩) :=
    ⟨Invariant.names_of_good good kind, kind ▸ head⟩
  have inside : kept.MakesAll (params.flatMap Param.visits) := .flatMap parameters
  exact .append (.append (.append (.cons header inside) made) (.single trivial)) .nil

theorem keeps_proceduresOf {block : Parse Block}
    (blocks : Keeps kept block fun block => kept.MakesAll block.visits) (size bound : Nat) :
    Keeps kept (proceduresOf block size bound)
      fun procedures => kept.MakesAll (Procedure.visitsOf procedures) := by
  induction bound with
  | zero => exact .pure .nil
  | succ bound ih =>
      rw [proceduresOf]
      apply Keeps.accept
      · intro next head session held same
        have good : kept.Good next := same ▸ kept.current held
        refine (keeps_procedureOf blocks size good (head rfl)).bind ?_ session held same
        intro first made
        apply ih.bind
        intro rest others
        apply Keeps.pure
        obtain ⟨id, name, position, params, body⟩ := first
        rw [Procedure.visitsOf, Procedure.visitsOf, List.append_nil] at made
        rw [Procedure.visitsOf]
        exact made.append others
      · exact .pure .nil

theorem keeps_declarationsOf (bound : Nat) :
    Keeps kept (declarationsOf bound) fun decls => ∀ decl ∈ decls, kept.MakesAll decl.visits := by
  rw [declarationsOf]
  apply Keeps.accept
  · exact fun _ _ => (keeps_varDecls bound).anywhere
  · exact .pure (List.forall_mem_nil _)

theorem keeps_block (bound : Nat) :
    Keeps kept (block bound) fun block => kept.MakesAll block.visits := by
  induction bound with
  | zero => exact Keeps.refuse _
  | succ bound ih =>
      rw [block_succ]
      apply (keeps_declarationsOf bound).bind
      intro declarations declared
      apply (keeps_proceduresOf ih bound (bound + 1)).bind
      intro procedures nested
      apply (keeps_compoundOf (keeps_statement bound) bound).bind
      intro body made
      apply Keeps.node
      intro id
      rw [Block.visits]
      have first : kept.MakesAll (declarations.flatMap VarDecl.visits) := .flatMap declared
      exact .append (.append (.append (.cons trivial first) nested) made) (.single trivial)

/-! ## Programs -/

theorem keeps_program (bound : Nat) :
    Keeps kept (program bound) fun program => kept.MakesAll program.visits := by
  rw [program]
  apply (Keeps.expect .program).bind
  intro _ _
  apply (Keeps.expect .identifier).bind
  rintro name ⟨good, kind⟩
  apply (Keeps.expect .semicolon).bind
  intro _ _
  apply (keeps_block bound).bind
  intro body made
  apply (Keeps.isAt .dot).bind
  intro found _
  split
  · apply Keeps.node
    intro id
    rw [Program.visits]
    have header : ∃ position, kept.Names name.text position :=
      ⟨name.start, Invariant.names_of_good good kind⟩
    exact .append (.cons header made) (.single trivial)
  · exact Keeps.refuse _

/-- Every program that is read is made of tokens that were met, and every error is about one. -/
theorem allows_parse {session : Session} (rests : kept.Rests session) :
    kept.Allows (fun program => kept.MakesAll program.visits) (parse session) := by
  rw [parse]
  apply allows_bind (allows_consume rests)
  intro _ after _ held _
  exact keeps_program after.bound after held

theorem allows_expectEnd {session : Session} (rests : kept.Rests session) :
    kept.Allows (fun _ => True) (expectEnd session) := by
  have checks : Keeps kept (do if ← isAt .endOfFile then return () else refuse (.token .endOfFile))
      fun _ => True := by
    apply (Keeps.isAt .endOfFile).bind
    intro found _
    split
    · exact .pure trivial
    · exact Keeps.refuse _
  rw [expectEnd]
  apply allows_bind (allows_consume rests)
  intro _ after _ held _
  exact checks after held

end MiniPascal.Parser
