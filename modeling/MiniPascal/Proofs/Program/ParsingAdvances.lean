import MiniPascal.Proofs.Program.Advancing

/-! # No parser passes over a token

Every parser is made of steps that read what they take. The literal of an integer is the one place
where a constant is moved behind: whether it is small enough is known right after that. -/
set_option autoImplicit false
namespace MiniPascal.Parser

open Parse

theorem advances_following {α : Type} {item : Parse α} (items : Advances item)
    {separator : TokenKind} (other : separator ≠ .integerConst) : ∀ bound : Nat,
    Advances (following item separator bound) := by
  intro bound
  induction bound with
  | zero => exact .pure []
  | succ bound ih =>
      refine (Advances.accept other).bind fun found => ?_
      split
      · exact items.bind fun _ => ih.bind fun _ => .pure _
      · exact .pure []

theorem advances_separated {α : Type} {item : Parse α} (items : Advances item)
    {separator : TokenKind} (other : separator ≠ .integerConst) (bound : Nat) :
    Advances (separated item separator bound) :=
  items.bind fun _ => (advances_following items other bound).bind fun _ => .pure _

theorem advances_variableName : Advances variableName :=
  (Advances.expect (by decide)).bind fun _ => Advances.freshId.bind fun _ => .pure _

/-! ## Expressions -/

theorem advances_chain {operator? : TokenKind → Option BinaryOperator} {operand : Parse Expr}
    (literal : operator? .integerConst = none) (operands : Advances operand) :
    ∀ (bound : Nat) (left : Expr), Advances (chain operator? operand bound left) := by
  intro bound
  induction bound with
  | zero => exact fun left => .pure left
  | succ bound ih =>
      intro left
      refine Advances.currentToken fun token => ?_
      cases found : operator? token.kind with
      | none => exact (Advances.pure left).anywhere
      | some operator =>
          refine .consume (Token.fits_of_ne fun constant => ?_) ?_
          · rw [constant, literal] at found
            cases found
          · exact operands.bind fun _ => Advances.freshId.bind fun _ => ih _

theorem advances_term {factor : Parse Expr} (factors : Advances factor) (bound : Nat) :
    Advances (term factor bound) :=
  factors.bind fun first => advances_chain rfl factors bound first

theorem advances_sum {factor : Parse Expr} (factors : Advances factor) (bound : Nat) :
    Advances (sum factor bound) :=
  (advances_term factors bound).bind fun first =>
    advances_chain rfl (advances_term factors bound) bound first

theorem advances_signed (operator : UnaryOperator) {operand : Parse Expr} {current : Token}
    (operands : Advances operand) (fits : current.Fits) :
    AdvancesFrom current (signed operator operand) := by
  rintro session rfl
  exact AdvancesFrom.consume fits
    (operands.bind fun _ => Advances.freshId.bind fun _ => .pure _) session rfl

/-- A constant that has been read as a number is small enough to have been moved behind. -/
theorem advances_integerLiteral : Advances integerLiteral := by
  intro session
  by_cases kind : session.current.kind = .integerConst
  · have opened : Session.expect .integerConst session
        = (Session.consume >>= fun _ => pure session.current) session := by
      rw [Session.expect, bind_eq (show Session.currentToken session = _ from rfl), if_pos kind]
    rw [integerLiteral]
    cases found : Number.ofIntegerLiteral? session.current.text with
    | some number =>
        have fits : session.current.Fits := fun _ => (ofIntegerLiteral?_eq_some found).1
        have moves : AdvancesFrom session.current
            (Session.consume >>= fun _ => pure session.current) := .consume fits (.pure _)
        have taken := moves session rfl
        rw [← opened] at taken
        refine advancesTo_bind taken fun literal after _ => ?_
        cases Number.ofIntegerLiteral? literal.text with
        | some value => exact (Advances.freshId.bind fun _ => .pure _) after
        | none => trivial
    | none =>
        cases done : Session.expect .integerConst session with
        | ok literal after =>
            obtain ⟨rfl, _⟩ := current_of_expect done
            rw [bind_eq done, found]
            trivial
        | error error after =>
            rw [bind_eq_error done]
            rw [opened] at done
            obtain failed | ⟨_, _, _, failed⟩ := error_of_bind done
            · obtain ⟨_, _, _, rfl, _⟩ := Session.advance_of_failed (.inl failed)
              trivial
            · cases failed
  · have refused : Session.expect .integerConst session
        = (Session.refuse (.token .integerConst) : Parse Token) session := by
      rw [Session.expect, bind_eq (show Session.currentToken session = _ from rfl), if_neg kind]
    rw [integerLiteral, bind_eq_error refused]
    exact .refl session

theorem advances_realLiteral : Advances realLiteral :=
  (Advances.expect (by decide)).bind fun _ => Advances.freshId.bind fun _ => .pure _

theorem advances_factor : ∀ bound : Nat, Advances (factor bound) := by
  intro bound
  induction bound with
  | zero => exact .refuse _
  | succ bound ih =>
      refine Advances.currentToken fun token => ?_
      split
      · rename_i kind
        exact advances_signed .plus ih (Token.fits_of_kind kind (by decide))
      · rename_i kind
        exact advances_signed .minus ih (Token.fits_of_kind kind (by decide))
      · exact advances_integerLiteral.anywhere
      · exact advances_realLiteral.anywhere
      · rename_i kind
        exact .consume (Token.fits_of_kind kind (by decide)) ((advances_sum ih bound).bind fun _ =>
          (Advances.expect (by decide)).bind fun _ => .pure _)
      · exact (advances_variableName.bind fun _ => .pure _).anywhere
      · exact (Advances.refuse _).anywhere

theorem advances_expression (bound : Nat) : Advances (expression bound) :=
  advances_sum (advances_factor bound) bound

/-! ## Statements -/

theorem advances_emptyStatement : Advances emptyStatement :=
  Advances.freshId.bind fun _ => .pure _

theorem advances_callWithArguments (bound : Nat) : Advances (callWithArguments bound) :=
  (Advances.expect (by decide)).bind fun _ => (Advances.expect (by decide)).bind fun _ =>
    (advances_separated (advances_expression bound) (by decide) bound).bind fun _ =>
      (Advances.expect (by decide)).bind fun _ => Advances.freshId.bind fun _ => .pure _

theorem advances_bareCall : Advances bareCall :=
  (Advances.expect (by decide)).bind fun _ => Advances.freshId.bind fun _ => .pure _

theorem advances_assignment (bound : Nat) : Advances (assignment bound) :=
  advances_variableName.bind fun _ => (Advances.expect (by decide)).bind fun _ =>
    (advances_expression bound).bind fun _ => Advances.freshId.bind fun _ => .pure _

theorem advances_named (bound : Nat) : Advances (named bound) := by
  refine (Advances.isNext _).bind fun called => ?_
  split
  · exact advances_callWithArguments bound
  refine (Advances.isNext _).bind fun assigned => ?_
  split
  · exact advances_assignment bound
  refine Advances.currentToken fun token => (Advances.anywhere ?_)
  refine (Advances.knows _).bind fun known => ?_
  split
  · exact advances_bareCall
  · exact advances_assignment bound

theorem advances_compoundOf {statement : Parse Statement} (statements : Advances statement)
    (bound : Nat) : Advances (compoundOf statement bound) :=
  (Advances.expect (by decide)).bind fun _ =>
    (advances_separated statements (by decide) bound).bind fun _ =>
      (Advances.expect (by decide)).bind fun _ => Advances.freshId.bind fun _ => .pure _

theorem advances_statement : ∀ bound : Nat, Advances (statement bound) := by
  intro bound
  induction bound with
  | zero => exact advances_emptyStatement
  | succ bound ih =>
      refine Advances.currentToken fun token => Advances.anywhere ?_
      split
      · exact (advances_compoundOf ih bound).bind fun _ => .pure _
      · exact advances_named bound
      · exact advances_emptyStatement

/-! ## Declarations -/

theorem advances_dataType : Advances dataType := by
  refine Advances.currentToken fun token => ?_
  split
  · rename_i kind
    exact .consume (Token.fits_of_kind kind (by decide)) (.pure _)
  · rename_i kind
    exact .consume (Token.fits_of_kind kind (by decide)) (.pure _)
  · exact (Advances.refuse _).anywhere

theorem advances_variables {α : Type} (bound : Nat)
    {further : List Variable → DataType × Position → Parse α}
    (behind : ∀ names typed, Advances (further names typed)) :
    Advances (do
      let names ← separated variableName .comma bound
      let _ ← Session.expect .colon
      let typed ← dataType
      further names typed) :=
  (advances_separated advances_variableName (by decide) bound).bind fun _ =>
    (Advances.expect (by decide)).bind fun _ => advances_dataType.bind fun _ => behind _ _

theorem advances_varDecl (bound : Nat) : Advances (varDecl bound) :=
  advances_variables bound fun _ _ =>
    Advances.freshId.bind fun _ => Advances.freshId.bind fun _ => .pure _

theorem advances_varDecls : ∀ bound : Nat, Advances (varDecls bound) := by
  intro bound
  induction bound with
  | zero => exact .refuse _
  | succ bound ih =>
      refine (advances_varDecl bound).bind fun _ => (Advances.expect (by decide)).bind fun _ =>
        (Advances.isAt _).bind fun more => ?_
      split
      · exact ih.bind fun _ => .pure _
      · exact .pure _

theorem advances_paramsOf (type : DataType) (position : Position) : ∀ names : List Variable,
    Advances (paramsOf type position names) := by
  intro names
  induction names with
  | nil => exact .pure []
  | cons name rest ih =>
      exact Advances.freshId.bind fun _ => Advances.freshId.bind fun _ => ih.bind fun _ => .pure _

theorem advances_paramGroup (bound : Nat) : Advances (paramGroup bound) :=
  advances_variables bound fun names typed => advances_paramsOf typed.1 typed.2 names

theorem advances_params (bound : Nat) : Advances (params bound) := by
  refine (Advances.accept (by decide)).bind fun found => ?_
  split
  · exact (advances_separated (advances_paramGroup bound) (by decide) bound).bind fun _ =>
      (Advances.expect (by decide)).bind fun _ => .pure _
  · exact .pure []

/-! ## Blocks and programs -/

theorem advances_procedureOf {block : Parse Block} (blocks : Advances block) (bound : Nat) :
    Advances (procedureOf block bound) :=
  (Advances.expect (by decide)).bind fun _ => (Advances.learn _).bind fun _ =>
    (advances_params bound).bind fun _ => (Advances.expect (by decide)).bind fun _ =>
      blocks.bind fun _ => (Advances.expect (by decide)).bind fun _ =>
        Advances.freshId.bind fun _ => .pure _

theorem advances_proceduresOf {block : Parse Block} (blocks : Advances block) (size : Nat) :
    ∀ bound : Nat, Advances (proceduresOf block size bound) := by
  intro bound
  induction bound with
  | zero => exact .pure []
  | succ bound ih =>
      refine (Advances.accept (by decide)).bind fun found => ?_
      split
      · exact (advances_procedureOf blocks size).bind fun _ => ih.bind fun _ => .pure _
      · exact .pure []

theorem advances_declarationsOf (bound : Nat) : Advances (declarationsOf bound) := by
  refine (Advances.accept (by decide)).bind fun found => ?_
  split
  · exact advances_varDecls bound
  · exact .pure []

theorem advances_block : ∀ bound : Nat, Advances (block bound) := by
  intro bound
  induction bound with
  | zero => exact .refuse _
  | succ bound ih =>
      rw [block_succ]
      exact (advances_declarationsOf bound).bind fun _ =>
        (advances_proceduresOf ih bound (bound + 1)).bind fun _ =>
          (advances_compoundOf (advances_statement bound) bound).bind fun _ =>
            Advances.freshId.bind fun _ => .pure _

theorem advances_program (bound : Nat) : Advances (program bound) := by
  refine (Advances.expect (by decide)).bind fun _ => (Advances.expect (by decide)).bind fun _ =>
    (Advances.expect (by decide)).bind fun _ => (advances_block bound).bind fun _ =>
      (Advances.isAt _).bind fun found => ?_
  split
  · exact Advances.freshId.bind fun _ => .pure _
  · exact .refuse _

end MiniPascal.Parser
