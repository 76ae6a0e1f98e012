import Mathlib.Logic.Basic
import MiniPascal.Proofs.Program.Soundness
import MiniPascal.Proofs.Program.Taking

/-! # What every parser takes

One lemma for each parser: as long as there is less to come than its bound, it takes a part of it
and the same parser with any larger bound takes the same part, whatever else is to come. -/
set_option autoImplicit false
namespace MiniPascal.Parser

open Session
open Parse (Takes TakesFrom Moves)

variable {α : Type} {item item' : Parse α} {size bound bound' : Nat} {current : Token}

theorem takes_following {separator : TokenKind} (more : separator ≠ .endOfFile) :
    ∀ {bound bound' : Nat}, bound ≤ bound' → Takes bound item item' →
      Takes bound (following item separator bound) (following item' separator bound') := by
  intro bound
  -- Nothing is claimed for the bound zero: no session has fewer outcomes to come.
  induction bound with
  | zero => exact fun _ _ _ _ short => absurd short (Nat.not_lt_zero _)
  | succ bound ih =>
      intro bound' larger items
      obtain ⟨bound', rfl⟩ := Nat.exists_eq_add_of_lt larger
      rw [following, following]
      apply Takes.accept more (Nat.le_refl _)
      · apply (items.shrink (Nat.le_succ _)).bind
        intro first
        exact (ih (by omega) (items.shrink (Nat.le_succ _))).bind fun rest => .pure _
      · exact .pure _

theorem takes_separated {separator : TokenKind} (more : separator ≠ .endOfFile)
    (larger : bound ≤ bound') (items : Takes bound item item') :
    Takes bound (separated item separator bound) (separated item' separator bound') :=
  items.bind fun _ => (takes_following more larger items).bind fun _ => .pure _

/-- The first item is behind the session before others are looked for. -/
theorem moves_separated {separator : TokenKind} (more : separator ≠ .endOfFile)
    (larger : bound ≤ bound') (items : Moves (bound + 1) item item') :
    Moves (bound + 1) (separated item separator bound) (separated item' separator bound') :=
  items.step (Nat.le_refl _) fun _ =>
    (takes_following more larger (items.takes.shrink (Nat.le_succ _))).bind fun _ => .pure _

theorem moves_variableName : Moves size variableName variableName :=
  (Moves.expect (by decide)).step (Nat.le_succ _) fun _ => Takes.freshId.bind fun _ => .pure _

/-! ## Expressions -/

theorem takes_chain {operator? : TokenKind → Option BinaryOperator} {operand operand' : Parse Expr}
    (ended : operator? .endOfFile = none) : ∀ {bound bound' : Nat}, bound ≤ bound' →
      Takes bound operand operand' → ∀ left : Expr, Takes bound
        (chain operator? operand bound left) (chain operator? operand' bound' left) := by
  intro bound
  induction bound with
  | zero => exact fun _ _ _ _ _ short => absurd short (Nat.not_lt_zero _)
  | succ bound ih =>
      intro bound' larger operands left
      obtain ⟨bound', rfl⟩ := Nat.exists_eq_add_of_lt larger
      rw [chain, chain]
      apply Takes.currentToken
      intro token
      cases found : operator? token.kind with
      | none => exact (Takes.pure _).anywhere
      | some operator =>
          have more : token.kind ≠ .endOfFile := by
            intro last
            rw [last, ended] at found
            cases found
          apply TakesFrom.consume more (Nat.le_refl _)
          apply (operands.shrink (Nat.le_succ _)).bind
          intro right
          exact Takes.freshId.bind fun id =>
            ih (by omega) (operands.shrink (Nat.le_succ _)) _

theorem takes_term {factor factor' : Parse Expr} (larger : bound ≤ bound')
    (factors : Takes bound factor factor') :
    Takes bound (term factor bound) (term factor' bound') :=
  factors.bind (takes_chain rfl larger factors)

theorem takes_sum {factor factor' : Parse Expr} (larger : bound ≤ bound')
    (factors : Takes bound factor factor') :
    Takes bound (sum factor bound) (sum factor' bound') :=
  (takes_term larger factors).bind (takes_chain rfl larger (takes_term larger factors))

theorem takes_signed {operand operand' : Parse Expr} (more : current.kind ≠ .endOfFile)
    (operands : Takes size operand operand') (operator : UnaryOperator) :
    TakesFrom current (size + 1) (signed operator operand) (signed operator operand') := by
  apply TakesFrom.currentToken
  apply TakesFrom.consume more (Nat.le_refl _)
  apply operands.bind
  intro inner
  exact Takes.freshId.bind fun id => .pure _

/-- A literal that is too large is refused once the parser is behind the token that follows it. -/
theorem taken_integerLiteral_of_none {session : Session} (ready : session.Ready)
    (kind : session.current.kind = .integerConst)
    (large : Number.ofIntegerLiteral? session.current.text = none) :
    Taken session integerLiteral (integerLiteral session) := by
  have refused : ∀ (before : Session) {token rest}, before.current = session.current →
      before.lookahead = none → before.stream.pending = .ok token :: rest →
        integerLiteral before
          = .error (.invalidLiteral session.current) (before.moved token rest) := by
    intro before token rest same free pending
    rw [integerLiteral, Parse.bind_eq (expect_of_ok (same ▸ kind) free pending), same]
    simp only [large]
    rfl
  have overtaken : ∀ (before : Session) {error rest}, before.current = session.current →
      before.lookahead = none → before.stream.pending = .error error :: rest →
        integerLiteral before = .error (.lexical error) (before.awaiting rest) := by
    intro before error rest same free pending
    exact Parse.bind_eq_error (expect_of_error (same ▸ kind) free pending)
  have more : session.current.kind ≠ .endOfFile := kind ▸ by decide
  obtain ⟨outcome, rest, pending⟩ := ready.exists_cons more
  cases outcome with
  | error error =>
      rw [overtaken session rfl ready.free pending]
      refine .stopped [.error error] pending (ready.awaiting pending) more fun others => ?_
      exact ⟨_, overtaken _ rfl ready.free rfl⟩
  | ok token =>
      rw [refused session rfl ready.free pending]
      refine .refused [] pending (ready.moved pending) (fun token others => ?_)
        fun error others => ?_
      · exact ⟨_, refused _ rfl ready.free rfl⟩
      · exact ⟨_, overtaken _ rfl ready.free rfl⟩

theorem takes_integerLiteral : Takes size integerLiteral integerLiteral := by
  intro session ready short
  -- Any other literal is an expected token and a node, and only this one is refused late.
  by_cases large : session.current.kind = .integerConst
      ∧ Number.ofIntegerLiteral? session.current.text = none
  · exact taken_integerLiteral_of_none ready large.1 large.2
  · refine ((Moves.expect (by decide)).takes session ready short).bind ?_
    intro literal after done ready' shorter
    obtain ⟨rfl, kind⟩ := current_of_expect done
    cases read : Number.ofIntegerLiteral? session.current.text with
    | none => exact absurd ⟨kind, read⟩ large
    | some value =>
        have node : Takes size (do return Expr.number (← freshId) value)
            (do return Expr.number (← freshId) value) := Takes.freshId.bind fun id => .pure _
        exact node after ready' (Nat.lt_of_le_of_lt shorter short)

theorem takes_realLiteral : Takes size realLiteral realLiteral :=
  (Moves.expect (by decide)).takes.bind fun _ => Takes.freshId.bind fun _ => .pure _

theorem takes_factor : ∀ {bound bound' : Nat}, bound ≤ bound' →
    Takes bound (factor bound) (factor bound') := by
  intro bound
  induction bound with
  | zero => exact fun _ _ _ short => absurd short (Nat.not_lt_zero _)
  | succ bound ih =>
      intro bound' larger
      obtain ⟨bound', rfl⟩ := Nat.exists_eq_add_of_lt larger
      have factors : Takes bound (factor bound) (factor (bound + bound')) :=
        ih (Nat.le_add_right _ _)
      rw [factor, factor]
      apply Takes.currentToken
      intro token
      split
      · exact takes_signed (Eq.trans_ne ‹_› (by decide)) factors .plus
      · exact takes_signed (Eq.trans_ne ‹_› (by decide)) factors .minus
      · exact takes_integerLiteral.anywhere
      · exact takes_realLiteral.anywhere
      · apply TakesFrom.consume (Eq.trans_ne ‹_› (by decide)) (Nat.le_refl _)
        apply (takes_sum (Nat.le_add_right _ _) factors).bind
        intro inner
        exact (Moves.expect (by decide)).takes.bind fun _ => .pure _
      · exact (moves_variableName.takes.bind fun _ => .pure _).anywhere
      · exact (Takes.refuse _).anywhere

theorem takes_expression (larger : bound ≤ bound') :
    Takes bound (expression bound) (expression bound') :=
  takes_sum larger (takes_factor larger)

/-! ## Statements -/

theorem takes_emptyStatement : Takes size emptyStatement emptyStatement :=
  Takes.freshId.bind fun _ => .pure _

/-- A call with arguments behind the name. -/
def callBehind (bound : Nat) (name : Token) : Parse Statement := do
  let _ ← expect .parenthesisLeft
  let arguments ← separated (expression bound) .comma bound
  let _ ← expect .parenthesisRight
  return .call (← freshId) name.text name.start arguments

/-- A call without arguments behind the name. -/
def callAlone (name : Token) : Parse Statement := do
  return .call (← freshId) name.text name.start []

/-- An assignment behind the name. -/
def assignmentBehind (bound : Nat) (name : Token) : Parse Statement := do
  let id ← freshId
  let _ ← expect .assign
  let value ← expression bound
  return .assignment (← freshId) ⟨id, name.text, name.start⟩ value

/-- What a name begins, behind the name: the kind of the next token decides, and whether the name is
a known procedure's. -/
def namedBehind (bound : Nat) (next : TokenKind) (known : Bool) (name : Token) :
    Parse Statement :=
  if next = .parenthesisLeft then callBehind bound name
  else if next = .assign then assignmentBehind bound name
  else if known then callAlone name
  else assignmentBehind bound name

/-- The token that is looked at in advance is taken right after the name. -/
theorem named_of_ok {session : Session} {token : Token} {rest : List (Except LexError Token)}
    (kind : session.current.kind = .identifier) (free : session.lookahead = none)
    (pending : session.stream.pending = .ok token :: rest) : named bound session
      = namedBehind bound token.kind (session.procedures.contains session.current.text)
        session.current (session.moved token rest) := by
  -- Both looks ahead leave the session here, whatever kind they ask for.
  let looked : Session :=
    { session with stream := ⟨rest, token :: session.stream.taken⟩, lookahead := some token }
  have next : ∀ kind, isNext kind session = .ok (decide (token.kind = kind)) looked := by
    intro kind
    obtain ⟨⟨_, taken⟩, read, _, nextId, procedures⟩ := session
    subst free pending
    rfl
  have again : ∀ kind, isNext kind looked = .ok (decide (token.kind = kind)) looked := fun _ => rfl
  have name : expect .identifier looked = .ok session.current (session.moved token rest) := by
    rw [expect, Parse.bind_eq (show currentToken looked = .ok session.current looked from rfl)]
    obtain ⟨⟨_, taken⟩, read, _, nextId, procedures⟩ := session
    subst free pending
    simp only [if_pos kind]
    rfl
  have assigns : assignment bound looked
      = assignmentBehind bound session.current (session.moved token rest) := by
    have target : variableName looked
        = .ok ⟨session.nextId, session.current.text, session.current.start⟩
          { session.moved token rest with nextId := session.nextId + 1 } :=
      Parse.bind_eq name
    exact Parse.bind_eq target
  rw [named, Parse.bind_eq (next _), namedBehind]
  by_cases opens : token.kind = .parenthesisLeft
  · simp only [opens, decide_true, if_true]
    exact Parse.bind_eq name
  · simp only [opens, decide_false, Bool.false_eq_true, if_false]
    rw [Parse.bind_eq (again _)]
    by_cases assign : token.kind = .assign
    · simp only [assign, decide_true, if_true]
      exact assigns
    · simp only [assign, decide_false, Bool.false_eq_true, if_false]
      rw [Parse.bind_eq (show currentToken looked = .ok session.current looked from rfl),
        Parse.bind_eq (show knows session.current.text looked
          = .ok (session.procedures.contains session.current.text) looked from rfl)]
      cases session.procedures.contains session.current.text with
      | true => exact Parse.bind_eq name
      | false => exact assigns

theorem named_of_error {session : Session} {error : LexError}
    {rest : List (Except LexError Token)} (free : session.lookahead = none)
    (pending : session.stream.pending = .error error :: rest) :
    named bound session = .error (.lexical error) (session.awaiting rest) := by
  apply Parse.bind_eq_error
  obtain ⟨⟨_, taken⟩, read, _, nextId, procedures⟩ := session
  subst free pending
  rfl

theorem takes_namedBehind (larger : bound ≤ bound') (next : TokenKind) (known : Bool)
    (name : Token) : Takes bound (namedBehind bound next known name)
      (namedBehind bound' next known name) := by
  have call : Takes bound (callBehind bound name) (callBehind bound' name) := by
    apply (Moves.expect (by decide)).takes.bind
    intro _
    apply (takes_separated (by decide) larger (takes_expression larger)).bind
    intro arguments
    apply (Moves.expect (by decide)).takes.bind
    exact fun _ => Takes.freshId.bind fun id => .pure _
  have alone : Takes bound (callAlone name) (callAlone name) := Takes.freshId.bind fun id => .pure _
  have assignment : Takes bound (assignmentBehind bound name) (assignmentBehind bound' name) := by
    apply Takes.freshId.bind
    intro id
    apply (Moves.expect (by decide)).takes.bind
    intro _
    apply (takes_expression larger).bind
    exact fun value => Takes.freshId.bind fun id => .pure _
  rw [namedBehind, namedBehind]
  split
  · exact call
  · split
    · exact assignment
    · split
      · exact alone
      · exact assignment

theorem takes_named (larger : bound ≤ bound') (kind : current.kind = .identifier) :
    TakesFrom current (bound + 1) (named bound) (named bound') := by
  intro session ready same short
  subst same
  have more : session.current.kind ≠ .endOfFile := kind ▸ by decide
  obtain ⟨outcome, rest, pending⟩ := ready.exists_cons more
  cases outcome with
  | error error =>
      rw [named_of_error ready.free pending]
      refine .stopped [.error error] pending (ready.awaiting pending) more fun others => ?_
      exact ⟨_, named_of_error ready.free rfl⟩
  | ok token =>
      rw [named_of_ok kind ready.free pending]
      have behind := takes_namedBehind larger token.kind
        (session.procedures.contains session.current.text) session.current
        (session.moved token rest) (ready.moved pending) (by
          rw [pending, List.length_cons] at short
          exact Nat.lt_of_succ_lt_succ short)
      exact behind.cons pending fun others => named_of_ok kind ready.free rfl

theorem moves_compoundOf {statement statement' : Parse Statement} (larger : bound ≤ bound')
    (statements : Takes bound statement statement') :
    Moves (bound + 1) (compoundOf statement bound) (compoundOf statement' bound') := by
  rw [compoundOf, compoundOf]
  apply (Moves.expect (by decide)).step (Nat.le_refl _)
  intro _
  apply (takes_separated (by decide) larger statements).bind
  intro inner
  apply (Moves.expect (by decide)).takes.bind
  exact fun _ => Takes.freshId.bind fun id => .pure _

theorem takes_statement : ∀ {bound bound' : Nat}, bound ≤ bound' →
    Takes bound (statement bound) (statement bound') := by
  intro bound
  induction bound with
  | zero => exact fun _ _ _ short => absurd short (Nat.not_lt_zero _)
  | succ bound ih =>
      intro bound' larger
      obtain ⟨bound', rfl⟩ := Nat.exists_eq_add_of_lt larger
      have le : bound ≤ bound + bound' := Nat.le_add_right _ _
      rw [statement, statement]
      apply Takes.currentToken
      intro token
      split
      · exact ((moves_compoundOf le (ih le)).takes.bind fun body => .pure _).anywhere
      · exact takes_named le ‹_›
      · exact takes_emptyStatement.anywhere

/-! ## Declarations -/

theorem takes_dataType : Takes size dataType dataType := by
  rw [dataType]
  apply Takes.currentToken
  intro token
  split
  · exact TakesFrom.consume (Eq.trans_ne ‹_› (by decide)) (Nat.le_succ _) (.pure _)
  · exact TakesFrom.consume (Eq.trans_ne ‹_› (by decide)) (Nat.le_succ _) (.pure _)
  · exact (Takes.refuse _).anywhere

theorem moves_varDecl (larger : bound ≤ bound') :
    Moves (bound + 1) (varDecl bound) (varDecl bound') := by
  rw [varDecl, varDecl]
  apply (moves_separated (by decide) larger moves_variableName).step (Nat.le_succ _)
  intro names
  apply (Moves.expect (by decide)).takes.bind
  intro _
  apply takes_dataType.bind
  intro typed
  apply Takes.freshId.bind
  intro typeId
  exact Takes.freshId.bind fun id => .pure _

theorem takes_varDecls : ∀ {bound bound' : Nat}, bound ≤ bound' →
    Takes bound (varDecls bound) (varDecls bound') := by
  intro bound
  induction bound with
  | zero => exact fun _ _ _ short => absurd short (Nat.not_lt_zero _)
  | succ bound ih =>
      intro bound' larger
      obtain ⟨bound', rfl⟩ := Nat.exists_eq_add_of_lt larger
      have le : bound ≤ bound + bound' := Nat.le_add_right _ _
      rw [varDecls, varDecls]
      apply Moves.takes
      apply (moves_varDecl le).step (Nat.le_refl _)
      intro first
      apply (Moves.expect (by decide)).takes.bind
      intro _
      apply (Takes.isAt _).bind
      intro another
      cases another with
      | true => exact (ih le).bind fun rest => .pure _
      | false => exact .pure _

theorem takes_paramsOf (dataType : DataType) (position : Position) (names : List Variable) :
    Takes size (paramsOf dataType position names) (paramsOf dataType position names) := by
  induction names with
  | nil => exact .pure _
  | cons declared rest ih =>
      rw [paramsOf]
      apply Takes.freshId.bind
      intro typeId
      apply Takes.freshId.bind
      intro id
      exact ih.bind fun others => .pure _

theorem takes_paramGroup (larger : bound ≤ bound') :
    Takes bound (paramGroup bound) (paramGroup bound') := by
  rw [paramGroup, paramGroup]
  apply (takes_separated (by decide) larger moves_variableName.takes).bind
  intro names
  apply (Moves.expect (by decide)).takes.bind
  intro _
  apply takes_dataType.bind
  intro typed
  exact takes_paramsOf typed.1 typed.2 names

theorem takes_params (larger : bound ≤ bound') : Takes bound (params bound) (params bound') := by
  rw [params, params]
  apply Takes.accept (by decide) (Nat.le_succ _)
  · apply (takes_separated (by decide) larger (takes_paramGroup larger)).bind
    intro groups
    exact (Moves.expect (by decide)).takes.bind fun _ => .pure _
  · exact .pure _

theorem takes_procedureOf {block block' : Parse Block} (larger : bound ≤ bound')
    (blocks : Takes bound block block') :
    Takes bound (procedureOf block bound) (procedureOf block' bound') := by
  rw [procedureOf, procedureOf]
  apply (Moves.expect (by decide)).takes.bind
  intro name
  apply (Takes.learn name.text).bind
  intro _
  apply (takes_params larger).bind
  intro params
  apply (Moves.expect (by decide)).takes.bind
  intro _
  apply blocks.bind
  intro body
  apply (Moves.expect (by decide)).takes.bind
  exact fun _ => Takes.freshId.bind fun id => .pure _

theorem takes_proceduresOf {block block' : Parse Block} {size size' : Nat}
    (blocks : Takes size block block') (larger : size ≤ size') : ∀ {bound bound' : Nat},
      bound ≤ bound' → bound ≤ size + 1 → Takes bound (proceduresOf block size bound)
        (proceduresOf block' size' bound') := by
  intro bound
  induction bound with
  | zero => exact fun _ _ _ _ short => absurd short (Nat.not_lt_zero _)
  | succ bound ih =>
      intro bound' more fits
      obtain ⟨bound', rfl⟩ := Nat.exists_eq_add_of_lt more
      rw [proceduresOf, proceduresOf]
      apply Takes.accept (by decide) (Nat.le_refl _)
      · apply ((takes_procedureOf larger blocks).shrink (Nat.le_of_succ_le_succ fits)).bind
        intro first
        exact (ih (Nat.le_add_right _ _) (Nat.le_of_succ_le fits)).bind fun rest => .pure _
      · exact .pure _

theorem takes_declarationsOf (larger : bound ≤ bound') :
    Takes (bound + 1) (declarationsOf bound) (declarationsOf bound') := by
  rw [declarationsOf, declarationsOf]
  exact Takes.accept (by decide) (Nat.le_refl _) (takes_varDecls larger) (.pure _)

theorem takes_block : ∀ {bound bound' : Nat}, bound ≤ bound' →
    Takes bound (block bound) (block bound') := by
  intro bound
  induction bound with
  | zero => exact fun _ _ _ short => absurd short (Nat.not_lt_zero _)
  | succ bound ih =>
      intro bound' larger
      obtain ⟨bound', rfl⟩ := Nat.exists_eq_add_of_lt larger
      have le : bound ≤ bound + bound' := Nat.le_add_right _ _
      rw [block_succ, block_succ]
      apply (takes_declarationsOf le).bind
      intro declarations
      apply (takes_proceduresOf (ih le) le (Nat.succ_le_succ le) (Nat.le_refl _)).bind
      intro procedures
      apply (moves_compoundOf le (takes_statement le)).takes.bind
      exact fun body => Takes.freshId.bind fun id => .pure _

theorem takes_program (larger : bound ≤ bound') :
    Takes bound (program bound) (program bound') := by
  rw [program, program]
  apply (Moves.expect (by decide)).takes.bind
  intro _
  apply (Moves.expect (by decide)).takes.bind
  intro name
  apply (Moves.expect (by decide)).takes.bind
  intro _
  apply (takes_block larger).bind
  intro body
  apply (Takes.isAt .dot).bind
  intro found
  cases found with
  | true => exact Takes.freshId.bind fun id => .pure _
  | false => exact .refuse _

/-! ## Whole texts -/

variable {source other : String} {token : Token} {rest rest' : List (Except LexError Token)}

theorem parse_of_ok (outcomes : Lexer.outcomes source = .ok token :: rest) :
    parse (Session.ofString source)
      = program (rest.length + 2) ((Session.ofString source).moved token rest) := by
  rw [parse, Parse.bind_eq (consume_of_ok rfl outcomes)]
  rfl

theorem parse_of_error {error : LexError}
    (outcomes : Lexer.outcomes source = .error error :: rest) : parse (Session.ofString source)
      = .error (.lexical error) ((Session.ofString source).awaiting rest) :=
  Parse.bind_eq_error (consume_of_error rfl outcomes)

/-- What is taken of the outcomes of a text behind its first token, and what is done with those of
another one that begins with the same token and has no fewer outcomes. -/
theorem taken_parse (outcomes : Lexer.outcomes source = .ok token :: rest)
    (closed : Closed (.ok token :: rest)) (outcomes' : Lexer.outcomes other = .ok token :: rest')
    (larger : rest.length ≤ rest'.length) : ∃ (start : Session) (second : Parse Program),
      start.stream.pending = rest ∧ Taken start second (parse (Session.ofString source))
        ∧ parse (Session.ofString other) = second (start.awaiting rest') := by
  refine ⟨(Session.ofString source).moved token rest, program (rest'.length + 2), rfl, ?_, ?_⟩
  · rw [parse_of_ok outcomes]
    have ready : ((Session.ofString source).moved token rest).Ready := ⟨rfl, closed⟩
    exact takes_program (Nat.add_le_add_right larger 2) _ ready
      (Nat.lt_of_lt_of_le (Nat.lt_succ_self _) (Nat.le_succ _))
  · rw [parse_of_ok outcomes']
    rfl

end MiniPascal.Parser
