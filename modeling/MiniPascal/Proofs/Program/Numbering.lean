import Mathlib.Data.List.Perm.Basic
import MiniPascal.Proofs.Program.Soundness
import MiniPascal.Proofs.Scope.Listing

/-! # Numbers of nodes

Every node of a program gets the next free number of the session when the parser makes it. The
numbers of all nodes of a program are therefore those between the free number before and the free
number after, each of them once. -/
set_option autoImplicit false
namespace MiniPascal

/-- The numbers of the nodes of an expression. -/
def Expr.ids : Expr → List NodeId
  | .number id _ => [id]
  | .read source => [source.id]
  | .unary id _ operand _ => operand.ids ++ [id]
  | .binary id _ left right _ => left.ids ++ right.ids ++ [id]

mutual

def Statement.ids : Statement → List NodeId
  | .compound id statements => Statement.idsOf statements ++ [id]
  | .assignment id target value => target.id :: value.ids ++ [id]
  | .call id _ _ arguments => arguments.flatMap Expr.ids ++ [id]
  | .empty id => [id]

def Statement.idsOf : List Statement → List NodeId
  | [] => []
  | statement :: rest => statement.ids ++ Statement.idsOf rest

end

def Compound.ids (compound : Compound) : List NodeId :=
  Statement.idsOf compound.statements ++ [compound.id]

def VarDecl.ids (decl : VarDecl) : List NodeId :=
  decl.names.map Variable.id ++ [decl.typeSpec.id, decl.id]

def Param.ids (param : Param) : List NodeId :=
  [param.declared.id, param.typeSpec.id, param.id]

mutual

def Block.ids : Block → List NodeId
  | ⟨id, declarations, procedures, body⟩ =>
    declarations.flatMap VarDecl.ids ++ Procedure.idsOf procedures ++ body.ids ++ [id]

def Procedure.idsOf : List Procedure → List NodeId
  | [] => []
  | ⟨id, _, _, params, block⟩ :: rest =>
    params.flatMap Param.ids ++ block.ids ++ [id] ++ Procedure.idsOf rest

end

def Program.ids (program : Program) : List NodeId :=
  program.block.ids ++ [program.id]

theorem Statement.idsOf_eq_flatMap (statements : List Statement) :
    Statement.idsOf statements = statements.flatMap Statement.ids := by
  induction statements with
  | nil => rfl
  | cons statement rest ih => rw [idsOf, ih, List.flatMap_cons]

/-! ## Expressions and other nodes -/

mutual

/-- The expressions that a statement evaluates, in the order of the text. -/
def Statement.operands : Statement → List Expr
  | .compound _ statements => Statement.operandsOf statements
  | .assignment _ _ value => [value]
  | .call _ _ _ arguments => arguments
  | .empty _ => []

def Statement.operandsOf : List Statement → List Expr
  | [] => []
  | statement :: rest => statement.operands ++ Statement.operandsOf rest

end

/-- The numbers of all expression nodes in statements. -/
def Statement.expressionIds (statements : List Statement) : List NodeId :=
  (Statement.operandsOf statements).flatMap Expr.ids

mutual

/-- The numbers of the nodes of a statement that are no expressions. -/
def Statement.otherIds : Statement → List NodeId
  | .compound id statements => Statement.otherIdsOf statements ++ [id]
  | .assignment id target _ => [target.id, id]
  | .call id _ _ _ => [id]
  | .empty id => [id]

/-- The numbers of the nodes of several statements that are no expressions. -/
def Statement.otherIdsOf : List Statement → List NodeId
  | [] => []
  | statement :: rest => statement.otherIds ++ Statement.otherIdsOf rest

end

mutual

/-- The numbers of the nodes of a block that are no expressions. -/
def Block.otherIds : Block → List NodeId
  | ⟨id, declarations, procedures, body⟩ =>
    declarations.flatMap VarDecl.ids ++ Procedure.otherIdsOf procedures
      ++ Statement.otherIdsOf body.statements ++ [body.id, id]

/-- The numbers of the nodes of several procedures that are no expressions. -/
def Procedure.otherIdsOf : List Procedure → List NodeId
  | [] => []
  | ⟨id, _, _, params, block⟩ :: rest =>
    params.flatMap Param.ids ++ block.otherIds ++ [id] ++ Procedure.otherIdsOf rest

end

/-- The numbers of the nodes of a program that are no expressions: itself, its blocks and
declarations, its statements, and the variables that these declare or assign. -/
def Program.otherIds (program : Program) : List NodeId :=
  program.block.otherIds ++ [program.id]

mutual

theorem Statement.count_ids (node : NodeId) : ∀ statement : Statement,
    statement.ids.count node
      = statement.otherIds.count node + (statement.operands.flatMap Expr.ids).count node
  | .compound id statements => by
    simp only [Statement.ids, Statement.otherIds, Statement.operands, List.count_append,
      Statement.count_idsOf node statements, Statement.expressionIds]
    omega
  | .assignment id target value => by
    simp only [Statement.ids, Statement.otherIds, Statement.operands, List.count_append,
      List.count_cons, List.count_nil, List.flatMap_cons, List.flatMap_nil, List.append_nil]
    omega
  | .call id name position arguments => by
    simp only [Statement.ids, Statement.otherIds, Statement.operands, List.count_append]
    omega
  | .empty id => by simp [Statement.ids, Statement.otherIds, Statement.operands]

theorem Statement.count_idsOf (node : NodeId) : ∀ statements : List Statement,
    (Statement.idsOf statements).count node
      = (Statement.otherIdsOf statements).count node
        + (Statement.expressionIds statements).count node
  | [] => rfl
  | statement :: rest => by
    have later := Statement.count_idsOf node rest
    simp only [Statement.expressionIds] at later ⊢
    simp only [Statement.idsOf, Statement.otherIdsOf, Statement.operandsOf, List.flatMap_append,
      List.count_append, Statement.count_ids node statement, later]
    omega

end

mutual

theorem Block.count_ids (node : NodeId) (name : String) (parent : Option String)
    (params : List Param) (inherited : List Procedure) : ∀ block : Block,
    block.ids.count node = block.otherIds.count node
      + ((block.scopes name parent params inherited).flatMap fun scope =>
          Statement.expressionIds scope.statements).count node
  | ⟨id, declarations, procedures, body⟩ => by
    simp only [Block.ids, Block.otherIds, Block.scopes, Compound.ids, List.flatMap_cons,
      List.count_append, List.count_cons, List.count_nil,
      Statement.count_idsOf node body.statements,
      Procedure.count_idsOf node name inherited procedures]
    omega

theorem Procedure.count_idsOf (node : NodeId) (parent : String) (visible : List Procedure) :
    ∀ procedures : List Procedure,
    (Procedure.idsOf procedures).count node = (Procedure.otherIdsOf procedures).count node
      + ((Procedure.scopesOf parent visible procedures).flatMap fun scope =>
          Statement.expressionIds scope.statements).count node
  | [] => rfl
  | ⟨id, name, position, params, block⟩ :: rest => by
    let seen := visible ++ [⟨id, name, position, params, block⟩]
    have inner := Block.count_ids node name (some parent) params seen block
    have later := Procedure.count_idsOf node parent seen rest
    simp only [Procedure.idsOf, Procedure.otherIdsOf, Procedure.scopesOf, List.flatMap_append,
      List.count_append, inner, later, seen]
    omega

end

/-- The nodes of a program are the expressions in its scopes and the other nodes. -/
theorem Program.ids_perm (program : Program) :
    program.ids.Perm (program.otherIds ++ program.scopes.flatMap fun scope =>
      Statement.expressionIds scope.statements) := by
  apply List.perm_iff_count.mpr
  intro node
  simp only [Program.ids, Program.otherIds, Program.scopes, List.count_append,
    Block.count_ids node program.name none [] [] program.block]
  omega

/-! ## The parser's numbers -/

/-- If the parser succeeds then the numbers of what it yields are the given ones and those that it
has taken from the session. -/
def Parse.Numbers {α : Type} (given : List NodeId) (parser : Parse α) (ids : α → List NodeId) :
    Prop :=
  ∀ session value after, parser session = .ok value after →
    session.nextId ≤ after.nextId
      ∧ (ids value).Perm
        (given ++ List.range' session.nextId (after.nextId - session.nextId))

namespace Parse.Numbers

variable {α β : Type} {given more : List NodeId} {parser : Parse α} {further : α → Parse β}
  {ids : α → List NodeId} {ids' : β → List NodeId}

theorem pure {value : α} (same : (ids value).Perm given) :
    Numbers given (Pure.pure value) ids := by
  intro session result after done
  obtain ⟨rfl, rfl⟩ := pure_eq_ok done
  simpa using same

theorem bind (first : Numbers given parser ids)
    (second : ∀ value, Numbers (ids value) (further value) ids') :
    Numbers given (parser >>= further) ids' := by
  intro session result after done
  obtain ⟨value, between, begun, ended⟩ := bind_eq_ok done
  obtain ⟨before, one⟩ := first session value between begun
  obtain ⟨behind, two⟩ := second value between result after ended
  refine ⟨Nat.le_trans before behind, ?_⟩
  -- The numbers taken by the second parser go on where those of the first one end.
  have split : List.range' session.nextId (after.nextId - session.nextId)
      = List.range' session.nextId (between.nextId - session.nextId)
        ++ List.range' between.nextId (after.nextId - between.nextId) := by
    have lengths : after.nextId - session.nextId
        = (between.nextId - session.nextId) + (after.nextId - between.nextId) := by
      rw [Nat.add_comm, Nat.sub_add_sub_cancel behind before]
    have meets : session.nextId + (between.nextId - session.nextId) = between.nextId :=
      Nat.add_sub_cancel' before
    rw [lengths, ← List.range'_append_1, meets]
  rw [split, ← List.append_assoc]
  exact two.trans (one.append_right _)

theorem perm (numbers : Numbers given parser ids) (same : given.Perm more) :
    Numbers more parser ids := by
  intro session value after done
  obtain ⟨le, inside⟩ := numbers session value after done
  exact ⟨le, inside.trans (same.append_right _)⟩

/-- Numbers that were there before stay. -/
theorem under (numbers : Numbers given parser ids) (base : List NodeId) :
    Numbers (base ++ given) parser fun value => base ++ ids value := by
  intro session value after done
  obtain ⟨le, inside⟩ := numbers session value after done
  refine ⟨le, ?_⟩
  rw [List.append_assoc]
  exact inside.append_left base

/-- A parser with numbers of its own, and then another one. -/
theorem step (first : Numbers [] parser ids)
    (second : ∀ value, Numbers (given ++ ids value) (further value) ids') :
    Numbers given (parser >>= further) ids' := by
  have kept := first.under given
  rw [List.append_nil] at kept
  exact kept.bind second

/-- A parser that takes no numbers, and then another one. -/
theorem skip (first : Numbers [] parser fun _ => [])
    (second : ∀ value, Numbers given (further value) ids') :
    Numbers given (parser >>= further) ids' := by
  apply first.step
  intro value
  rw [List.append_nil]
  exact second value

theorem of_nextId (same : ∀ session value after, parser session = .ok value after →
    after.nextId = session.nextId) : Numbers [] parser fun _ => [] := by
  intro session value after done
  simp [same session value after done]

theorem consume : Numbers [] Session.consume fun _ => [] := by
  apply of_nextId
  intro session value after done
  rw [Session.consume] at done
  split at done
  · cases done
    rfl
  · split at done <;> cases done
    rfl

theorem currentToken : Numbers [] Session.currentToken fun _ => [] := by
  apply of_nextId
  intro session value after done
  cases done
  rfl

theorem isAt (kind : TokenKind) : Numbers [] (Session.isAt kind) fun _ => [] := by
  apply of_nextId
  intro session value after done
  cases done
  rfl

theorem isNext (kind : TokenKind) : Numbers [] (Session.isNext kind) fun _ => [] := by
  apply of_nextId
  intro session value after done
  rw [Session.isNext] at done
  split at done
  · cases done
    rfl
  · split at done <;> cases done
    rfl

theorem knows (name : String) : Numbers [] (Session.knows name) fun _ => [] := by
  apply of_nextId
  intro session value after done
  cases done
  rfl

theorem learn (name : String) : Numbers [] (Session.learn name) fun _ => [] := by
  apply of_nextId
  intro session value after done
  cases done
  rfl

theorem refuse (expected : Expectation) : Numbers given (Session.refuse expected) ids := by
  intro session value after done
  exact absurd done refuse_ne_ok

theorem throw (error : ParseError) : Numbers given (throw error : Parse α) ids := by
  intro session value after done
  cases done

theorem expect (kind : TokenKind) : Numbers [] (Session.expect kind) fun _ => [] := by
  rw [Session.expect]
  apply currentToken.skip
  intro token
  split
  · exact consume.skip fun _ => .pure .rfl
  · exact refuse _

theorem accept (kind : TokenKind) : Numbers [] (Session.accept kind) fun _ => [] := by
  rw [Session.accept]
  apply (isAt kind).skip
  intro found
  split
  · exact consume.skip fun _ => .pure .rfl
  · exact .pure .rfl

theorem freshId : Numbers [] Session.freshId fun id => [id] := by
  intro session value after done
  cases done
  simp

/-- A node is made of what has its numbers already, and takes one more. -/
theorem node {make : NodeId → α} (same : ∀ id, (ids (make id)).Perm (given ++ [id])) :
    Numbers given (do return make (← Session.freshId)) ids :=
  freshId.step fun id => .pure (same id)

end Parse.Numbers

namespace Parser

open Session Parse

theorem numbers_following {α : Type} {item : Parse α} {ids : α → List NodeId}
    (items : Numbers [] item ids) (separator : TokenKind) (bound : Nat) :
    Numbers [] (following item separator bound) fun values => values.flatMap ids := by
  induction bound with
  | zero => exact .pure .rfl
  | succ bound ih =>
      rw [following]
      apply (Numbers.accept separator).skip
      intro found
      split
      · apply items.step
        intro first
        exact ih.step fun rest => .pure .rfl
      · exact .pure .rfl

theorem numbers_separated {α : Type} {item : Parse α} {ids : α → List NodeId}
    (items : Numbers [] item ids) (separator : TokenKind) (bound : Nat) :
    Numbers [] (separated item separator bound) fun values => values.flatMap ids := by
  rw [separated]
  apply items.step
  intro first
  exact (numbers_following items separator bound).step fun rest => .pure .rfl

theorem numbers_variableName : Numbers [] variableName fun name => [name.id] := by
  rw [variableName]
  apply (Numbers.expect .identifier).skip
  intro name
  exact Numbers.freshId.step fun id => .pure .rfl

theorem numbers_chain {operator? : TokenKind → Option BinaryOperator} {operand : Parse Expr}
    (operands : Numbers [] operand Expr.ids) (bound : Nat) :
    ∀ left : Expr, Numbers left.ids (chain operator? operand bound left) Expr.ids := by
  induction bound with
  | zero => exact fun left => .pure .rfl
  | succ bound ih =>
      intro left
      rw [chain]
      apply Numbers.currentToken.skip
      intro token
      split
      · exact .pure .rfl
      · apply Numbers.consume.skip
        intro _
        apply operands.step
        intro right
        exact Numbers.freshId.step fun id => ih _

theorem numbers_term {factor : Parse Expr} (factors : Numbers [] factor Expr.ids) (bound : Nat) :
    Numbers [] (term factor bound) Expr.ids := by
  rw [term]
  exact factors.step (numbers_chain factors bound)

theorem numbers_sum {factor : Parse Expr} (factors : Numbers [] factor Expr.ids) (bound : Nat) :
    Numbers [] (sum factor bound) Expr.ids := by
  rw [sum]
  exact (numbers_term factors bound).step (numbers_chain (numbers_term factors bound) bound)

theorem numbers_signed {operand : Parse Expr} (operands : Numbers [] operand Expr.ids)
    (operator : UnaryOperator) : Numbers [] (signed operator operand) Expr.ids := by
  rw [signed]
  apply Numbers.currentToken.skip
  intro token
  apply Numbers.consume.skip
  intro _
  apply operands.step
  intro inner
  exact Numbers.freshId.step fun id => .pure .rfl

theorem numbers_integerLiteral : Numbers [] integerLiteral Expr.ids := by
  rw [integerLiteral]
  apply (Numbers.expect .integerConst).skip
  intro literal
  split
  · exact Numbers.node fun id => .rfl
  · exact Numbers.throw _

theorem numbers_realLiteral : Numbers [] realLiteral Expr.ids := by
  rw [realLiteral]
  apply (Numbers.expect .realConst).skip
  intro literal
  exact Numbers.node fun id => .rfl

theorem numbers_factor (bound : Nat) : Numbers [] (factor bound) Expr.ids := by
  induction bound with
  | zero => exact Numbers.refuse _
  | succ bound ih =>
      rw [factor]
      apply Numbers.currentToken.skip
      intro token
      split
      · exact numbers_signed ih .plus
      · exact numbers_signed ih .minus
      · exact numbers_integerLiteral
      · exact numbers_realLiteral
      · apply Numbers.consume.skip
        intro _
        apply (numbers_sum ih bound).step
        intro inner
        exact (Numbers.expect .parenthesisRight).skip fun _ => .pure .rfl
      · exact numbers_variableName.step fun name => .pure .rfl
      · exact Numbers.refuse _

theorem numbers_expression (bound : Nat) : Numbers [] (expression bound) Expr.ids :=
  numbers_sum (numbers_factor bound) bound

theorem numbers_emptyStatement : Numbers [] emptyStatement Statement.ids := by
  rw [emptyStatement]
  exact Numbers.node fun id => .rfl

theorem numbers_callWithArguments (bound : Nat) :
    Numbers [] (callWithArguments bound) Statement.ids := by
  rw [callWithArguments]
  apply (Numbers.expect .identifier).skip
  intro name
  apply (Numbers.expect .parenthesisLeft).skip
  intro _
  apply (numbers_separated (numbers_expression bound) .comma bound).step
  intro arguments
  apply (Numbers.expect .parenthesisRight).skip
  intro _
  exact Numbers.node fun id => .rfl

theorem numbers_bareCall : Numbers [] bareCall Statement.ids := by
  rw [bareCall]
  apply (Numbers.expect .identifier).skip
  intro name
  exact Numbers.node fun id => .rfl

theorem numbers_assignment (bound : Nat) : Numbers [] (assignment bound) Statement.ids := by
  rw [assignment]
  apply numbers_variableName.step
  intro target
  apply (Numbers.expect .assign).skip
  intro _
  apply (numbers_expression bound).step
  intro value
  exact Numbers.node fun id => .rfl

theorem numbers_compoundOf {statement : Parse Statement}
    (statements : Numbers [] statement Statement.ids) (bound : Nat) :
    Numbers [] (compoundOf statement bound) Compound.ids := by
  rw [compoundOf]
  apply (Numbers.expect .begin).skip
  intro _
  apply (numbers_separated statements .semicolon bound).step
  intro inner
  apply (Numbers.expect .finish).skip
  intro _
  apply Numbers.node
  intro id
  rw [Compound.ids, Statement.idsOf_eq_flatMap]
  exact .rfl

theorem numbers_named (bound : Nat) : Numbers [] (named bound) Statement.ids := by
  rw [named]
  apply (Numbers.isNext .parenthesisLeft).skip
  intro opens
  split
  · exact numbers_callWithArguments bound
  · apply (Numbers.isNext .assign).skip
    intro assigns
    split
    · exact numbers_assignment bound
    · apply Numbers.currentToken.skip
      intro token
      apply (Numbers.knows token.text).skip
      intro known
      split
      · exact numbers_bareCall
      · exact numbers_assignment bound

theorem numbers_statement (bound : Nat) : Numbers [] (statement bound) Statement.ids := by
  induction bound with
  | zero => exact numbers_emptyStatement
  | succ bound ih =>
      rw [statement]
      apply Numbers.currentToken.skip
      intro token
      split
      · exact (numbers_compoundOf ih bound).step fun body => .pure .rfl
      · exact numbers_named bound
      · exact numbers_emptyStatement

theorem numbers_dataType : Numbers [] dataType fun _ => [] := by
  rw [dataType]
  apply Numbers.currentToken.skip
  intro token
  split
  · exact Numbers.consume.skip fun _ => .pure .rfl
  · exact Numbers.consume.skip fun _ => .pure .rfl
  · exact Numbers.refuse _

theorem numbers_varDecl (bound : Nat) : Numbers [] (varDecl bound) VarDecl.ids := by
  rw [varDecl]
  apply (numbers_separated numbers_variableName .comma bound).step
  intro names
  apply (Numbers.expect .colon).skip
  intro _
  apply numbers_dataType.skip
  intro typed
  apply Numbers.freshId.step
  intro typeId
  apply Numbers.node
  intro id
  rw [VarDecl.ids, List.map_eq_flatMap]
  simp

theorem numbers_varDecls (bound : Nat) :
    Numbers [] (varDecls bound) fun decls => decls.flatMap VarDecl.ids := by
  induction bound with
  | zero => exact Numbers.refuse _
  | succ bound ih =>
      rw [varDecls]
      apply (numbers_varDecl bound).step
      intro first
      apply (Numbers.expect .semicolon).skip
      intro _
      apply (Numbers.isAt .identifier).skip
      intro another
      split
      · exact ih.step fun rest => .pure .rfl
      · exact .pure (by simp)

/-- The names of a group have their numbers before the first type of the group has one. -/
theorem numbers_paramsOf (dataType : DataType) (position : Position) (names : List Variable) :
    Numbers (names.map Variable.id) (paramsOf dataType position names)
      fun params => params.flatMap Param.ids := by
  induction names with
  | nil => exact .pure .rfl
  | cons declared rest ih =>
      rw [paramsOf]
      apply Numbers.freshId.step
      intro typeId
      apply Numbers.freshId.step
      intro id
      have sorted : ([declared.id, typeId, id] ++ rest.map Variable.id).Perm
          ((declared :: rest).map Variable.id ++ [typeId] ++ [id]) := by
        rw [List.append_assoc]
        have swapped : ([typeId, id] ++ rest.map Variable.id).Perm
            (rest.map Variable.id ++ [typeId, id]) := List.perm_append_comm
        exact swapped.cons declared.id
      exact (ih.under _).perm sorted |>.bind fun others => .pure .rfl

theorem numbers_paramGroup (bound : Nat) :
    Numbers [] (paramGroup bound) fun params => params.flatMap Param.ids := by
  rw [paramGroup]
  apply (numbers_separated numbers_variableName .comma bound).step
  intro names
  apply (Numbers.expect .colon).skip
  intro _
  apply numbers_dataType.skip
  intro typed
  have same : names.flatMap (fun name => [name.id]) = names.map Variable.id :=
    List.map_eq_flatMap.symm
  rw [List.nil_append, same]
  exact numbers_paramsOf typed.1 typed.2 names

theorem numbers_params (bound : Nat) :
    Numbers [] (params bound) fun params => params.flatMap Param.ids := by
  rw [params]
  apply (Numbers.accept .parenthesisLeft).skip
  intro found
  split
  · apply (numbers_separated (numbers_paramGroup bound) .semicolon bound).step
    intro groups
    apply (Numbers.expect .parenthesisRight).skip
    intro _
    apply Numbers.pure
    rw [List.nil_append, List.flatten_eq_flatMap, List.flatMap_assoc]
    exact .rfl
  · exact .pure .rfl

theorem numbers_procedureOf {block : Parse Block} (blocks : Numbers [] block Block.ids)
    (bound : Nat) : Numbers [] (procedureOf block bound) fun procedure =>
      procedure.params.flatMap Param.ids ++ procedure.block.ids ++ [procedure.id] := by
  rw [procedureOf]
  apply (Numbers.expect .identifier).skip
  intro name
  apply (Numbers.learn name.text).skip
  intro _
  apply (numbers_params bound).step
  intro params
  apply (Numbers.expect .semicolon).skip
  intro _
  apply blocks.step
  intro body
  apply (Numbers.expect .semicolon).skip
  intro _
  exact Numbers.node fun id => .rfl

theorem numbers_proceduresOf {block : Parse Block} (blocks : Numbers [] block Block.ids)
    (size bound : Nat) : Numbers [] (proceduresOf block size bound) Procedure.idsOf := by
  induction bound with
  | zero => exact .pure .rfl
  | succ bound ih =>
      rw [proceduresOf]
      apply (Numbers.accept .procedure).skip
      intro found
      split
      · apply (numbers_procedureOf blocks size).step
        intro first
        obtain ⟨id, name, position, params, body⟩ := first
        exact ih.step fun rest => .pure .rfl
      · exact .pure .rfl

theorem numbers_declarationsOf (bound : Nat) :
    Numbers [] (declarationsOf bound) fun decls => decls.flatMap VarDecl.ids := by
  rw [declarationsOf]
  apply (Numbers.accept .var).skip
  intro found
  split
  · exact numbers_varDecls bound
  · exact .pure .rfl

theorem numbers_block (bound : Nat) : Numbers [] (block bound) Block.ids := by
  induction bound with
  | zero => exact Numbers.refuse _
  | succ bound ih =>
      rw [block_succ]
      apply (numbers_declarationsOf bound).step
      intro declarations
      apply (numbers_proceduresOf ih bound (bound + 1)).step
      intro procedures
      apply (numbers_compoundOf (numbers_statement bound) bound).step
      intro body
      exact Numbers.node fun id => .rfl

theorem numbers_program (bound : Nat) : Numbers [] (program bound) Program.ids := by
  rw [program]
  apply (Numbers.expect .program).skip
  intro _
  apply (Numbers.expect .identifier).skip
  intro name
  apply (Numbers.expect .semicolon).skip
  intro _
  apply (numbers_block bound).step
  intro body
  apply (Numbers.isAt .dot).skip
  intro found
  split
  · exact Numbers.node fun id => .rfl
  · exact Numbers.refuse _

/-- The numbers of a program that was read are those that the session has given away for it. -/
theorem numbers_parse : Numbers [] parse Program.ids := by
  rw [parse]
  apply Numbers.consume.skip
  intro _ session value after done
  exact numbers_program session.bound session value after done

theorem nodup_ids_of_parse {session after : Session} {program : Program}
    (parsed : parse session = .ok program after) : program.ids.Nodup :=
  ((numbers_parse session program after parsed).2.nodup_iff).mpr List.nodup_range'

end Parser
end MiniPascal
