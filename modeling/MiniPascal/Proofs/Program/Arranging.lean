import MiniPascal.Proofs.Program.Nodes
import MiniPascal.Proofs.Program.ParsingKept

/-! # The order of nodes

The parser makes children before their parents and siblings from the left. The numbers of nodes are
those between the free number of the session before and the one after, so every node has a larger
number than its children and these have increasing ones. The free number never becomes smaller,
also where a parse fails: no two programs of one parser share a number. -/
set_option autoImplicit false
namespace MiniPascal

/-- If a node made before the parser could have the given numbers as children, whatever others in
front of them, then one made behind it can have those of the nodes on top of what the parser yields.
All nodes of that are in order. -/
def Parse.Arranges {α : Type} (given : List NodeId) (parser : Parse α) (roots : α → List NodeId)
    (nodes : α → List Node) : Prop :=
  ∀ session value after, parser session = .ok value after → ∀ before : List NodeId,
    (Node.mk session.nextId (before ++ given)).Ordered →
      (Node.mk after.nextId (before ++ roots value)).Ordered ∧ ∀ node ∈ nodes value, node.Ordered

namespace Parse.Arranges

variable {α β : Type} {given : List NodeId} {parser : Parse α} {further : α → Parse β}
  {roots : α → List NodeId} {roots' : β → List NodeId} {nodes : α → List Node}
  {nodes' : β → List Node}

theorem pure {value : α} (among : (roots value).Sublist given)
    (ordered : ∀ node ∈ nodes value, node.Ordered) :
    Arranges given (Pure.pure value) roots nodes := by
  intro session result after done before elders
  obtain ⟨rfl, rfl⟩ := pure_eq_ok done
  exact ⟨elders.sublist (among.append_left before), ordered⟩

/-- A parser with nodes of its own behind the given ones, and then another one. -/
theorem step (first : Arranges [] parser roots nodes)
    (second : ∀ value, (∀ node ∈ nodes value, node.Ordered) →
      Arranges (given ++ roots value) (further value) roots' nodes') :
    Arranges given (parser >>= further) roots' nodes' := by
  intro session result after done before elders
  obtain ⟨value, between, begun, ended⟩ := bind_eq_ok done
  obtain ⟨middle, ordered⟩ := first session value between begun (before ++ given)
    (by rwa [List.append_nil])
  exact second value ordered between result after ended before (by rwa [← List.append_assoc])

/-- A parser that takes no numbers, and then another one. -/
theorem skip (first : Numbers [] parser fun _ => [])
    (second : ∀ value, Arranges given (further value) roots' nodes') :
    Arranges given (parser >>= further) roots' nodes' := by
  intro session result after done before elders
  obtain ⟨value, between, begun, ended⟩ := bind_eq_ok done
  exact second value between result after ended before
    (elders.mono (first session value between begun).1)

theorem refuse (expected : Expectation) : Arranges given (Session.refuse expected) roots nodes := by
  intro session value after done
  exact absurd done refuse_ne_ok

theorem throw (error : ParseError) : Arranges given (throw error : Parse α) roots nodes := by
  intro session value after done
  cases done

theorem freshId : Arranges [] Session.freshId (fun id => [id]) fun id => [.leaf id] := by
  intro session id after done before elders
  cases done
  rw [List.append_nil] at elders
  exact ⟨elders.succ, List.forall_mem_singleton.mpr (Node.ordered_leaf _)⟩

/-- A node takes the place of its children. -/
theorem parent {further : NodeId → Parse β}
    (second : ∀ id, (Node.mk id given).Ordered → Arranges [id] (further id) roots' nodes') :
    Arranges given (Session.freshId >>= further) roots' nodes' := by
  intro session result after done before elders
  obtain ⟨id, between, fresh, ended⟩ := bind_eq_ok done
  cases fresh
  have own := elders.sublist (List.sublist_append_right before given)
  have others := elders.sublist (List.sublist_append_left before given)
  exact second session.nextId own _ result after ended before others.succ

theorem node {make : NodeId → α} (on : ∀ id, roots (make id) = [id])
    (ordered : ∀ id, (Node.mk id given).Ordered → ∀ node ∈ nodes (make id), node.Ordered) :
    Arranges given (do return make (← Session.freshId)) roots nodes :=
  parent fun id one => .pure (by rw [on]) (ordered id one)

end Parse.Arranges

theorem Node.forall_mem_flatMap {α : Type} {nodes : α → List Node} {first : α} {rest : List α}
    (one : ∀ node ∈ nodes first, node.Ordered)
    (others : ∀ node ∈ rest.flatMap nodes, node.Ordered) :
    ∀ node ∈ (first :: rest).flatMap nodes, node.Ordered := by
  rw [List.flatMap_cons]
  exact List.forall_mem_append.mpr ⟨one, others⟩

namespace Parser

open Session Parse

theorem arranges_following {α : Type} {item : Parse α} {roots : α → List NodeId}
    {nodes : α → List Node} (items : Arranges [] item roots nodes) (separator : TokenKind)
    (bound : Nat) : Arranges [] (following item separator bound)
      (fun values => values.flatMap roots) fun values => values.flatMap nodes := by
  induction bound with
  | zero => exact .pure .slnil (List.forall_mem_nil _)
  | succ bound ih =>
      rw [following]
      apply Arranges.skip (Numbers.accept separator)
      intro found
      split
      · apply items.step
        intro first one
        apply ih.step
        intro rest others
        exact .pure (.refl _) (Node.forall_mem_flatMap one others)
      · exact .pure .slnil (List.forall_mem_nil _)

theorem arranges_separated {α : Type} {item : Parse α} {roots : α → List NodeId}
    {nodes : α → List Node} (items : Arranges [] item roots nodes) (separator : TokenKind)
    (bound : Nat) : Arranges [] (separated item separator bound)
      (fun values => values.flatMap roots) fun values => values.flatMap nodes := by
  rw [separated]
  apply items.step
  intro first one
  apply (arranges_following items separator bound).step
  intro rest others
  exact .pure (.refl _) (Node.forall_mem_flatMap one others)

theorem arranges_variableName :
    Arranges [] variableName (fun name => [name.id]) fun name => [.leaf name.id] := by
  rw [variableName]
  apply Arranges.skip (Numbers.expect .identifier)
  intro name
  exact Arranges.freshId.step fun id leaf => .pure (.refl _) leaf

theorem arranges_chain {operator? : TokenKind → Option BinaryOperator} {operand : Parse Expr}
    (operands : Arranges [] operand (fun expr => [expr.id]) Expr.nodes) (bound : Nat) :
    ∀ left : Expr, (∀ node ∈ left.nodes, node.Ordered) →
      Arranges [left.id] (chain operator? operand bound left) (fun expr => [expr.id])
        Expr.nodes := by
  induction bound with
  | zero => exact fun left ordered => .pure (.refl _) ordered
  | succ bound ih =>
      intro left first
      rw [chain]
      apply Arranges.skip Numbers.currentToken
      intro token
      split
      · exact .pure (.refl _) first
      · apply Arranges.skip Numbers.consume
        intro _
        apply operands.step
        intro right second
        apply Arranges.parent
        intro id ordered
        apply ih
        simp only [Expr.nodes, List.forall_mem_append, List.forall_mem_singleton]
        exact ⟨⟨first, second⟩, ordered⟩

theorem arranges_term {factor : Parse Expr}
    (factors : Arranges [] factor (fun expr => [expr.id]) Expr.nodes) (bound : Nat) :
    Arranges [] (term factor bound) (fun expr => [expr.id]) Expr.nodes := by
  rw [term]
  exact factors.step (arranges_chain factors bound)

theorem arranges_sum {factor : Parse Expr}
    (factors : Arranges [] factor (fun expr => [expr.id]) Expr.nodes) (bound : Nat) :
    Arranges [] (sum factor bound) (fun expr => [expr.id]) Expr.nodes := by
  rw [sum]
  exact (arranges_term factors bound).step (arranges_chain (arranges_term factors bound) bound)

theorem arranges_signed {operand : Parse Expr}
    (operands : Arranges [] operand (fun expr => [expr.id]) Expr.nodes)
    (operator : UnaryOperator) :
    Arranges [] (signed operator operand) (fun expr => [expr.id]) Expr.nodes := by
  rw [signed]
  apply Arranges.skip Numbers.currentToken
  intro token
  apply Arranges.skip Numbers.consume
  intro _
  apply operands.step
  intro inner first
  apply Arranges.node fun _ => rfl
  intro id ordered
  exact List.forall_mem_append.mpr ⟨first, List.forall_mem_singleton.mpr ordered⟩

theorem arranges_integerLiteral :
    Arranges [] integerLiteral (fun expr => [expr.id]) Expr.nodes := by
  rw [integerLiteral]
  apply Arranges.skip (Numbers.expect .integerConst)
  intro literal
  split
  · exact Arranges.node (fun _ => rfl) fun id ordered => List.forall_mem_singleton.mpr ordered
  · exact Arranges.throw _

theorem arranges_realLiteral : Arranges [] realLiteral (fun expr => [expr.id]) Expr.nodes := by
  rw [realLiteral]
  apply Arranges.skip (Numbers.expect .realConst)
  intro literal
  exact Arranges.node (fun _ => rfl) fun id ordered => List.forall_mem_singleton.mpr ordered

theorem arranges_factor (bound : Nat) :
    Arranges [] (factor bound) (fun expr => [expr.id]) Expr.nodes := by
  induction bound with
  | zero => exact Arranges.refuse _
  | succ bound ih =>
      rw [factor]
      apply Arranges.skip Numbers.currentToken
      intro token
      split
      · exact arranges_signed ih .plus
      · exact arranges_signed ih .minus
      · exact arranges_integerLiteral
      · exact arranges_realLiteral
      · apply Arranges.skip Numbers.consume
        intro _
        apply (arranges_sum ih bound).step
        intro inner ordered
        exact Arranges.skip (Numbers.expect .parenthesisRight) fun _ => .pure (.refl _) ordered
      · exact arranges_variableName.step fun name ordered => .pure (.refl _) ordered
      · exact Arranges.refuse _

theorem arranges_expression (bound : Nat) :
    Arranges [] (expression bound) (fun expr => [expr.id]) Expr.nodes :=
  arranges_sum (arranges_factor bound) bound

theorem arranges_emptyStatement :
    Arranges [] emptyStatement (fun statement => [statement.id]) Statement.nodes := by
  rw [emptyStatement]
  exact Arranges.node (fun _ => rfl) fun id ordered => List.forall_mem_singleton.mpr ordered

theorem arranges_callWithArguments (bound : Nat) :
    Arranges [] (callWithArguments bound) (fun statement => [statement.id]) Statement.nodes := by
  rw [callWithArguments]
  apply Arranges.skip (Numbers.expect .identifier)
  intro name
  apply Arranges.skip (Numbers.expect .parenthesisLeft)
  intro _
  apply (arranges_separated (arranges_expression bound) .comma bound).step
  intro arguments inner
  apply Arranges.skip (Numbers.expect .parenthesisRight)
  intro _
  apply Arranges.node fun _ => rfl
  intro id ordered
  rw [List.nil_append, ← List.map_eq_flatMap] at ordered
  exact List.forall_mem_append.mpr ⟨inner, List.forall_mem_singleton.mpr ordered⟩

theorem arranges_bareCall :
    Arranges [] bareCall (fun statement => [statement.id]) Statement.nodes := by
  rw [bareCall]
  apply Arranges.skip (Numbers.expect .identifier)
  intro name
  exact Arranges.node (fun _ => rfl) fun id ordered => List.forall_mem_singleton.mpr ordered

theorem arranges_assignment (bound : Nat) :
    Arranges [] (assignment bound) (fun statement => [statement.id]) Statement.nodes := by
  rw [assignment]
  apply arranges_variableName.step
  intro target leaf
  apply Arranges.skip (Numbers.expect .assign)
  intro _
  apply (arranges_expression bound).step
  intro value inner
  apply Arranges.node fun _ => rfl
  intro id ordered
  exact List.forall_mem_append.mpr
    ⟨List.forall_mem_append.mpr ⟨leaf, inner⟩, List.forall_mem_singleton.mpr ordered⟩

theorem Statement.nodesOf_eq_flatMap (statements : List Statement) :
    Statement.nodesOf statements = statements.flatMap Statement.nodes := by
  induction statements with
  | nil => rfl
  | cons statement rest ih => rw [Statement.nodesOf, ih, List.flatMap_cons]

theorem arranges_compoundOf {statement : Parse Statement}
    (statements : Arranges [] statement (fun statement => [statement.id]) Statement.nodes)
    (bound : Nat) :
    Arranges [] (compoundOf statement bound) (fun compound => [compound.id]) Compound.nodes := by
  rw [compoundOf]
  apply Arranges.skip (Numbers.expect .begin)
  intro _
  apply (arranges_separated statements .semicolon bound).step
  intro several inner
  apply Arranges.skip (Numbers.expect .finish)
  intro _
  apply Arranges.node fun _ => rfl
  intro id ordered
  rw [List.nil_append, ← List.map_eq_flatMap] at ordered
  rw [← Statement.nodesOf_eq_flatMap] at inner
  exact List.forall_mem_append.mpr ⟨inner, List.forall_mem_singleton.mpr ordered⟩

theorem arranges_named (bound : Nat) :
    Arranges [] (named bound) (fun statement => [statement.id]) Statement.nodes := by
  rw [named]
  apply Arranges.skip (Numbers.isNext .parenthesisLeft)
  intro opens
  split
  · exact arranges_callWithArguments bound
  · apply Arranges.skip (Numbers.isNext .assign)
    intro assigns
    split
    · exact arranges_assignment bound
    · apply Arranges.skip Numbers.currentToken
      intro token
      apply Arranges.skip (Numbers.knows token.text)
      intro known
      split
      · exact arranges_bareCall
      · exact arranges_assignment bound

theorem arranges_statement (bound : Nat) :
    Arranges [] (statement bound) (fun statement => [statement.id]) Statement.nodes := by
  induction bound with
  | zero => exact arranges_emptyStatement
  | succ bound ih =>
      rw [statement]
      apply Arranges.skip Numbers.currentToken
      intro token
      split
      · exact (arranges_compoundOf ih bound).step fun body ordered => .pure (.refl _) ordered
      · exact arranges_named bound
      · exact arranges_emptyStatement

theorem arranges_varDecl (bound : Nat) :
    Arranges [] (varDecl bound) (fun decl => [decl.id]) VarDecl.nodes := by
  rw [varDecl]
  apply (arranges_separated arranges_variableName .comma bound).step
  intro names leaves
  apply Arranges.skip (Numbers.expect .colon)
  intro _
  apply Arranges.skip numbers_dataType
  intro typed
  apply Arranges.freshId.step
  intro typeId leaf
  apply Arranges.node fun _ => rfl
  intro id ordered
  rw [List.nil_append, ← List.map_eq_flatMap] at ordered
  refine List.forall_mem_append.mpr ⟨?_, List.forall_mem_singleton.mpr ordered⟩
  exact List.forall_mem_map.mpr fun _ _ => Node.ordered_leaf _

theorem arranges_varDecls (bound : Nat) :
    Arranges [] (varDecls bound) (fun decls => decls.map VarDecl.id)
      fun decls => decls.flatMap VarDecl.nodes := by
  induction bound with
  | zero => exact Arranges.refuse _
  | succ bound ih =>
      rw [varDecls]
      apply (arranges_varDecl bound).step
      intro first one
      apply Arranges.skip (Numbers.expect .semicolon)
      intro _
      apply Arranges.skip (Numbers.isAt .identifier)
      intro another
      split
      · apply ih.step
        intro rest others
        exact .pure (.refl _) (Node.forall_mem_flatMap one others)
      · exact .pure (.refl _) (Node.forall_mem_flatMap one (List.forall_mem_nil _))

/-- The names of a group have smaller numbers than all that is made for them, whatever their own
order is. -/
theorem ordered_of_paramsOf (dataType : DataType) (position : Position) (names : List Variable) :
    ∀ session params after, paramsOf dataType position names session = .ok params after →
      (∀ name ∈ names, name.id < session.nextId) → ∀ before : List NodeId,
      (Node.mk session.nextId before).Ordered →
        (Node.mk after.nextId (before ++ params.map Param.id)).Ordered
          ∧ ∀ node ∈ params.flatMap Param.nodes, node.Ordered := by
  induction names with
  | nil =>
      intro session params after done _ before elders
      obtain ⟨rfl, rfl⟩ := pure_eq_ok done
      exact ⟨by rwa [List.map_nil, List.append_nil], List.forall_mem_nil _⟩
  | cons declared rest ih =>
      intro session params after done named before elders
      obtain ⟨smaller, others⟩ := List.forall_mem_cons.mp named
      -- a name takes two numbers, one for its type and one for the parameter on top of both
      rw [paramsOf] at done
      obtain ⟨_, typed, fresh, done⟩ := bind_eq_ok done
      cases fresh
      obtain ⟨_, made, fresh, done⟩ := bind_eq_ok done
      cases fresh
      obtain ⟨further, final, remaining, done⟩ := bind_eq_ok done
      obtain ⟨rfl, rfl⟩ := pure_eq_ok done
      have behind : ∀ name ∈ rest, name.id < session.nextId + 1 + 1 :=
        fun name among => Nat.lt_add_right 2 (others name among)
      have next := (elders.mono (Nat.le_succ _)).succ
      obtain ⟨final, ordered⟩ := ih _ further _ remaining behind _ next
      have one : (Node.mk (session.nextId + 1) [declared.id, session.nextId]).Ordered := by
        refine ⟨List.forall_mem_cons.mpr ⟨Nat.lt_succ_of_lt smaller, ?_⟩, by simpa using smaller⟩
        exact List.forall_mem_singleton.mpr (Nat.lt_succ_self _)
      refine ⟨by simpa using final, Node.forall_mem_flatMap ?_ ordered⟩
      exact List.forall_mem_cons.mpr ⟨Node.ordered_leaf _, List.forall_mem_cons.mpr
        ⟨Node.ordered_leaf _, List.forall_mem_singleton.mpr one⟩⟩

theorem arranges_paramGroup (bound : Nat) :
    Arranges [] (paramGroup bound) (fun params => params.map Param.id)
      fun params => params.flatMap Param.nodes := by
  rw [paramGroup]
  apply (arranges_separated arranges_variableName .comma bound).step
  intro names _
  apply Arranges.skip (Numbers.expect .colon)
  intro _
  apply Arranges.skip numbers_dataType
  intro typed session params after done before elders
  rw [List.nil_append, ← List.map_eq_flatMap] at elders
  apply ordered_of_paramsOf typed.1 typed.2 names session params after done
  · intro name among
    exact elders.below _ (List.mem_append_right _ (List.mem_map_of_mem among))
  · exact elders.sublist (List.sublist_append_left _ _)

theorem arranges_params (bound : Nat) :
    Arranges [] (params bound) (fun params => params.map Param.id)
      fun params => params.flatMap Param.nodes := by
  rw [params]
  apply Arranges.skip (Numbers.accept .parenthesisLeft)
  intro found
  split
  · apply (arranges_separated (arranges_paramGroup bound) .semicolon bound).step
    intro groups ordered
    apply Arranges.skip (Numbers.expect .parenthesisRight)
    intro _
    apply Arranges.pure
    · rw [List.map_flatten, List.nil_append, ← List.flatMap_def]
    · rwa [List.flatten_eq_flatMap, List.flatMap_assoc]
  · exact .pure .slnil (List.forall_mem_nil _)

theorem arranges_procedureOf {block : Parse Block}
    (blocks : Arranges [] block (fun block => [block.id]) Block.nodes) (bound : Nat) :
    Arranges [] (procedureOf block bound) (fun procedure => [procedure.id])
      fun procedure => Procedure.nodesOf [procedure] := by
  rw [procedureOf]
  apply Arranges.skip (Numbers.expect .identifier)
  intro name
  apply Arranges.skip (Numbers.learn name.text)
  intro _
  apply (arranges_params bound).step
  intro params listed
  apply Arranges.skip (Numbers.expect .semicolon)
  intro _
  apply blocks.step
  intro body inner
  apply Arranges.skip (Numbers.expect .semicolon)
  intro _
  apply Arranges.node fun _ => rfl
  intro id ordered
  simp only [Procedure.nodesOf, List.append_nil, List.forall_mem_append,
    List.forall_mem_singleton]
  exact ⟨⟨listed, inner⟩, ordered⟩

theorem arranges_proceduresOf {block : Parse Block}
    (blocks : Arranges [] block (fun block => [block.id]) Block.nodes) (size bound : Nat) :
    Arranges [] (proceduresOf block size bound) (fun procedures => procedures.map Procedure.id)
      Procedure.nodesOf := by
  induction bound with
  | zero => exact .pure .slnil (List.forall_mem_nil _)
  | succ bound ih =>
      rw [proceduresOf]
      apply Arranges.skip (Numbers.accept .procedure)
      intro found
      split
      · apply (arranges_procedureOf blocks size).step
        intro first one
        apply ih.step
        intro rest others
        refine .pure (.refl _) ?_
        obtain ⟨id, name, position, params, body⟩ := first
        simp only [Procedure.nodesOf, List.append_nil] at one
        exact List.forall_mem_append.mpr ⟨one, others⟩
      · exact .pure .slnil (List.forall_mem_nil _)

theorem arranges_declarationsOf (bound : Nat) :
    Arranges [] (declarationsOf bound) (fun decls => decls.map VarDecl.id)
      fun decls => decls.flatMap VarDecl.nodes := by
  rw [declarationsOf]
  apply Arranges.skip (Numbers.accept .var)
  intro found
  split
  · exact arranges_varDecls bound
  · exact .pure .slnil (List.forall_mem_nil _)

theorem arranges_block (bound : Nat) :
    Arranges [] (block bound) (fun block => [block.id]) Block.nodes := by
  induction bound with
  | zero => exact Arranges.refuse _
  | succ bound ih =>
      rw [block_succ]
      apply (arranges_declarationsOf bound).step
      intro declarations declared
      apply (arranges_proceduresOf ih bound (bound + 1)).step
      intro procedures nested
      apply (arranges_compoundOf (arranges_statement bound) bound).step
      intro body inner
      apply Arranges.node fun _ => rfl
      intro id ordered
      simp only [Block.nodes, List.forall_mem_append, List.forall_mem_singleton]
      exact ⟨⟨⟨declared, nested⟩, inner⟩, ordered⟩

theorem arranges_program (bound : Nat) :
    Arranges [] (program bound) (fun program => [program.id]) Program.nodes := by
  rw [program]
  apply Arranges.skip (Numbers.expect .program)
  intro _
  apply Arranges.skip (Numbers.expect .identifier)
  intro name
  apply Arranges.skip (Numbers.expect .semicolon)
  intro _
  apply (arranges_block bound).step
  intro body inner
  apply Arranges.skip (Numbers.isAt .dot)
  intro found
  split
  · apply Arranges.node fun _ => rfl
    intro id ordered
    exact List.forall_mem_append.mpr ⟨inner, List.forall_mem_singleton.mpr ordered⟩
  · exact Arranges.refuse _

theorem ordered_of_parse {session after : Session} {program : Program}
    (parsed : parse session = .ok program after) : ∀ node ∈ program.nodes, node.Ordered := by
  have arranges : Arranges [] parse (fun program => [program.id]) Program.nodes := by
    rw [parse]
    apply Arranges.skip Numbers.consume
    intro _ session value after done
    exact arranges_program session.bound session value after done
  exact (arranges session program after parsed [] ⟨List.forall_mem_nil _, .nil⟩).2

/-- The program itself has the last number. -/
theorem id_of_parse {session after : Session} {program : Program}
    (parsed : parse session = .ok program after) : program.id + 1 = after.nextId := by
  rw [parse] at parsed
  obtain ⟨_, _, _, parsed⟩ := bind_eq_ok parsed
  obtain ⟨_, _, _, parsed⟩ := bind_eq_ok parsed
  rw [Parser.program] at parsed
  obtain ⟨_, _, _, parsed⟩ := bind_eq_ok parsed
  obtain ⟨_, _, _, parsed⟩ := bind_eq_ok parsed
  obtain ⟨_, _, _, parsed⟩ := bind_eq_ok parsed
  obtain ⟨_, _, _, parsed⟩ := bind_eq_ok parsed
  obtain ⟨_, _, _, parsed⟩ := bind_eq_ok parsed
  split at parsed
  · obtain ⟨_, _, fresh, parsed⟩ := bind_eq_ok parsed
    cases fresh
    obtain ⟨rfl, rfl⟩ := pure_eq_ok parsed
    rfl
  · exact absurd parsed refuse_ne_ok

end Parser

/-! ## Several programs of one parser -/

/-- Where a call leaves a session, whether it succeeds or fails. -/
def Parse.Leaves {α : Type} (parser : Parse α) (session after : Session) : Prop :=
  (∃ value, parser session = .ok value after) ∨ ∃ error, parser session = .error error after

/-- What a session becomes by calls of the parser: for programs and for the end behind one. -/
inductive Session.Reaches : Session → Session → Prop where
  | refl {session : Session} : Reaches session session
  | parse {session between after : Session} : Reaches session between →
      Parser.parse.Leaves between after → Reaches session after
  | expectEnd {session between after : Session} : Reaches session between →
      Parser.expectEnd.Leaves between after → Reaches session after

/-- The free number is at least the given one. -/
def Session.Invariant.atLeast (count : Nat) : Session.Invariant where
  Holds session := count ≤ session.nextId
  Rests session := count ≤ session.nextId
  Good _ := True
  Head _ := True
  Bad _ := True
  rests := id
  current _ := trivial
  head _ _ _ := trivial
  shifted held _ := held
  looked held _ _ := held
  begun held _ _ := held
  blocked held _ _ := ⟨held, trivial⟩
  numbered held := Nat.le_succ_of_le held
  learned _ held := held

theorem Session.Invariant.rests_of_leaves {α : Type} {kept : Session.Invariant} {parser : Parse α}
    {yields : α → Prop} {session after : Session} (left : parser.Leaves session after)
    (allows : kept.Allows yields (parser session)) : kept.Rests after := by
  rcases left with ⟨_, done⟩ | ⟨_, done⟩
  · rw [done] at allows
    exact kept.rests allows.1
  · rw [done] at allows
    exact allows.1

/-- What holds between two calls holds between all later ones. -/
theorem Session.Reaches.rests {kept : Session.Invariant} {session after : Session}
    (reaches : session.Reaches after) (rests : kept.Rests session) : kept.Rests after := by
  induction reaches with
  | refl => exact rests
  | parse _ left ih => exact kept.rests_of_leaves left (Parser.allows_parse ih)
  | expectEnd _ left ih => exact kept.rests_of_leaves left (Parser.allows_expectEnd ih)

theorem Session.Reaches.nextId_le {session after : Session} (reaches : session.Reaches after) :
    session.nextId ≤ after.nextId :=
  have rests : (Invariant.atLeast session.nextId).Rests session := Nat.le_refl _
  reaches.rests rests

namespace Parser

theorem mem_ids_iff {session after : Session} {program : Program}
    (parsed : parse session = .ok program after) (id : NodeId) :
    id ∈ program.ids ↔ session.nextId ≤ id ∧ id < after.nextId := by
  obtain ⟨le, same⟩ := numbers_parse session program after parsed
  rw [List.nil_append] at same
  rw [same.mem_iff, List.mem_range'_1, Nat.add_sub_cancel' le]

/-- The numbers of the nodes of a program are the numbers from the free one before up to the free
one behind, each of them once. Children have smaller numbers than their parent and increasing ones,
and the program has the last number of all. No later program of the same parser shares a number
with it, whatever calls lie between. -/
theorem nodes_of_parse {session after : Session} {program : Program}
    (parsed : parse session = .ok program after) :
    (program.nodes.map Node.id).Nodup
      ∧ (∀ id, id ∈ program.nodes.map Node.id ↔ session.nextId ≤ id ∧ id < after.nextId)
      ∧ (∀ node ∈ program.nodes, node.Ordered)
      ∧ program.id + 1 = after.nextId
      ∧ ∀ later last other, after.Reaches later → parse later = .ok other last →
        (program.nodes.map Node.id).Disjoint (other.nodes.map Node.id) := by
  simp only [Program.map_id_nodes]
  refine ⟨nodup_ids_of_parse parsed, mem_ids_iff parsed, ordered_of_parse parsed,
    id_of_parse parsed, ?_⟩
  intro later last other reaches again id first second
  have below := ((mem_ids_iff parsed id).mp first).2
  have above := ((mem_ids_iff again id).mp second).1
  exact Nat.lt_irrefl id (Nat.lt_of_lt_of_le below (Nat.le_trans reaches.nextId_le above))

/-- A text of two programs. -/
def twice : String :=
  "PROGRAM p; VAR x: REAL; PROCEDURE q(a, b: REAL); BEGIN END; BEGIN q(1, -x); x := x + 2 END. "
    ++ "PROGRAM r; BEGIN END."

theorem nodes_of_parse_twice : ∃ program after other last,
    parse (Session.ofString twice) = .ok program after ∧ parse after = .ok other last
      ∧ (program.nodes.map Node.id).Nodup ∧ (∀ node ∈ program.nodes, node.Ordered)
      ∧ program.id + 1 = after.nextId
      ∧ (program.nodes.map Node.id).Disjoint (other.nodes.map Node.id) := by
  have accepted : (match parse (Session.ofString twice) with
      | .ok _ after => (match parse after with
        | .ok _ _ => true
        | .error _ _ => false)
      | .error _ _ => false) = true := by decide +kernel
  split at accepted
  · rename_i program after parsed
    split at accepted
    · rename_i other last again
      obtain ⟨distinct, _, ordered, greatest, others⟩ := nodes_of_parse parsed
      exact ⟨program, after, other, last, parsed, again, distinct, ordered, greatest,
        others after last other .refl again⟩
    · cases accepted
  · cases accepted

end Parser
end MiniPascal
