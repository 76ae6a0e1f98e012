import MiniPascal.Proofs.Run.CallGraph
import MiniPascal.Proofs.Run.Discipline
import MiniPascal.Proofs.Run.Natural

/-! # The shape of a successful run

Statements have no branches and no loops, so a run that succeeds executes every call in every body
it comes to. Which frames it leaves and which expressions it evaluates can be read off the call
graph, and the part of that graph which the program reaches has no cycle. -/
set_option autoImplicit false
namespace MiniPascal

open Relation

theorem Expr.map_id_parts (expr : Expr) : expr.parts.map Expr.id = expr.ids := by
  induction expr with
  | number id value => rfl
  | read source => rfl
  | unary id operator operand position ih => simp [parts, ids, ih, Expr.id]
  | binary id operator left right position first second =>
      simp [parts, ids, first, second, Expr.id]

theorem Statement.expressionIds_cons (statement : Statement) (rest : List Statement) :
    Statement.expressionIds (statement :: rest)
      = statement.operands.flatMap Expr.ids ++ Statement.expressionIds rest :=
  List.flatMap_append

/-! ## What a run does, read off the graph -/

namespace Event

/-- The scopes of the frames that are left, in order. -/
def leftScopes (events : List Event) : List String :=
  (events.filterMap Event.leftFrame?).map Frame.scope

/-- The numbers of the expressions that get a value, in order. -/
def evaluatedIds (events : List Event) : List NodeId :=
  events.filterMap fun event =>
    match event with
    | .evaluated id _ => some id
    | _ => none

theorem leftScopes_append (first second : List Event) :
    leftScopes (first ++ second) = leftScopes first ++ leftScopes second := by
  simp [leftScopes]

theorem evaluatedIds_append (first second : List Event) :
    evaluatedIds (first ++ second) = evaluatedIds first ++ evaluatedIds second :=
  List.filterMap_append

theorem leftScopes_evaluations (frame : Frame) (parts : List Expr) :
    leftScopes (Expr.evaluations frame parts) = [] := by
  induction parts with
  | nil => rfl
  | cons part rest ih =>
      rw [Expr.evaluations]
      cases part.valueIn frame with
      | ok value => exact ih
      | error _ => rfl

/-- What an assignment does before the statements behind it leaves no frame. -/
theorem leftScopes_assigned (frame : Frame) (stack : List Frame) (statement : Statement)
    (parts : List Expr) (name : String) (value : Number) (events : List Event) :
    leftScopes (.executing stack statement
      :: (Expr.evaluations frame parts ++ .assigned name value :: events)) = leftScopes events := by
  rw [← List.singleton_append, leftScopes_append, leftScopes_append, leftScopes_evaluations]
  rfl

/-- A call leaves what its body leaves, and then its own frame. -/
theorem leftScopes_called (frame callee final : Frame) (stack : List Frame)
    (statement : Statement) (parts : List Expr) (depth : Nat) (inner events : List Event) :
    leftScopes (.executing stack statement
      :: (Expr.evaluations frame parts ++ .entered callee depth
        :: (inner ++ .left final :: events)))
      = leftScopes inner ++ final.scope :: leftScopes events := by
  have entered : leftScopes (.entered callee depth :: (inner ++ .left final :: events))
      = leftScopes inner ++ final.scope :: leftScopes events := leftScopes_append inner _
  rw [← List.singleton_append, leftScopes_append, leftScopes_append, leftScopes_evaluations,
    entered]
  rfl

end Event

namespace Expr

variable {frame : Frame}

theorem evaluatedIds_evaluations (parts : List Expr) :
    (∀ part ∈ parts, ∃ value, part.valueIn frame = .ok value) →
      Event.evaluatedIds (evaluations frame parts) = parts.map Expr.id := by
  induction parts with
  | nil => exact fun _ => rfl
  | cons part rest ih =>
      intro found
      obtain ⟨value, here⟩ := found part List.mem_cons_self
      have later := ih fun other member => found other (List.mem_cons_of_mem part member)
      simp only [evaluations, here, List.map_cons, ← later]
      rfl

/-- If all of some expressions have values then every part of them is evaluated. -/
theorem evaluatedIds_of_ok {exprs : List Expr} {values : List Number}
    (found : Expr.valuesIn frame exprs = .ok values) :
    Event.evaluatedIds (evaluations frame (exprs.flatMap parts)) = exprs.flatMap ids := by
  rw [evaluatedIds_evaluations _ (exists_valueIn_flatMap found), List.map_flatMap]
  exact congrArg (List.flatMap · exprs) (funext map_id_parts)

end Expr

namespace Event

variable {frame : Frame}

theorem evaluatedIds_assigned {expr : Expr} {result : Number}
    (found : expr.valueIn frame = .ok result) (stack : List Frame) (statement : Statement)
    (name : String) (value : Number) (events : List Event) :
    evaluatedIds (.executing stack statement
      :: (Expr.evaluations frame expr.parts ++ .assigned name value :: events))
      = expr.ids ++ evaluatedIds events := by
  rw [← List.singleton_append, evaluatedIds_append, evaluatedIds_append,
    Expr.evaluatedIds_evaluations _ (expr.exists_valueIn_parts found), expr.map_id_parts]
  rfl

theorem evaluatedIds_called {arguments : List Expr} {values : List Number}
    (found : Expr.valuesIn frame arguments = .ok values) (callee final : Frame)
    (stack : List Frame) (statement : Statement) (depth : Nat) (inner events : List Event) :
    evaluatedIds (.executing stack statement
      :: (Expr.evaluations frame (arguments.flatMap Expr.parts) ++ .entered callee depth
        :: (inner ++ .left final :: events)))
      = arguments.flatMap Expr.ids ++ (evaluatedIds inner ++ evaluatedIds events) := by
  have entered : evaluatedIds (.entered callee depth :: (inner ++ .left final :: events))
      = evaluatedIds inner ++ evaluatedIds events := evaluatedIds_append inner _
  rw [← List.singleton_append, evaluatedIds_append, evaluatedIds_append,
    Expr.evaluatedIds_of_ok found, entered]
  rfl

end Event

namespace Runs

variable {interpreter : Interpreter} {below : List Frame} {frame last : Frame}
  {statements : List Statement} {events : List Event}

/-- The frames that are left are the unfolding of the calls. -/
theorem unfolding (finds : interpreter.FindsBodies)
    (runs : Runs interpreter below frame statements events last) :
    Unfolding (interpreter.program.callees interpreter.scopes)
      (interpreter.scopes.callees frame.scope statements) (Event.leftScopes events) := by
  induction runs with
  | done => exact .nil
  | @compound below frame middle last inner rest events further id body _ inside behind =>
      have left : Event.leftScopes (.executing (frame :: below) (.compound id inner)
            :: (events ++ further)) = Event.leftScopes events ++ Event.leftScopes further :=
        Event.leftScopes_append events further
      rw [body.scope_eq] at behind
      rw [ScopeTree.callees_compound, left]
      exact inside.append behind
  | assignment id target found _ ih =>
      rw [Event.leftScopes_assigned]
      exact ih
  | call id position resolved given body rest inside behind =>
      obtain ⟨visible, _, _⟩ := Interpreter.resolve_eq_ok resolved
      rw [Interpreter.scope_callFrame, ← finds _ _ _ _ _ resolved] at inside
      rw [Event.leftScopes_called, ScopeTree.callees_call visible, body.scope_eq,
        Interpreter.scope_callFrame]
      exact .cons inside behind
  | empty id rest ih => exact ih

/-- An expression is evaluated if it stands in the statements or in a body that is reached through
one of their calls. -/
theorem mem_evaluatedIds_iff (finds : interpreter.FindsBodies) (node : NodeId)
    (runs : Runs interpreter below frame statements events last) :
    node ∈ Event.evaluatedIds events ↔ node ∈ Statement.expressionIds statements
      ∨ ∃ callee ∈ interpreter.scopes.callees frame.scope statements,
        interpreter.program.Evaluates interpreter.scopes callee node := by
  induction runs with
  | done => simp [Event.evaluatedIds, Statement.expressionIds, ScopeTree.callees,
      Statement.operandsOf, Statement.callsOf]
  | @compound below frame middle last inner rest events further id body _ inside behind =>
      have evaluated : Event.evaluatedIds (.executing (frame :: below) (.compound id inner)
            :: (events ++ further)) = Event.evaluatedIds events ++ Event.evaluatedIds further :=
        Event.evaluatedIds_append events further
      rw [body.scope_eq] at behind
      rw [evaluated, List.mem_append, inside, behind, ScopeTree.callees_compound,
        Statement.expressionIds_cons, List.mem_append]
      simp only [List.mem_append, or_and_right, exists_or]
      exact or_or_or_comm
  | @assignment below frame last value result rest events id target found _ ih =>
      have own : (Statement.assignment id target value).operands.flatMap Expr.ids = value.ids :=
        List.append_nil _
      rw [Event.evaluatedIds_assigned found, List.mem_append, ih, Statement.expressionIds_cons,
        own, List.mem_append, or_assoc]
      rfl
  | @call below frame final last name arguments header procedure values rest inner events id
      position resolved given body _ inside behind =>
      obtain ⟨visible, _, _⟩ := Interpreter.resolve_eq_ok resolved
      -- What the body evaluates is what its name evaluates in the graph.
      rw [Interpreter.scope_callFrame, ← finds _ _ _ _ _ resolved] at inside
      have called := inside.trans
        (interpreter.program.evaluates_iff interpreter.scopes header.name node).symm
      have own : (Statement.call id name position arguments).operands = arguments := rfl
      rw [Event.evaluatedIds_called given, List.mem_append, List.mem_append, called, behind,
        Statement.expressionIds_cons, own, List.mem_append, ScopeTree.callees_call visible]
      simp only [List.mem_cons, or_and_right, exists_or, exists_eq_left, or_assoc]
      exact or_congr_right or_left_comm
  | empty id rest ih => exact ih

end Runs

/-! ## The scopes on the stack -/

namespace Program

variable {program : Program} {tree : ScopeTree}

/-- Scopes on a stack, the innermost first: each was reached by calls from those below it, and all
of them from the program. -/
structure Chain (program : Program) (tree : ScopeTree) (stack : List String) : Prop where
  ordered : stack.Pairwise fun upper lower => TransGen (program.Calls tree) lower upper
  reached : ∀ scope ∈ stack, ReflTransGen (program.Calls tree) program.name scope

theorem chain_own (program : Program) (tree : ScopeTree) : program.Chain tree [program.name] :=
  ⟨List.pairwise_singleton _ _, by simp [ReflTransGen.refl]⟩

theorem Chain.push {scope callee : String} {below : List String}
    (chain : program.Chain tree (scope :: below)) (called : program.Calls tree scope callee) :
    program.Chain tree (callee :: scope :: below) := by
  obtain ⟨ordered, reached⟩ := chain
  obtain ⟨above, rest⟩ := List.pairwise_cons.mp ordered
  constructor
  · apply List.pairwise_cons.mpr
    refine ⟨fun lower member => ?_, ordered⟩
    rcases List.mem_cons.mp member with rfl | deeper
    · exact .single called
    · exact (above lower deeper).tail called
  · intro other member
    rcases List.mem_cons.mp member with rfl | deeper
    · exact (reached scope List.mem_cons_self).tail called
    · exact reached other deeper

/-- Without cycles no scope is on the stack twice. -/
theorem Chain.nodup {stack : List String} (chain : program.Chain tree stack)
    (acyclic : ∀ name, ReflTransGen (program.Calls tree) program.name name →
      ¬ TransGen (program.Calls tree) name name) : stack.Nodup := by
  apply List.Pairwise.imp_of_mem _ chain.ordered
  intro upper lower member _ reaches same
  exact acyclic upper (chain.reached upper member) (same ▸ reaches)

end Program

/-- The stack on which a statement is executed is a chain. -/
def Event.Chained (program : Program) (tree : ScopeTree) : Event → Prop
  | .executing stack _ => program.Chain tree (stack.map Frame.scope)
  | _ => True

theorem Event.chained_of_mem_evaluations (program : Program) (tree : ScopeTree) (frame : Frame)
    (parts : List Expr) : ∀ event ∈ Expr.evaluations frame parts, event.Chained program tree := by
  intro event member
  obtain ⟨id, value, rfl⟩ := Expr.evaluated_of_mem parts member
  exact trivial

theorem Runs.chained {interpreter : Interpreter} {below : List Frame} {frame last : Frame}
    {statements : List Statement} {events : List Event} (finds : interpreter.FindsBodies)
    (runs : Runs interpreter below frame statements events last) :
    (∀ callee ∈ interpreter.scopes.callees frame.scope statements,
      interpreter.program.Calls interpreter.scopes frame.scope callee) →
    interpreter.program.Chain interpreter.scopes ((frame :: below).map Frame.scope) →
      ∀ event ∈ events, event.Chained interpreter.program interpreter.scopes := by
  induction runs with
  | done => exact fun _ _ _ member => absurd member List.not_mem_nil
  | compound id body _ inside behind =>
      intro called chain
      rw [ScopeTree.callees_compound] at called
      rw [body.scope_eq] at behind
      simp only [List.forall_mem_cons, List.forall_mem_append]
      refine ⟨chain, ?_, ?_⟩
      · exact inside (fun callee among => called callee (List.mem_append_left _ among)) chain
      · apply behind fun callee among => called callee (List.mem_append_right _ among)
        rw [List.map_cons, body.scope_eq]
        exact chain
  | assignment id target found _ ih =>
      intro called chain
      have evaluated := Event.chained_of_mem_evaluations interpreter.program interpreter.scopes
      simp only [List.forall_mem_cons, List.forall_mem_append]
      exact ⟨chain, evaluated _ _, trivial, ih called chain⟩
  | @call below frame final last name arguments header procedure values rest inner events id
      position resolved given body _ inside behind =>
      intro called chain
      obtain ⟨visible, _, _⟩ := Interpreter.resolve_eq_ok resolved
      rw [ScopeTree.callees_call visible] at called
      have evaluated := Event.chained_of_mem_evaluations interpreter.program interpreter.scopes
      simp only [List.forall_mem_cons, List.forall_mem_append]
      refine ⟨chain, evaluated _ _, trivial, ?_, trivial, ?_⟩
      · -- The callee goes on top of the chain, and its own calls are those of its body.
        have pushed := chain.push (called header.name List.mem_cons_self)
        rw [← Interpreter.scope_callFrame header values] at pushed
        rw [Interpreter.scope_callFrame, ← finds _ _ _ _ _ resolved] at inside
        exact inside (fun _ among => among) pushed
      · exact behind (fun callee among => called callee (List.mem_cons_of_mem _ among)) chain
  | empty id _ ih =>
      intro called chain
      exact List.forall_mem_cons.mpr ⟨chain, ih called chain⟩

/-! ## Whole runs -/

theorem Event.isSome_foldl_updateValues (id : NodeId) (events : List Event) :
    ∀ values : Std.TreeMap NodeId Number,
      ((events.foldl Event.updateValues values)[id]?).isSome
        ↔ (values[id]?).isSome ∨ id ∈ Event.evaluatedIds events := by
  induction events with
  | nil => intro values; simp [Event.evaluatedIds]
  | cons event rest ih =>
      intro values
      rw [List.foldl_cons, ih]
      cases event with
      | evaluated node value =>
          have ids : Event.evaluatedIds (.evaluated node value :: rest)
              = node :: Event.evaluatedIds rest := rfl
          rw [ids, List.mem_cons, Event.updateValues, Std.TreeMap.getElem?_insert]
          simp only [Std.LawfulEqOrd.compare_eq_iff_eq]
          by_cases same : node = id
          · simp [same]
          · simp [same, Ne.symm same]
      | _ => rfl

/-- An expression has a value behind a run exactly if it was evaluated in it. -/
theorem Machine.isSome_values (machine : Machine) (id : NodeId) :
    (machine.values[id]?).isSome ↔ id ∈ Event.evaluatedIds machine.history := by
  rw [Machine.values, Event.isSome_foldl_updateValues]
  simp

namespace Interpreter

/-- The shape of a successful run is static. No scope that the program reaches calls itself, not
even through others, and none is on the stack twice. The frames left are the unfolding of the
program's calls in post-order, the program's own frame last. The expressions with a value are those
of the program's body and of the bodies it reaches; in a program that was read, no other node and
no expression of another body shares its number with one of them. -/
theorem run_shape {program : Program} {tree : ScopeTree} (accepted : program.analyse = .ok tree)
    {interpreter : Interpreter} (started : Started program tree interpreter) {depth : Nat}
    {outcome : Outcome} (succeeds : (interpreter.run depth).1 = .ok outcome) :
    (∀ name, ReflTransGen (program.Calls tree) program.name name →
        ¬ TransGen (program.Calls tree) name name)
      ∧ (∀ stack statement,
        .executing stack statement ∈ (interpreter.run depth).2.machine.history →
          (stack.map Frame.scope).Nodup)
      ∧ (∀ names, Unfolding (program.callees tree) [program.name] names
        ↔ names = outcome.completed.map Frame.scope)
      ∧ outcome.completed.getLast? = some outcome.frame
      ∧ (∀ id, (outcome.values[id]?).isSome ↔ program.Evaluates tree program.name id)
      ∧ ∀ session after, Parser.parse session = .ok program after →
        (∀ id ∈ program.otherIds, outcome.values[id]? = none)
          ∧ ∀ scope ∈ program.scopes, ¬ ReflTransGen (program.Calls tree) program.name scope.name →
            ∀ id ∈ Statement.expressionIds scope.statements, outcome.values[id]? = none := by
  rw [started.run_eq depth] at succeeds ⊢
  obtain ⟨inner, final, reached, runs, same, happened, rfl⟩ := run_eq_ok succeeds
  have finds := findsBodies_of_analyse accepted
  have distinct := (program.exists_analyse_iff.mp ⟨tree, accepted⟩).1.scopeNames
  have body : program.statementsOf program.name = program.block.body.statements := by
    obtain ⟨own, listed, named, statements⟩ := program.exists_own_scope
    rw [← named, Program.statementsOf_eq distinct listed, statements]
  rw [← body] at runs
  have completed : reached.completed = inner.filterMap Event.leftFrame? ++ [final] := by
    rw [Machine.completed, happened]
    exact List.filterMap_append
  have unfolds : Unfolding (program.callees tree) [program.name]
      (reached.completed.map Frame.scope) := by
    rw [completed, List.map_append, List.map_singleton, runs.scope_eq]
    exact .cons (runs.unfolding finds) .nil
  -- Only chains of calls that end can be unfolded, and the run has unfolded those of the program.
  have acyclic : ∀ name, ReflTransGen (program.Calls tree) program.name name →
      ¬ TransGen (program.Calls tree) name name :=
    fun name reaches =>
      not_transGen_self (unfolds.acc program.name List.mem_cons_self) reaches
  have valued : ∀ id, (reached.values[id]?).isSome ↔ program.Evaluates tree program.name id := by
    intro id
    have evaluated : Event.evaluatedIds reached.history = Event.evaluatedIds inner := by
      rw [happened]
      exact (Event.evaluatedIds_append inner [.left final]).trans (List.append_nil _)
    rw [Machine.isSome_values, evaluated, Program.evaluates_iff]
    exact runs.mem_evaluatedIds_iff finds id
  refine ⟨acyclic, ?_, ?_, ?_, valued, ?_⟩
  · intro stack statement member
    have chained := runs.chained finds (fun _ called => called) (program.chain_own tree)
    rw [same, happened] at member
    simp only [List.mem_cons, List.mem_append, reduceCtorEq, false_or, or_false,
      List.not_mem_nil] at member
    exact (chained _ member).nodup acyclic
  · exact fun names => ⟨fun other => unfolds.unique other, fun equal => equal ▸ unfolds⟩
  · rw [completed]
    exact List.getLast?_concat
  · intro session after parsed
    have unvalued : ∀ {id}, ¬ program.Evaluates tree program.name id → reached.values[id]? = none :=
      fun absent => Option.not_isSome_iff_eq_none.mp (mt (valued _).mp absent)
    obtain ⟨others, unreached⟩ :=
      Program.not_evaluates tree (Parser.nodup_ids_of_parse parsed)
    exact ⟨fun id other => unvalued (others id other), fun scope member apart id inside =>
      unvalued (unreached scope member apart id inside)⟩

/-- `PROGRAM main; PROCEDURE leaf(n: INTEGER); BEGIN n := n + 1 END;
PROCEDURE step; BEGIN leaf(2) END; PROCEDURE spare; BEGIN leaf(3) END;
BEGIN step; leaf(1) END.` -/
def stairs : Program :=
  ⟨26, "main", ⟨25, [],
    [⟨10, "leaf", Position.start,
        [⟨2, ⟨0, "n", Position.start⟩, ⟨1, .integer, Position.start⟩⟩],
        ⟨9, [], [], ⟨8, [.assignment 7 ⟨3, "n", Position.start⟩
          (.binary 6 .plus (.read ⟨4, "n", Position.start⟩) (.number 5 (.integer 1))
            Position.start)]⟩⟩⟩,
      ⟨15, "step", Position.start, [],
        ⟨14, [], [], ⟨13, [.call 12 "leaf" Position.start [.number 11 (.integer 2)]]⟩⟩⟩,
      ⟨20, "spare", Position.start, [],
        ⟨19, [], [], ⟨18, [.call 17 "leaf" Position.start [.number 16 (.integer 3)]]⟩⟩⟩],
    ⟨24, [.call 21 "step" Position.start [],
      .call 23 "leaf" Position.start [.number 22 (.integer 1)]]⟩⟩⟩

theorem analyse_stairs : stairs.analyse = .ok (Analysis.run stairs).scopes :=
  (stairs.analyse_eq_ok_iff _).mpr ⟨by decide +kernel, rfl⟩

theorem run_shape_stairs : ∃ tree outcome, stairs.analyse = .ok tree
    ∧ ((ofProgram stairs tree).run 2).1 = .ok outcome
    ∧ (∀ names, Unfolding (stairs.callees tree) ["main"] names
      ↔ names = outcome.completed.map Frame.scope)
    ∧ stairs.Evaluates tree "main" 6 ∧ ¬ stairs.Evaluates tree "main" 16 := by
  -- The sum in `leaf` is evaluated, and the argument in `spare`, which nothing calls, is not.
  have returns : (((ofProgram stairs (Analysis.run stairs).scopes).run 2).1.map fun outcome =>
      ((outcome.values[6]?).isSome, (outcome.values[16]?).isSome)) = .ok (true, false) := by
    decide +kernel
  cases result : ((ofProgram stairs (Analysis.run stairs).scopes).run 2).1 with
  | error halt =>
      rw [result] at returns
      cases returns
  | ok outcome =>
      rw [result, Except.map, Except.ok.injEq, Prod.mk.injEq] at returns
      obtain ⟨_, _, unfolds, _, valued, _⟩ := run_shape analyse_stairs .new result
      exact ⟨_, outcome, analyse_stairs, result, unfolds, (valued 6).mp returns.1,
        mt (valued 16).mpr (Bool.eq_false_iff.mp returns.2)⟩

end Interpreter
end MiniPascal
