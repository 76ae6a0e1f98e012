import MiniPascal.Proofs.Run.Discipline
import MiniPascal.Proofs.Run.Promotion
import MiniPascal.Proofs.Run.Stopping

/-! # Initialisation is lexical

Statements have no branches, so a body is executed in the order of its text, however often it is
called and whatever its calls do in between. Which variables have values in front of a statement is
therefore a matter of the text: the parameters, and what the assignments in front of it set. A
variable without a value is found exactly where execution comes to a read of another one. -/
set_option autoImplicit false
namespace MiniPascal

/-! ## The order of the text -/

mutual

/-- A statement and the statements inside it, in the order of the text. -/
def Statement.inOrder : Statement → List Statement
  | .compound id statements => .compound id statements :: Statement.inOrderAll statements
  | .assignment id target value => [.assignment id target value]
  | .call id name position arguments => [.call id name position arguments]
  | .empty id => [.empty id]

def Statement.inOrderAll : List Statement → List Statement
  | [] => []
  | statement :: rest => statement.inOrder ++ Statement.inOrderAll rest

end

namespace Statement

/-- The variables that are assigned by some statements, apart from those inside them. -/
def targets (statements : List Statement) : List String :=
  statements.filterMap fun statement =>
    match statement with
    | .assignment _ target _ => some target.name
    | _ => none

/-- The expressions that a statement evaluates before anything else is executed. Statements inside
it evaluate theirs themselves. -/
def ownOperands : Statement → List Expr
  | .assignment _ _ value => [value]
  | .call _ _ _ arguments => arguments
  | .compound _ _ | .empty _ => []

/-- Everything that a statement evaluates itself, in order. -/
def ownParts (statement : Statement) : List Expr :=
  statement.ownOperands.flatMap Expr.parts

theorem targets_append (first second : List Statement) :
    targets (first ++ second) = targets first ++ targets second :=
  List.filterMap_append

theorem inOrderAll_append (first second : List Statement) :
    inOrderAll (first ++ second) = inOrderAll first ++ inOrderAll second := by
  induction first with
  | nil => rfl
  | cons statement rest ih =>
      rw [List.cons_append, inOrderAll, inOrderAll, ih, List.append_assoc]

theorem exists_inOrder (statement : Statement) :
    ∃ inside, statement.inOrder = [statement] ++ inside := by
  cases statement <;> exact ⟨_, rfl⟩

end Statement

mutual

theorem Statement.visit_of_mem_inOrder {id : NodeId} {name : String} {position : Position}
    {arguments : List Expr} : ∀ statement : Statement,
      Statement.call id name position arguments ∈ statement.inOrder →
      Visit.call id name position arguments ∈ statement.visits
  | .compound other statements, member => by
    simp only [Statement.inOrder, List.mem_cons, reduceCtorEq, false_or] at member
    have inside := Statement.visit_of_mem_inOrderAll statements member
    simp [Statement.visits, inside]
  | .assignment other target value, member => by
    cases List.mem_singleton.mp member
  | .call other called place passed, member => by
    cases List.mem_singleton.mp member
    exact List.mem_append_right _ (List.mem_singleton_self _)
  | .empty other, member => by
    cases List.mem_singleton.mp member

theorem Statement.visit_of_mem_inOrderAll {id : NodeId} {name : String} {position : Position}
    {arguments : List Expr} : ∀ statements : List Statement,
      Statement.call id name position arguments ∈ Statement.inOrderAll statements →
      Visit.call id name position arguments ∈ Statement.visitsOf statements
  | [], member => absurd member List.not_mem_nil
  | statement :: rest, member => by
    rcases List.mem_append.mp member with here | later
    · exact List.mem_append_left _ (Statement.visit_of_mem_inOrder statement here)
    · exact List.mem_append_right _ (Statement.visit_of_mem_inOrderAll rest later)

end

/-! ## Names with values -/

/-- The names with a value in a frame are these. -/
def Frame.Binds (frame : Frame) (names : List String) : Prop :=
  ∀ name, (frame.get? name).isSome ↔ name ∈ names

/-- The parameters of a scope, and what some statements assign. -/
def Scope.namesAfter (scope : Scope) (begun : List Statement) : List String :=
  scope.params.map (fun param => param.declared.name) ++ Statement.targets begun

namespace Frame.Binds

theorem set {frame : Frame} {scope : Scope} {begun : List Statement}
    (binds : frame.Binds (scope.namesAfter begun)) (id : NodeId) (target : Variable)
    (value : Expr) (result : Number) :
    (frame.set target.name result).Binds
      (scope.namesAfter (begun ++ [.assignment id target value])) := by
  intro name
  have added : scope.namesAfter (begun ++ [.assignment id target value])
      = scope.namesAfter begun ++ [target.name] := by
    rw [Scope.namesAfter, Statement.targets_append, ← List.append_assoc]
    rfl
  rw [added, List.mem_append, List.mem_singleton, ← binds name, Frame.get?_set]
  by_cases same : name = target.name <;> simp [same]

/-- A statement that is no assignment gives no name a value by itself. -/
theorem pass {frame : Frame} {scope : Scope} {begun : List Statement}
    (binds : frame.Binds (scope.namesAfter begun)) {statement : Statement}
    (silent : Statement.targets [statement] = []) :
    frame.Binds (scope.namesAfter (begun ++ [statement])) := by
  rwa [Scope.namesAfter, Statement.targets_append, silent, List.append_nil]

end Frame.Binds

/-- The frame of a call has a value for every parameter and for nothing else. -/
theorem Interpreter.binds_callFrame {header : ProcedureHeader} {values : List Number}
    (count : header.parameters.length = values.length) :
    (callFrame header values).Binds (header.parameters.map FormalParameter.name) := by
  intro name
  have names : ((header.parameters.map FormalParameter.name).zip values).map Prod.fst
      = header.parameters.map FormalParameter.name :=
    List.map_fst_zip (by rw [List.length_map, count])
  rw [get?_callFrame, List.lookup_isSome_iff]
  conv_rhs => rw [← names, List.mem_map]
  simp only [List.mem_reverse, beq_iff_eq, eq_comm (a := name)]

/-! ## Where execution stands -/

namespace Event

/-- What the activations on the stack have begun to execute, the innermost first. -/
def progress (opened : List (List Statement)) : Event → List (List Statement)
  | .entered _ _ => [] :: opened
  | .left _ => opened.tail
  | .executing _ statement => opened.modifyHead (· ++ [statement])
  | .started _ | .evaluated _ _ | .assigned _ _ => opened

/-- The statements that the innermost activation has begun to execute. -/
def begun (events : List Event) : List Statement :=
  (events.foldl progress []).headD []

theorem progress_executing (stack : List Frame) (statement : Statement) (begun : List Statement)
    (outer : List (List Statement)) :
    progress (begun :: outer) (.executing stack statement) = (begun ++ [statement]) :: outer :=
  rfl

theorem progress_entered (frame : Frame) (depth : Nat) (opened : List (List Statement)) :
    progress opened (.entered frame depth) = [] :: opened :=
  rfl

theorem foldl_progress_evaluations (frame : Frame) (parts : List Expr) :
    ∀ opened, (Expr.evaluations frame parts).foldl progress opened = opened := by
  induction parts with
  | nil => exact fun _ => rfl
  | cons part rest ih =>
      intro opened
      rw [Expr.evaluations]
      cases part.valueIn frame with
      | error error => rfl
      | ok value => exact ih opened

end Event

/-- A frame of the scope has begun some of its statements and has others next. -/
structure Scope.Reaches (program : Program) (scope : Scope) (frame : Frame)
    (begun next : List Statement) : Prop where
  listed : scope ∈ program.scopes
  named : scope.name = frame.scope
  inOrder : begun ++ next <+: Statement.inOrderAll scope.statements

namespace Scope.Reaches

variable {program : Program} {scope : Scope} {frame last : Frame}
  {begun inner others : List Statement}

theorem here (reaches : scope.Reaches program frame begun (inner ++ others)) :
    scope.Reaches program frame begun inner := by
  refine ⟨reaches.listed, reaches.named, List.IsPrefix.trans ?_ reaches.inOrder⟩
  rw [← List.append_assoc]
  exact List.prefix_append _ _

theorem onward (reaches : scope.Reaches program frame begun (inner ++ others))
    (same : last.scope = frame.scope) : scope.Reaches program last (begun ++ inner) others :=
  ⟨reaches.listed, reaches.named.trans same.symm, by
    rw [List.append_assoc]; exact reaches.inOrder⟩

theorem first {statement : Statement} {rest : List Statement}
    (reaches : scope.Reaches program frame begun (Statement.inOrderAll (statement :: rest))) :
    scope.Reaches program frame begun [statement] := by
  obtain ⟨inside, same⟩ := statement.exists_inOrder
  rw [Statement.inOrderAll, same] at reaches
  exact reaches.here.here

end Scope.Reaches

/-- A statement is executed by a frame of its scope behind those that stand in front of it there,
and the names with values are those that the text says. -/
def Event.Ordered (program : Program) (opened : List (List Statement)) : Event → Prop
  | .executing stack statement => ∃ frame below begun outer, ∃ scope : Scope, stack = frame :: below
    ∧ opened = begun :: outer ∧ scope.Reaches program frame begun [statement]
    ∧ frame.Binds (scope.namesAfter begun)
  | _ => True

/-- Every one of the events is in order where it happens. -/
def Event.AllOrdered (program : Program) : List (List Statement) → List Event → Prop
  | _, [] => True
  | opened, event :: rest => event.Ordered program opened
    ∧ Event.AllOrdered program (event.progress opened) rest

namespace Event

variable {program : Program}

theorem Ordered.of_reaches {scope : Scope} {frame : Frame} {begun : List Statement}
    {statement : Statement} {below : List Frame}
    (reaches : scope.Reaches program frame begun [statement])
    (binds : frame.Binds (scope.namesAfter begun)) (outer : List (List Statement)) :
    Ordered program (begun :: outer) (.executing (frame :: below) statement) :=
  ⟨frame, below, begun, outer, scope, rfl, rfl, reaches, binds⟩

theorem left_notMem_evaluations {frame closed : Frame} (parts : List Expr) :
    Event.left closed ∉ Expr.evaluations frame parts := by
  intro member
  obtain ⟨_, _, impossible⟩ := Expr.evaluated_of_mem parts member
  cases impossible

theorem allOrdered_append (first second : List Event) :
    ∀ opened, AllOrdered program opened (first ++ second)
      ↔ AllOrdered program opened first
        ∧ AllOrdered program (first.foldl progress opened) second := by
  induction first with
  | nil => exact fun _ => (iff_of_eq (true_and _)).symm
  | cons event rest ih =>
      intro opened
      rw [List.cons_append, AllOrdered, AllOrdered, ih, and_assoc]
      rfl

theorem allOrdered_evaluations (frame : Frame) (parts : List Expr) :
    ∀ opened, AllOrdered program opened (Expr.evaluations frame parts) := by
  induction parts with
  | nil => exact fun _ => trivial
  | cons part rest ih =>
      intro opened
      rw [Expr.evaluations]
      cases part.valueIn frame with
      | error error => exact trivial
      | ok value => exact ⟨trivial, ih opened⟩

end Event

namespace Interpreter

variable {interpreter : Interpreter}

/-- A call in order puts a frame on the stack that is in order at the begin of its scope. -/
theorem Sound.enters (sound : interpreter.Sound) {scope : Scope} {frame : Frame}
    {begun next : List Statement} {id : NodeId} {name : String} {position : Position}
    {arguments : List Expr} {header : ProcedureHeader} {procedure : Procedure}
    {values : List Number}
    (reaches : scope.Reaches interpreter.program frame begun
      (.call id name position arguments :: next))
    (resolved : interpreter.resolve frame.scope name arguments.length = .ok (header, procedure))
    (given : Expr.valuesIn frame arguments = .ok values) :
    ∃ callee : Scope, callee.statements = procedure.block.body.statements
      ∧ callee.Reaches interpreter.program (callFrame header values) []
        (Statement.inOrderAll procedure.block.body.statements)
      ∧ (callFrame header values).Binds (callee.namesAfter []) := by
  have inside : Statement.call id name position arguments
      ∈ Statement.inOrderAll scope.statements :=
    reaches.inOrder.subset (List.mem_append_right _ List.mem_cons_self)
  obtain ⟨_, known, declared, visible, _, indexed, rfl, unique, _⟩ :=
    sound.resolves reaches.listed (Statement.visit_of_mem_inOrderAll _ inside)
  -- What the call resolves to is what the analysis has found for it.
  obtain ⟨visible', indexed', count⟩ := resolve_eq_ok resolved
  rw [← reaches.named, visible] at visible'
  cases visible'
  rw [indexed] at indexed'
  cases indexed'
  have among : procedure ∈ interpreter.program.block.allProcedures :=
    List.mem_of_mem_filter (unique ▸ List.mem_singleton_self procedure)
  obtain ⟨callee, member, named, params, statements⟩ :=
    Block.exists_scope_of_mem _ none [] [] interpreter.program.block procedure among
  refine ⟨callee, statements, ⟨member, ?_, ?_⟩, ?_⟩
  · rw [named, scope_callFrame]
    rfl
  · rw [statements]
    exact List.prefix_rfl
  · have each := ((Expr.valuesIn_eq_ok_iff arguments values).mp given).length_eq
    have filled : procedure.header.parameters.length = values.length := count.trans each
    have binds := binds_callFrame filled
    have names : callee.namesAfter []
        = procedure.header.parameters.map FormalParameter.name := by
      rw [Scope.namesAfter, params]
      simp [Procedure.header, Statement.targets]
    rwa [names]

end Interpreter

/-- A frame of a scope that was executed to its end has values for the parameters and for all that
the scope assigns. -/
def Frame.Completed (program : Program) (frame : Frame) : Prop :=
  ∃ scope ∈ program.scopes, scope.name = frame.scope
    ∧ frame.Binds (scope.namesAfter (Statement.inOrderAll scope.statements))

namespace Runs

variable {interpreter : Interpreter} {below : List Frame} {frame last : Frame}
  {statements : List Statement} {events : List Event}

/-- A run begins its statements in order, and calls have come and gone in between. -/
theorem foldl_progress (runs : Runs interpreter below frame statements events last) :
    ∀ begun outer, events.foldl Event.progress (begun :: outer)
      = (begun ++ Statement.inOrderAll statements) :: outer := by
  induction runs with
  | done => simp [Statement.inOrderAll]
  | compound id _ _ inside behind =>
      intro begun outer
      simp [Event.progress, inside, behind, Statement.inOrderAll, Statement.inOrder]
  | assignment id target _ _ ih =>
      intro begun outer
      simp [Event.progress, Event.foldl_progress_evaluations, ih, Statement.inOrderAll,
        Statement.inOrder]
  | call id position _ _ _ _ inside behind =>
      intro begun outer
      simp [Event.progress, Event.foldl_progress_evaluations, inside, behind,
        Statement.inOrderAll, Statement.inOrder]
  | empty id _ ih =>
      intro begun outer
      simp [Event.progress, ih, Statement.inOrderAll, Statement.inOrder]

/-- In front of every statement of a run, and behind the run, the names with values are those that
the text says. -/
theorem ordered (sound : interpreter.Sound)
    (runs : Runs interpreter below frame statements events last) :
    ∀ (scope : Scope) (begun : List Statement) (outer : List (List Statement)),
      scope.Reaches interpreter.program frame begun (Statement.inOrderAll statements) →
      frame.Binds (scope.namesAfter begun) →
        Event.AllOrdered interpreter.program (begun :: outer) events
          ∧ last.Binds (scope.namesAfter (begun ++ Statement.inOrderAll statements))
          ∧ ∀ closed, .left closed ∈ events → closed.Completed interpreter.program := by
  induction runs with
  | done =>
      intro scope begun outer reaches binds
      rw [Statement.inOrderAll, List.append_nil]
      exact ⟨trivial, binds, nofun⟩
  | @compound below frame middle last inner rest events further id body _ inside behind =>
      intro scope begun outer reaches binds
      have inOrder : Statement.inOrderAll (.compound id inner :: rest)
          = [.compound id inner] ++ (Statement.inOrderAll inner ++ Statement.inOrderAll rest) :=
        rfl
      rw [inOrder] at reaches ⊢
      have within := reaches.onward rfl
      obtain ⟨first, between, closed⟩ := inside scope _ outer within.here (binds.pass rfl)
      obtain ⟨second, after, further⟩ :=
        behind scope _ outer (within.onward body.scope_eq) between
      refine ⟨⟨.of_reaches reaches.here binds outer, ?_⟩, ?_, ?_⟩
      · rw [Event.allOrdered_append, Event.progress_executing, body.foldl_progress]
        exact ⟨first, second⟩
      · simpa only [List.append_assoc] using after
      · intro frame member
        simp only [List.mem_cons, List.mem_append, reduceCtorEq, false_or] at member
        exact member.elim (closed frame) (further frame)
  | @assignment below frame last value result rest events id target found _ ih =>
      intro scope begun outer reaches binds
      have inOrder : Statement.inOrderAll (.assignment id target value :: rest)
          = [.assignment id target value] ++ Statement.inOrderAll rest := rfl
      rw [inOrder] at reaches ⊢
      obtain ⟨others, after, closed⟩ :=
        ih scope _ outer (reaches.onward rfl) (binds.set id target value result)
      refine ⟨⟨.of_reaches reaches.here binds outer, ?_⟩, ?_, ?_⟩
      · rw [Event.allOrdered_append, Event.progress_executing, Event.foldl_progress_evaluations]
        exact ⟨Event.allOrdered_evaluations frame _ _, trivial, others⟩
      · simpa only [List.append_assoc] using after
      · intro frame member
        simp only [List.mem_cons, List.mem_append, reduceCtorEq, false_or] at member
        exact member.elim (absurd · (Event.left_notMem_evaluations _)) (closed frame)
  | @call below frame final last name arguments header procedure values rest inner events id
      position resolved given body _ inside behind =>
      intro scope begun outer reaches binds
      have inOrder : Statement.inOrderAll (.call id name position arguments :: rest)
          = [.call id name position arguments] ++ Statement.inOrderAll rest := rfl
      rw [inOrder] at reaches ⊢
      obtain ⟨callee, statements, entered, parameters⟩ := sound.enters reaches resolved given
      obtain ⟨within, final, closed⟩ := inside callee [] _ entered parameters
      obtain ⟨others, after, further⟩ := behind scope _ outer (reaches.onward rfl) (binds.pass rfl)
      refine ⟨⟨.of_reaches reaches.here binds outer, ?_⟩, ?_, ?_⟩
      · rw [Event.allOrdered_append, Event.progress_executing, Event.foldl_progress_evaluations]
        refine ⟨Event.allOrdered_evaluations frame _ _, trivial, ?_⟩
        rw [Event.allOrdered_append, Event.progress_entered, body.foldl_progress]
        exact ⟨within, trivial, others⟩
      · simpa only [List.append_assoc] using after
      · intro frame member
        simp only [List.mem_cons, List.mem_append, reduceCtorEq, false_or, Event.left.injEq]
          at member
        rcases member with evaluated | deeper | rfl | later
        · exact absurd evaluated (Event.left_notMem_evaluations _)
        · exact closed frame deeper
        · refine ⟨callee, entered.listed, entered.named.trans body.scope_eq.symm, ?_⟩
          rwa [statements]
        · exact further frame later
  | @empty below frame last rest events id _ ih =>
      intro scope begun outer reaches binds
      have inOrder : Statement.inOrderAll (.empty id :: rest)
          = [.empty id] ++ Statement.inOrderAll rest := rfl
      rw [inOrder] at reaches ⊢
      obtain ⟨others, after, closed⟩ := ih scope _ outer (reaches.onward rfl) (binds.pass rfl)
      refine ⟨⟨.of_reaches reaches.here binds outer, others⟩, ?_, ?_⟩
      · simpa only [List.append_assoc] using after
      · intro frame member
        simp only [List.mem_cons, reduceCtorEq, false_or] at member
        exact closed frame member

end Runs

/-- Up to the end of a run that fails, the names with values are those that the text says. -/
theorem StopsWith.allOrdered {interpreter : Interpreter} {below : List Frame} {frame last : Frame}
    {statements : List Statement} {events : List Event} {halt : Halt}
    (sound : interpreter.Sound)
    (stops : StopsWith interpreter below frame statements events last halt) :
    ∀ (scope : Scope) (begun : List Statement) (outer : List (List Statement)),
      scope.Reaches interpreter.program frame begun (Statement.inOrderAll statements) →
      frame.Binds (scope.namesAfter begun) →
        Event.AllOrdered interpreter.program (begun :: outer) events := by
  induction stops with
  | behind runs _ ih =>
      intro scope begun outer reaches binds
      rw [Statement.inOrderAll_append] at reaches
      obtain ⟨first, between, _⟩ := runs.ordered sound scope begun outer reaches.here binds
      rw [Event.allOrdered_append, runs.foldl_progress]
      exact ⟨first, ih scope _ outer (reaches.onward runs.scope_eq) between⟩
  | @compound below frame last inner events halt id rest _ ih =>
      intro scope begun outer reaches binds
      have inOrder : Statement.inOrderAll (.compound id inner :: rest)
          = [.compound id inner] ++ (Statement.inOrderAll inner ++ Statement.inOrderAll rest) :=
        rfl
      rw [inOrder] at reaches
      have within := (reaches.onward rfl).here
      exact ⟨.of_reaches reaches.here binds outer, ih scope _ outer within (binds.pass rfl)⟩
  | assignment id target rest _ =>
      intro scope begun outer reaches binds
      exact ⟨.of_reaches reaches.first binds outer, Event.allOrdered_evaluations _ _ _⟩
  | unresolved id position rest _ =>
      intro scope begun outer reaches binds
      exact ⟨.of_reaches reaches.first binds outer, trivial⟩
  | argument id position rest _ _ =>
      intro scope begun outer reaches binds
      exact ⟨.of_reaches reaches.first binds outer, Event.allOrdered_evaluations _ _ _⟩
  | tooDeep id position rest _ _ =>
      intro scope begun outer reaches binds
      exact ⟨.of_reaches reaches.first binds outer, Event.allOrdered_evaluations _ _ _⟩
  | @call below frame final name arguments header procedure values inner halt id position rest
      resolved given _ ih =>
      intro scope begun outer reaches binds
      obtain ⟨callee, _, entered, parameters⟩ := sound.enters reaches resolved given
      refine ⟨.of_reaches reaches.first binds outer, ?_⟩
      rw [Event.allOrdered_append, Event.progress_executing, Event.foldl_progress_evaluations]
      refine ⟨Event.allOrdered_evaluations frame _ _, trivial, ?_⟩
      rw [Event.allOrdered_append, Event.progress_entered]
      exact ⟨ih callee [] _ entered parameters, trivial, trivial⟩

/-! ## Faults of a run -/

/-- The event is the begin of a statement with this fault in what it evaluates. -/
def Event.FailsWith (error : RuntimeError) : Event → Prop
  | .executing (frame :: _) statement => Expr.valuesIn frame statement.ownOperands = .error error
  | _ => False

/-- A statement that evaluates nothing has no fault. -/
theorem Event.not_failsWith_of_ownOperands {frame : Frame} {below : List Frame}
    {statement : Statement} {error : RuntimeError} (none : statement.ownOperands = []) :
    ¬ Event.FailsWith error (.executing (frame :: below) statement) := by
  intro failed
  rw [FailsWith, none, Expr.valuesIn] at failed
  cases failed

theorem Event.not_failsWith_of_mem_evaluations {frame : Frame} (parts : List Expr)
    (error : RuntimeError) : ∀ event ∈ Expr.evaluations frame parts, ¬ event.FailsWith error := by
  intro event member
  obtain ⟨_, _, rfl⟩ := Expr.evaluated_of_mem parts member
  exact id

theorem Event.exists_failsWith_append (error : RuntimeError) (first second : List Event) :
    (∃ event ∈ first ++ second, event.FailsWith error)
      ↔ (∃ event ∈ first, event.FailsWith error) ∨ ∃ event ∈ second, event.FailsWith error := by
  simp only [List.mem_append, or_and_right, exists_or]

theorem Expr.valuesIn_singleton (frame : Frame) (expr : Expr) :
    Expr.valuesIn frame [expr] = (expr.valueIn frame).map fun value => [value] := by
  rw [valuesIn, valuesIn]
  cases expr.valueIn frame <;> rfl

/-- In statements that run to their end no statement has a fault. -/
theorem Runs.not_failsWith {interpreter : Interpreter} {below : List Frame} {frame last : Frame}
    {statements : List Statement} {events : List Event} (error : RuntimeError)
    (runs : Runs interpreter below frame statements events last) :
    ∀ event ∈ events, ¬ event.FailsWith error := by
  induction runs with
  | done => exact List.forall_mem_nil _
  | compound id _ _ inside behind =>
      rw [List.forall_mem_cons, List.forall_mem_append]
      exact ⟨Event.not_failsWith_of_ownOperands rfl, inside, behind⟩
  | @assignment below frame last value result rest events id target found _ ih =>
      simp only [List.forall_mem_cons, List.forall_mem_append]
      refine ⟨?_, Event.not_failsWith_of_mem_evaluations _ error, not_false, ih⟩
      intro failed
      rw [Event.FailsWith, Statement.ownOperands, Expr.valuesIn_singleton, found] at failed
      cases failed
  | @call below frame final last name arguments header procedure values rest inner events id
      position resolved given body _ inside behind =>
      simp only [List.forall_mem_cons, List.forall_mem_append]
      refine ⟨?_, Event.not_failsWith_of_mem_evaluations _ error, ?_, inside, ?_, behind⟩
      · intro failed
        rw [Event.FailsWith, Statement.ownOperands, given] at failed
        cases failed
      · exact not_false
      · exact not_false
  | empty id _ ih =>
      rw [List.forall_mem_cons]
      exact ⟨Event.not_failsWith_of_ownOperands rfl, ih⟩

/-- Statements that stop where every call resolves stop with the fault of the one statement that
has one. -/
theorem StopsWith.exists_failsWith_iff {interpreter : Interpreter} {below : List Frame}
    {frame last : Frame} {statements : List Statement} {events : List Event} {halt : Halt}
    (error : RuntimeError) (stops : StopsWith interpreter below frame statements events last halt) :
    (∀ reason, halt ≠ .fault (.mismatch reason)) →
      ((∃ event ∈ events, event.FailsWith error) ↔ halt = .fault error) := by
  have evaluated : ∀ (frame : Frame) (parts : List Expr),
      ¬ ∃ event ∈ Expr.evaluations frame parts, event.FailsWith error :=
    fun frame parts ⟨event, member, failed⟩ =>
      Event.not_failsWith_of_mem_evaluations parts error event member failed
  induction stops with
  | @behind below frame middle last first others events further halt runs _ ih =>
      intro regular
      have passed : ¬ ∃ event ∈ events, event.FailsWith error :=
        fun ⟨event, member, failed⟩ => runs.not_failsWith error event member failed
      rw [Event.exists_failsWith_append, or_iff_right passed, ih regular]
  | compound id rest _ ih =>
      intro regular
      rw [List.exists_mem_cons_iff, or_iff_right (Event.not_failsWith_of_ownOperands rfl),
        ih regular]
  | @assignment below frame value fault id target rest failed =>
      intro regular
      rw [List.exists_mem_cons_iff, or_iff_left (evaluated _ _), Event.FailsWith,
        Statement.ownOperands, Expr.valuesIn_singleton, failed]
      simp [Except.map]
  | unresolved id position rest failed =>
      intro regular
      exact absurd rfl (regular _)
  | @argument below frame name arguments found fault id position rest resolved failed =>
      intro regular
      rw [List.exists_mem_cons_iff, or_iff_left (evaluated _ _), Event.FailsWith,
        Statement.ownOperands, failed]
      simp
  | @tooDeep below frame name arguments found values id position rest resolved given =>
      intro regular
      rw [List.exists_mem_cons_iff, or_iff_left (evaluated _ _), Event.FailsWith,
        Statement.ownOperands, given]
      simp
  | @call below frame final name arguments header procedure values inner halt id position rest
      resolved given _ ih =>
      intro regular
      have given' : ¬ Event.FailsWith error
          (.executing (frame :: below) (.call id name position arguments)) := by
        intro failed
        rw [Event.FailsWith, Statement.ownOperands, given] at failed
        cases failed
      have left : ¬ ∃ event ∈ [Event.left final], event.FailsWith error := by
        simp [Event.FailsWith]
      rw [List.exists_mem_cons_iff, or_iff_right given', Event.exists_failsWith_append,
        or_iff_right (evaluated _ _), List.exists_mem_cons_iff,
        or_iff_right (show ¬ Event.FailsWith error (.entered _ _) from not_false),
        Event.exists_failsWith_append, or_iff_left left, ih regular]

/-- What a statement evaluates fails for a name without a value exactly if it comes to a read of
that name. -/
theorem Expr.valuesIn_eq_uninitialized_iff {frame : Frame} (exprs : List Expr)
    (name scope : String) (position : Position) :
    Expr.valuesIn frame exprs = .error (.uninitialized name scope position)
      ↔ ∃ source, ComesTo frame (exprs.flatMap parts) (.read source)
        ∧ frame.get? source.name = none
        ∧ source.name = name ∧ source.position = position ∧ frame.scope = scope := by
  rw [valuesIn_eq_error_iff]
  constructor
  · rintro ⟨part, comes, arises⟩
    generalize same : RuntimeError.uninitialized name scope position = error at arises
    cases arises with
    | @read source unbound =>
        cases same
        exact ⟨source, comes, unbound, rfl, rfl, rfl⟩
    | @unary _ _ _ _ _ fault _ _ => cases fault <;> cases same
    | @binary _ _ _ _ _ _ _ fault _ _ _ => cases fault <;> cases same
  · rintro ⟨source, comes, unbound, rfl, rfl, rfl⟩
    exact ⟨.read source, comes, .read unbound⟩

namespace Interpreter

variable {program : Program} {tree : ScopeTree}

/-- The program itself is a scope without parameters. -/
theorem reaches_start (program : Program) : ∃ scope : Scope,
    scope.statements = program.block.body.statements
      ∧ scope.Reaches program (Frame.ofScope program.name) []
        (Statement.inOrderAll program.block.body.statements)
      ∧ (Frame.ofScope program.name).Binds (scope.namesAfter []) := by
  obtain ⟨id, name, bodyId, declarations, procedures, body⟩ := program
  refine ⟨_, rfl, ⟨List.mem_cons_self, rfl, List.prefix_rfl⟩, fun name => ?_⟩
  simp [Frame.get?, Frame.ofScope, Scope.namesAfter, Statement.targets]

/-- What a run records is in order, and its frames are those of scopes executed to their end if it
succeeds. -/
theorem run_ordered (accepted : program.analyse = .ok tree) (depth : Nat) :
    Event.AllOrdered program [] ((ofProgram program tree).run depth).2.machine.history
      ∧ ∀ outcome, ((ofProgram program tree).run depth).1 = .ok outcome →
        ∀ frame ∈ outcome.completed, frame.Completed program := by
  have sound : (ofProgram program tree).Sound := (Started.new.sound accepted).1
  obtain ⟨scope, statements, reaches, binds⟩ := reaches_start program
  have around : ∀ {inner : List Event} (final : Frame),
      Event.AllOrdered program [[]] inner →
        Event.AllOrdered program [] (.started program.name
          :: .entered (Frame.ofScope program.name) 1 :: (inner ++ [.left final])) :=
    fun final ordered =>
      ⟨trivial, trivial, (Event.allOrdered_append _ _ _).mpr ⟨ordered, trivial, trivial⟩⟩
  cases result : ((ofProgram program tree).run depth).1 with
  | ok outcome =>
      obtain ⟨inner, final, reached, runs, rfl, happened, rfl⟩ := run_eq_ok result
      obtain ⟨ordered, last, closed⟩ := runs.ordered sound scope [] [] reaches binds
      refine ⟨happened ▸ around final ordered, ?_⟩
      rintro _ ⟨⟩ frame member
      obtain ⟨event, inside, left⟩ := List.mem_filterMap.mp member
      cases event <;> cases left
      rw [happened] at inside
      simp only [List.mem_cons, List.mem_append, reduceCtorEq, false_or, List.not_mem_nil,
        or_false, Event.left.injEq] at inside
      rcases inside with deeper | rfl
      · exact closed frame deeper
      · refine ⟨scope, reaches.listed, reaches.named.trans runs.scope_eq.symm, ?_⟩
        rwa [statements]
  | error halt =>
      obtain ⟨inner, final, stops, happened⟩ := run_eq_error result
      refine ⟨happened ▸ around final (stops.allOrdered sound scope [] [] reaches binds), ?_⟩
      intro outcome succeeded
      cases succeeded

/-- A run of an analysed program fails with the fault of the statement that has one. -/
theorem run_eq_fault_iff (accepted : program.analyse = .ok tree) (depth : Nat)
    (error : RuntimeError) :
    ((ofProgram program tree).run depth).1 = .error (.fault error)
      ↔ ∃ event ∈ ((ofProgram program tree).run depth).2.machine.history,
        event.FailsWith error := by
  have around : ∀ (inner : List Event) (final : Frame),
      (∃ event ∈ Event.started program.name :: .entered (Frame.ofScope program.name) 1
          :: (inner ++ [.left final]), event.FailsWith error)
        ↔ ∃ event ∈ inner, event.FailsWith error := by
    intro inner final
    have left : ¬ ∃ event ∈ [Event.left final], event.FailsWith error := by
      simp [Event.FailsWith]
    rw [List.exists_mem_cons_iff,
      or_iff_right (show ¬ Event.FailsWith error (.started _) from not_false),
      List.exists_mem_cons_iff,
      or_iff_right (show ¬ Event.FailsWith error (.entered _ _) from not_false),
      Event.exists_failsWith_append, or_iff_left left]
  cases result : ((ofProgram program tree).run depth).1 with
  | ok outcome =>
      obtain ⟨inner, final, reached, runs, rfl, happened, rfl⟩ := run_eq_ok result
      rw [happened, around]
      refine ⟨nofun, ?_⟩
      rintro ⟨event, member, failed⟩
      exact absurd failed (runs.not_failsWith error event member)
  | error halt =>
      obtain ⟨inner, final, stops, happened⟩ := run_eq_error result
      have expected := (run_agrees accepted .new depth).2.2.2.2
      rw [happened, around, stops.exists_failsWith_iff error]
      · simp
      · rintro reason rfl
        rw [result] at expected
        exact expected

/-- A statement that a run begins stands behind those that its activation has begun, and the names
with values are those that the text says. -/
theorem exists_reached (accepted : program.analyse = .ok tree) (depth : Nat)
    {earlier later : List Event} {stack : List Frame} {statement : Statement}
    (split : ((ofProgram program tree).run depth).2.machine.history
      = earlier ++ .executing stack statement :: later) :
    ∃ frame below, ∃ scope : Scope, stack = frame :: below
      ∧ scope.Reaches program frame (Event.begun earlier) [statement]
      ∧ frame.Binds (scope.namesAfter (Event.begun earlier)) := by
  obtain ⟨ordered, _⟩ := run_ordered accepted depth
  rw [split, Event.allOrdered_append] at ordered
  obtain ⟨frame, below, begun, outer, scope, same, progress, reaches, binds⟩ := ordered.2.1
  have here : Event.begun earlier = begun := by
    rw [Event.begun, progress]
    rfl
  exact ⟨frame, below, scope, same, here ▸ reaches, here ▸ binds⟩

/-- Initialisation is lexical. Whenever an analysed program is about to execute a statement, the
activation has begun just the statements that stand in front of it in the text of its scope, and
the names with values are the parameters of the scope and those that these statements assign. So a
run fails for a variable without a value exactly if it comes to a read of a name that is neither,
and the frames that a successful run leaves have values for the parameters and for all that their
scopes assign. -/
theorem run_initialises {program : Program} {tree : ScopeTree}
    (accepted : program.analyse = .ok tree) {interpreter : Interpreter}
    (started : Started program tree interpreter) (depth : Nat) :
    (∀ earlier stack statement later, (interpreter.run depth).2.machine.history
        = earlier ++ .executing stack statement :: later →
      ∃ frame below, ∃ scope : Scope, stack = frame :: below
        ∧ scope.Reaches program frame (Event.begun earlier) [statement]
        ∧ frame.Binds (scope.namesAfter (Event.begun earlier)))
      ∧ (∀ name scopeName position, (interpreter.run depth).1
          = .error (.fault (.uninitialized name scopeName position))
        ↔ ∃ earlier frame below statement later, ∃ scope : Scope, ∃ source : Variable,
          (interpreter.run depth).2.machine.history
              = earlier ++ .executing (frame :: below) statement :: later
            ∧ scope.Reaches program frame (Event.begun earlier) [statement]
            ∧ Expr.ComesTo frame statement.ownParts (.read source)
            ∧ source.name ∉ scope.namesAfter (Event.begun earlier)
            ∧ source.name = name ∧ source.position = position ∧ scope.name = scopeName)
      ∧ ∀ outcome, (interpreter.run depth).1 = .ok outcome →
        ∀ frame ∈ outcome.completed, frame.Completed program := by
  rw [started.run_eq depth]
  refine ⟨fun _ _ _ _ split => exists_reached accepted depth split, ?_,
    (run_ordered accepted depth).2⟩
  intro name scopeName position
  rw [run_eq_fault_iff accepted]
  constructor
  · rintro ⟨event, member, failed⟩
    obtain ⟨earlier, later, split⟩ := List.append_of_mem member
    cases event with
    | executing stack statement =>
        obtain ⟨frame, below, scope, rfl, reaches, binds⟩ := exists_reached accepted depth split
        obtain ⟨source, comes, unbound, named, placed, within⟩ :=
          (Expr.valuesIn_eq_uninitialized_iff _ _ _ _).mp failed
        refine ⟨earlier, frame, below, statement, later, scope, source, split, reaches, comes, ?_,
          named, placed, reaches.named.trans within⟩
        rw [← binds source.name, unbound]
        nofun
    | _ => exact failed.elim
  · rintro ⟨earlier, frame, below, statement, later, scope, source, split, reaches, comes,
      absent, named, placed, within⟩
    obtain ⟨_, _, other, same, reaches', binds⟩ := exists_reached accepted depth split
    cases same
    -- Scopes have names of their own, so the scope of the read is the one that was reached.
    have distinct := (program.exists_analyse_iff.mp ⟨tree, accepted⟩).1.scopeNames
    have equal : other = scope := List.inj_on_of_nodup_map distinct reaches'.listed reaches.listed
      (reaches'.named.trans reaches.named.symm)
    rw [equal] at binds
    refine ⟨.executing (frame :: below) statement, by simp [split], ?_⟩
    refine (Expr.valuesIn_eq_uninitialized_iff _ _ _ _).mpr
      ⟨source, comes, ?_, named, placed, reaches.named.symm.trans within⟩
    rw [← binds source.name] at absent
    exact Option.not_isSome_iff_eq_none.mp absent

/-- `PROGRAM main; VAR a, b : INTEGER; PROCEDURE twice(n : INTEGER); VAR r : INTEGER;
BEGIN r := n + n END; BEGIN BEGIN a := 1; twice(a) END; b := b END.` -/
def forgetful : Program :=
  ⟨0, "main", ⟨0,
    [⟨0, [⟨0, "a", Position.start⟩, ⟨0, "b", Position.start⟩], ⟨0, .integer, Position.start⟩⟩],
    [⟨0, "twice", Position.start,
      [⟨0, ⟨0, "n", Position.start⟩, ⟨0, .integer, Position.start⟩⟩],
      ⟨0, [⟨0, [⟨0, "r", Position.start⟩], ⟨0, .integer, Position.start⟩⟩], [],
        ⟨0, [.assignment 0 ⟨0, "r", Position.start⟩
          (.binary 3 .plus (.read ⟨1, "n", Position.start⟩) (.read ⟨2, "n", Position.start⟩)
            Position.start)]⟩⟩⟩],
    ⟨0, [.compound 0 [.assignment 0 ⟨0, "a", Position.start⟩ (.number 4 (.integer 1)),
        .call 0 "twice" Position.start [.read ⟨5, "a", Position.start⟩]],
      .assignment 0 ⟨0, "b", Position.start⟩ (.read ⟨6, "b", ⟨2, 64⟩⟩)]⟩⟩⟩

theorem run_initialises_forgetful : ∃ tree, forgetful.analyse = .ok tree
    ∧ ((ofProgram forgetful tree).run 1).1 = .error (.fault (.uninitialized "b" "main" ⟨2, 64⟩))
    ∧ ∃ earlier frame below statement later, ∃ scope : Scope, ∃ source : Variable,
      ((ofProgram forgetful tree).run 1).2.machine.history
          = earlier ++ .executing (frame :: below) statement :: later
        ∧ scope.Reaches forgetful frame (Event.begun earlier) [statement]
        ∧ Expr.ComesTo frame statement.ownParts (.read source)
        ∧ source.name ∉ scope.namesAfter (Event.begun earlier)
        ∧ source.name = "b" ∧ source.position = ⟨2, 64⟩ ∧ scope.name = "main" := by
  have accepted : forgetful.analyse = .ok (Analysis.run forgetful).scopes :=
    (forgetful.analyse_eq_ok_iff _).mpr ⟨by decide +kernel, rfl⟩
  have result : ((ofProgram forgetful (Analysis.run forgetful).scopes).run 1).1
      = .error (.fault (.uninitialized "b" "main" ⟨2, 64⟩)) :=
    eq_error_of_map (f := fun _ => ()) (by decide +kernel)
  exact ⟨_, accepted, result, ((run_initialises accepted .new 1).2.1 _ _ _).mp result⟩

end Interpreter
end MiniPascal
