import MiniPascal.Proofs.Run.CallGraph

/-! # Visits that ends of runs are about

A fault of a run comes from an operator or a name of the program, and has its position from there.
Which operators can be at fault is decided by the arithmetic: only a division meets a zero, and a
division with a fraction never leaves the integers. -/
set_option autoImplicit false
namespace MiniPascal

/-! ## Faults of arithmetic -/

/-- Operators that divide. -/
def BinaryOperator.dividing : List BinaryOperator :=
  [.integerDivide, .realDivide]

/-- Operators whose result may be an integer. -/
def BinaryOperator.exact : List BinaryOperator :=
  [.plus, .minus, .multiply, .integerDivide]

namespace Number

theorem eq_overflow_of_ofExact {value : Int} {fault : ArithmeticFault}
    (refused : ofExact value = .error fault) : fault = .overflow := by
  unfold ofExact at refused
  split at refused <;> cases refused
  rfl

theorem eq_overflow_of_combine {exact : Int → Int → Int} {rounded : Float → Float → Float}
    {left right : Number} {fault : ArithmeticFault}
    (refused : combine exact rounded left right = .error fault) : fault = .overflow := by
  unfold combine at refused
  split at refused
  · exact eq_overflow_of_ofExact refused
  · cases refused

end Number

/-- Only a division finds a zero, and only an exact operation overflows. -/
theorem BinaryOperator.mem_of_apply {operator : BinaryOperator} {left right : Number}
    {fault : ArithmeticFault} (refused : operator.apply left right = .error fault) :
    fault = .divisionByZero ∧ operator ∈ dividing ∨ fault = .overflow ∧ operator ∈ exact := by
  cases operator with
  | plus => exact .inr ⟨Number.eq_overflow_of_combine refused, by decide⟩
  | minus => exact .inr ⟨Number.eq_overflow_of_combine refused, by decide⟩
  | multiply => exact .inr ⟨Number.eq_overflow_of_combine refused, by decide⟩
  | integerDivide =>
      rw [apply, Number.integerDivide] at refused
      split at refused
      · cases refused
        exact .inl ⟨rfl, by decide⟩
      · exact .inr ⟨Number.eq_overflow_of_combine refused, by decide⟩
  | realDivide =>
      rw [apply, Number.realDivide] at refused
      split at refused <;> cases refused
      exact .inl ⟨rfl, by decide⟩

theorem UnaryOperator.eq_minus_of_apply {operator : UnaryOperator} {operand : Number}
    {fault : ArithmeticFault} (refused : operator.apply operand = .error fault) :
    operator = .minus ∧ fault = .overflow := by
  cases operator with
  | plus => cases refused
  | minus =>
      cases operand with
      | integer value => exact ⟨rfl, Number.eq_overflow_of_ofExact refused⟩
      | real value => cases refused

/-! ## Faults of a run -/

/-- The fault is about this visit: an operator that was applied, or a name that was read. -/
inductive RuntimeError.About : RuntimeError → Visit → Prop where
  | divisionByZero {id : NodeId} {operator : BinaryOperator} {left right : Expr}
    {position : Position} : operator ∈ BinaryOperator.dividing →
    About (.divisionByZero position) (.binary id operator left right position)
  | overflow {id : NodeId} {operator : BinaryOperator} {left right : Expr} {position : Position} :
    operator ∈ BinaryOperator.exact →
    About (.overflow position) (.binary id operator left right position)
  | negation {id : NodeId} {operand : Expr} {position : Position} :
    About (.overflow position) (.unary id .minus operand position)
  | uninitialized {source : Variable} {scope : String} :
    About (.uninitialized source.name scope source.position) (.used source)

/-- The end of a run is about one of the visits, if it is about the program at all. -/
def Halt.StemsFrom (visits : List Visit) : Halt → Prop
  | .fault (.mismatch _) | .depthExceeded => True
  | .fault error => ∃ visit ∈ visits, error.About visit

theorem RuntimeError.About.stems {error : RuntimeError} {visit : Visit} {visits : List Visit}
    (about : error.About visit) (member : visit ∈ visits) :
    (Halt.fault error).StemsFrom visits := by
  cases about <;> exact ⟨_, member, by constructor <;> assumption⟩

namespace Execute

/-- Wherever the computation ends a run, that stems from the visits. -/
def HaltsFor {α : Type} (visits : List Visit) (body : Execute α) : Prop :=
  ∀ machine halt after, body machine = .error halt after → halt.StemsFrom visits

namespace HaltsFor

variable {α β : Type} {visits : List Visit}

theorem pure (value : α) : HaltsFor visits (Pure.pure value : Execute α) :=
  nofun

theorem bind {body : Execute α} {further : α → Execute β} (first : HaltsFor visits body)
    (second : ∀ value, HaltsFor visits (further value)) : HaltsFor visits (body >>= further) := by
  intro machine halt after ended
  simp only [Bind.bind, EStateM.bind] at ended
  cases done : body machine with
  | ok value between =>
      rw [done] at ended
      exact second value between halt after ended
  | error stopped between =>
      rw [done] at ended
      cases ended
      exact first machine halt after done

theorem fail {error : RuntimeError} (stems : (Halt.fault error).StemsFrom visits) :
    HaltsFor visits (Execute.fail error : Execute α) := by
  rintro machine halt after ⟨⟩
  exact stems

theorem note (event : Event) : HaltsFor visits (Execute.note event) :=
  nofun

theorem noteStatement (statement : Statement) : HaltsFor visits (Execute.noteStatement statement) :=
  nofun

theorem innermost : HaltsFor visits Execute.innermost := by
  intro machine halt after ended
  unfold Execute.innermost at ended
  split at ended <;> cases ended
  trivial

theorem assign (name : String) (value : Number) : HaltsFor visits (Execute.assign name value) := by
  intro machine halt after ended
  unfold Execute.assign at ended
  split at ended <;> cases ended
  trivial

theorem framed {frame : Frame} {body : Execute Unit} (inside : HaltsFor visits body) :
    HaltsFor visits (Execute.framed frame body) := by
  intro machine halt after ended
  unfold Execute.framed at ended
  split at ended <;> cases ended
  rename_i done
  exact inside _ _ _ done

theorem binary {id : NodeId} {operator : BinaryOperator} {left right : Expr} {position : Position}
    (member : .binary id operator left right position ∈ visits) (first second : Number) :
    HaltsFor visits (arithmetic position (operator.apply first second)) := by
  cases applied : operator.apply first second with
  | ok value => exact pure value
  | error fault =>
      rcases BinaryOperator.mem_of_apply applied with ⟨rfl, divides⟩ | ⟨rfl, stays⟩
      · exact fail ((RuntimeError.About.divisionByZero divides).stems member)
      · exact fail ((RuntimeError.About.overflow stays).stems member)

theorem unary {id : NodeId} {operator : UnaryOperator} {operand : Expr} {position : Position}
    (member : .unary id operator operand position ∈ visits) (inner : Number) :
    HaltsFor visits (arithmetic position (operator.apply inner)) := by
  cases applied : operator.apply inner with
  | ok value => exact pure value
  | error fault =>
      obtain ⟨rfl, rfl⟩ := UnaryOperator.eq_minus_of_apply applied
      exact fail (RuntimeError.About.negation.stems member)

/-- The evaluation of an expression that is visited. -/
theorem evaluate (expr : Expr) : expr.visits ⊆ visits → HaltsFor visits expr.evaluate := by
  induction expr with
  | number id value => exact fun _ => bind (note _) fun _ => pure _
  | read source =>
      intro visited
      refine bind innermost fun frame => ?_
      cases frame.get? source.name with
      | none =>
          have about : RuntimeError.About
              (.uninitialized source.name frame.scope source.position) (.used source) :=
            .uninitialized
          exact fail (about.stems (visited List.mem_cons_self))
      | some value => exact bind (note _) fun _ => pure _
  | unary id operator operand position ih =>
      intro visited
      obtain ⟨inside, own⟩ := List.append_subset.mp visited
      refine bind (ih inside) fun inner => ?_
      exact bind (unary (own List.mem_cons_self) inner) fun _ => bind (note _) fun _ => pure _
  | binary id operator left right position ihLeft ihRight =>
      intro visited
      obtain ⟨operands, own⟩ := List.append_subset.mp visited
      obtain ⟨first, second⟩ := List.append_subset.mp operands
      refine bind (ihLeft first) fun left => bind (ihRight second) fun right => ?_
      exact bind (binary (own List.mem_cons_self) left right) fun _ =>
        bind (note _) fun _ => pure _

theorem evaluateAll (exprs : List Expr) :
    exprs.flatMap Expr.visits ⊆ visits → HaltsFor visits (Expr.evaluateAll exprs) := by
  induction exprs with
  | nil => exact fun _ => pure _
  | cons first rest ih =>
      intro visited
      rw [List.flatMap_cons] at visited
      obtain ⟨one, others⟩ := List.append_subset.mp visited
      exact bind (evaluate first one) fun _ => bind (ih others) fun _ => pure _

end HaltsFor

/-- The rule for calls that statements are to be executed with. -/
def CallsHaltFor (visits : List Visit) (call : String → List Expr → Execute Unit) : Prop :=
  ∀ name arguments, arguments.flatMap Expr.visits ⊆ visits → HaltsFor visits (call name arguments)

end Execute

section Statements

open Execute HaltsFor

variable {visits : List Visit} {call : String → List Expr → Execute Unit}

mutual

theorem Statement.haltsFor (calls : CallsHaltFor visits call) : ∀ statement : Statement,
    statement.visits ⊆ visits → HaltsFor visits (statement.execute call)
  | .compound id statements, visited => by
    obtain ⟨_, inside⟩ := List.cons_subset.mp (List.append_subset.mp visited).1
    exact bind (noteStatement _) fun _ => Statement.haltsForAll calls statements inside
  | .assignment id target value, visited => by
    obtain ⟨_, inside⟩ := List.cons_subset.mp (List.append_subset.mp visited).1
    refine bind (noteStatement _) fun _ => bind (evaluate value inside) fun result => ?_
    exact bind (note _) fun _ => assign _ _
  | .call id name position arguments, visited =>
    bind (noteStatement _) fun _ => calls name arguments (List.append_subset.mp visited).1
  | .empty id, _ => noteStatement _

theorem Statement.haltsForAll (calls : CallsHaltFor visits call) : ∀ statements : List Statement,
    Statement.visitsOf statements ⊆ visits →
      HaltsFor visits (Statement.executeAll call statements)
  | [], _ => pure ()
  | statement :: rest, visited => by
    obtain ⟨first, others⟩ := List.append_subset.mp visited
    exact bind (Statement.haltsFor calls statement first) fun _ =>
      Statement.haltsForAll calls rest others

end

end Statements

theorem Program.visitsOf_subset {program : Program} {tree : ScopeTree}
    (accepted : program.analyse = .ok tree) {scope : Scope} (member : scope ∈ program.scopes) :
    Statement.visitsOf scope.statements ⊆ program.visits := by
  intro visit inside
  obtain ⟨earlier, later, split, _⟩ := Program.site_of_mem accepted member inside
  rw [split]
  exact List.mem_append_right _ List.mem_cons_self

namespace Interpreter

open Execute HaltsFor

variable {interpreter : Interpreter} {visits : List Visit}

/-- The body of every procedure that a call may find is visited. -/
def BodiesIn (interpreter : Interpreter) (visits : List Visit) : Prop :=
  ∀ (name : String) (procedure : Procedure), interpreter.procedures[name]? = some procedure →
    Statement.visitsOf procedure.block.body.statements ⊆ visits

theorem callsHaltFor {invoke : Procedure → Frame → Execute Unit}
    (invokes : ∀ (name : String) (procedure : Procedure),
      interpreter.procedures[name]? = some procedure →
        ∀ frame, HaltsFor visits (invoke procedure frame)) :
    CallsHaltFor visits (interpreter.call invoke) := by
  intro name arguments visited
  refine bind innermost fun frame => ?_
  cases interpreter.scopes.findProcedure? frame.scope name with
  | none => exact fail trivial
  | some header =>
      cases indexed : interpreter.procedures[header.name]? with
      | none =>
          simp only [indexed]
          exact fail trivial
      | some procedure =>
          simp only [indexed]
          split
          · exact bind (evaluateAll arguments visited) fun values =>
              invokes header.name procedure indexed _
          · exact fail trivial

theorem haltsFor_invoke (bodies : interpreter.BodiesIn visits) (depth : Nat) :
    ∀ (name : String) (procedure : Procedure), interpreter.procedures[name]? = some procedure →
      ∀ frame, HaltsFor visits (interpreter.invoke depth procedure frame) := by
  induction depth with
  | zero =>
      rintro name procedure _ frame machine halt after ⟨⟩
      trivial
  | succ depth ih =>
      intro name procedure indexed frame
      refine bind (framed ?_) fun _ => pure _
      exact Statement.haltsForAll (callsHaltFor ih) _ (bodies name procedure indexed)

theorem bodiesIn_of_analyse {program : Program} {tree : ScopeTree}
    (accepted : program.analyse = .ok tree) : (ofProgram program tree).BodiesIn program.visits := by
  intro name procedure indexed
  obtain ⟨among, _⟩ := Program.mem_allProcedures_of_index accepted indexed
  obtain ⟨scope, member, _, _, statements⟩ :=
    Block.exists_scope_of_mem _ none [] [] program.block procedure among
  exact statements ▸ Program.visitsOf_subset accepted member

/-- Every end of a run is about one of the visits of its program. -/
theorem stemsFrom_of_run {program : Program} {tree : ScopeTree} {depth : Nat} {halt : Halt}
    (accepted : program.analyse = .ok tree)
    (ended : ((ofProgram program tree).run depth).1 = .error halt) :
    halt.StemsFrom program.visits := by
  obtain ⟨scope, member, _, statements⟩ := program.exists_own_scope
  have own : Statement.visitsOf program.block.body.statements ⊆ program.visits :=
    statements ▸ Program.visitsOf_subset accepted member
  have calls := callsHaltFor (haltsFor_invoke (bodiesIn_of_analyse accepted) depth)
  have executed : HaltsFor program.visits ((ofProgram program tree).executeProgram depth) :=
    framed (Statement.haltsForAll calls _ own)
  rw [run] at ended
  split at ended <;> cases ended
  · trivial
  · rename_i stopped
    exact executed _ _ _ stopped

end Interpreter
end MiniPascal
