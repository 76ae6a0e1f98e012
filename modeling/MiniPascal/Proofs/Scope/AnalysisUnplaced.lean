import MiniPascal.Proofs.Program.Unplaced
import MiniPascal.Scope.Analysis

/-! # Analysis without positions

A walk over a program without positions visits the nodes of the program without their positions.
Analysis reads a position only to put it into a fault, so the scopes are the same and the faults are
the same but for their positions. -/
set_option autoImplicit false
namespace MiniPascal

def Visit.unplaced : Visit → Visit
  | .programStart node => .programStart node.unplaced
  | .programEnd node => .programEnd node.unplaced
  | .blockStart node => .blockStart node.unplaced
  | .blockEnd node => .blockEnd node.unplaced
  | .varDeclStart node => .varDeclStart node.unplaced
  | .varDeclEnd node => .varDeclEnd node.unplaced
  | .procedureStart node => .procedureStart node.unplaced
  | .procedureEnd node => .procedureEnd node.unplaced
  | .param node => .param node.unplaced
  | .declared node => .declared node.unplaced
  | .typeSpec node => .typeSpec node.unplaced
  | .compoundStart node => .compoundStart node.unplaced
  | .compoundEnd node => .compoundEnd node.unplaced
  | .assignment id target value => .assignment id target.unplaced value.unplaced
  | .call id name _ arguments => .call id name Position.start (arguments.map Expr.unplaced)
  | .empty id => .empty id
  | .binary id operator left right _ =>
    .binary id operator left.unplaced right.unplaced Position.start
  | .unary id operator operand _ => .unary id operator operand.unplaced Position.start
  | .used name => .used name.unplaced
  | .number id value => .number id value

def Diagnosis.unplaced : Diagnosis → Diagnosis
  | .duplicateScope name _ => .duplicateScope name Position.start
  | .alreadyDefined scope names => .alreadyDefined scope names
  | .unknownType name _ => .unknownType name Position.start
  | .undefinedVariable name scope _ => .undefinedVariable name scope Position.start
  | .notAVariable name _ => .notAVariable name Position.start
  | .undefinedProcedure name _ => .undefinedProcedure name Position.start
  | .argumentCount name expected got _ => .argumentCount name expected got Position.start

/-! ## Visits -/

/-- The items of a list and what each of them is visited as, both without positions. -/
theorem flatMap_visits_unplaced {α : Type} {visits : α → List Visit} {unplaced : α → α}
    (same : ∀ item, visits (unplaced item) = (visits item).map Visit.unplaced) (items : List α) :
    (items.map unplaced).flatMap visits = (items.flatMap visits).map Visit.unplaced := by
  induction items with
  | nil => rfl
  | cons item rest ih =>
      rw [List.map_cons, List.flatMap_cons, List.flatMap_cons, same, ih, List.map_append]

theorem Expr.visits_unplaced (expr : Expr) :
    expr.unplaced.visits = expr.visits.map Visit.unplaced := by
  induction expr with
  | number => rfl
  | read => rfl
  | unary id operator operand position ih => simp [unplaced, visits, ih, Visit.unplaced]
  | binary id operator left right position ihl ihr =>
      simp [unplaced, visits, ihl, ihr, Visit.unplaced]

namespace Statement

mutual

theorem visits_unplaced : ∀ statement : Statement,
    statement.unplaced.visits = statement.visits.map Visit.unplaced
  | .compound id statements => by
      simp [unplaced, visits, visitsOf_unplaced statements, Visit.unplaced, Compound.unplaced]
  | .assignment id target value => by
      simp [unplaced, visits, value.visits_unplaced, Visit.unplaced]
  | .call id name position arguments => by
      simp [unplaced, visits, flatMap_visits_unplaced Expr.visits_unplaced, Visit.unplaced]
  | .empty id => rfl

theorem visitsOf_unplaced : ∀ statements : List Statement,
    visitsOf (unplacedAll statements) = (visitsOf statements).map Visit.unplaced
  | [] => rfl
  | statement :: rest => by
      simp [unplacedAll, visitsOf, visits_unplaced statement, visitsOf_unplaced rest]

end

end Statement

theorem Compound.visits_unplaced (compound : Compound) :
    compound.unplaced.visits = compound.visits.map Visit.unplaced := by
  simp [unplaced, visits, Statement.visitsOf_unplaced, Visit.unplaced]

theorem VarDecl.visits_unplaced (decl : VarDecl) :
    decl.unplaced.visits = decl.visits.map Visit.unplaced := by
  simp [unplaced, visits, Visit.unplaced, Function.comp_def]

theorem Param.visits_unplaced (param : Param) :
    param.unplaced.visits = param.visits.map Visit.unplaced :=
  rfl

mutual

theorem Block.visits_unplaced : ∀ block : Block,
    block.unplaced.visits = block.visits.map Visit.unplaced
  | ⟨id, declarations, procedures, body⟩ => by
      simp [Block.unplaced, Block.visits, flatMap_visits_unplaced VarDecl.visits_unplaced,
        Procedure.visitsOf_unplaced procedures, body.visits_unplaced, Visit.unplaced]

theorem Procedure.visitsOf_unplaced : ∀ procedures : List Procedure,
    Procedure.visitsOf (Procedure.unplacedAll procedures)
      = (Procedure.visitsOf procedures).map Visit.unplaced
  | [] => rfl
  | ⟨id, name, position, params, block⟩ :: rest => by
      simp [Procedure.unplacedAll, Procedure.visitsOf,
        flatMap_visits_unplaced Param.visits_unplaced, Block.visits_unplaced block,
        Procedure.visitsOf_unplaced rest, Visit.unplaced, Procedure.unplaced]

end

theorem Program.visits_unplaced (program : Program) :
    program.unplaced.visits = program.visits.map Visit.unplaced := by
  simp [Program.unplaced, Program.visits, Block.visits_unplaced, Visit.unplaced]

/-! ## Checks -/

namespace ScopeTree

variable (tree : ScopeTree) (scope : String)

theorem checkVariable_unplaced (used : Variable) : tree.checkVariable scope used.unplaced
    = (tree.checkVariable scope used).map Diagnosis.unplaced := by
  simp only [checkVariable, Variable.unplaced]
  split <;> rfl

theorem checkCall_unplaced (name : String) (position : Position) (got : Nat) :
    tree.checkCall scope name Position.start got
      = (tree.checkCall scope name position got).map Diagnosis.unplaced := by
  simp only [checkCall]
  split
  · split <;> rfl
  · rfl

theorem checkType_unplaced (typeSpec : TypeSpec) : tree.checkType scope typeSpec.unplaced
    = (tree.checkType scope typeSpec).map Diagnosis.unplaced := by
  simp only [checkType, TypeSpec.unplaced]
  split <;> rfl

end ScopeTree

/-! ## The walk -/

namespace Analysis

/-- The state of a walk with faults without positions. -/
def unplaced (analysis : Analysis) : Analysis :=
  { analysis with diagnoses := analysis.diagnoses.map Diagnosis.unplaced }

variable (analysis : Analysis)

theorem report_unplaced (diagnoses : List Diagnosis) :
    analysis.unplaced.report (diagnoses.map Diagnosis.unplaced)
      = (analysis.report diagnoses).unplaced := by
  simp [report, unplaced]

theorem declare_unplaced (names : List String) (dataType : DataType) :
    analysis.unplaced.declare names dataType = (analysis.declare names dataType).unplaced := by
  have scope : analysis.unplaced.scope = analysis.scope := rfl
  have scopes : analysis.unplaced.scopes = analysis.scopes := rfl
  rw [declare, declare, scope, scopes]
  cases analysis.scopes.table? analysis.scope with
  | none => rfl
  | some table =>
      simp only
      rcases table.defineAll (.variable dataType) names with ⟨table, taken⟩
      rw [← report_unplaced]
      cases taken <;> rfl

theorem header_unplaced (procedure : Procedure) :
    procedure.unplaced.header = procedure.header := by
  simp [Procedure.header, Procedure.unplaced, Param.unplaced, Variable.unplaced,
    TypeSpec.unplaced, Function.comp_def]

theorem openProcedure_unplaced (procedure : Procedure) :
    analysis.unplaced.openProcedure procedure.unplaced
      = (analysis.openProcedure procedure).unplaced := by
  have scope : analysis.unplaced.scope = analysis.scope := rfl
  have scopes : analysis.unplaced.scopes = analysis.scopes := rfl
  have name : procedure.unplaced.name = procedure.name := rfl
  simp only [openProcedure, header_unplaced, scope, scopes, name, ← report_unplaced]
  split
  · rfl
  · split <;> rfl

theorem step_unplaced (visit : Visit) :
    analysis.unplaced.step visit.unplaced = (analysis.step visit).unplaced := by
  have scope : analysis.unplaced.scope = analysis.scope := rfl
  have scopes : analysis.unplaced.scopes = analysis.scopes := rfl
  cases visit with
  | varDeclStart decl =>
      have names : decl.unplaced.names.map Variable.name = decl.names.map Variable.name := by
        simp [VarDecl.unplaced, Variable.unplaced, Function.comp_def]
      rw [Visit.unplaced, step, step, names, scope, scopes, VarDecl.unplaced,
        ScopeTree.checkType_unplaced, report_unplaced]
      exact declare_unplaced _ _ _
  | param param =>
      rw [Visit.unplaced, step, step, scope, scopes, Param.unplaced,
        ScopeTree.checkType_unplaced, report_unplaced]
      exact declare_unplaced _ _ _
  | procedureStart procedure => exact openProcedure_unplaced _ _
  | call id name position arguments =>
      rw [Visit.unplaced, step, step, scope, scopes, List.length_map,
        ScopeTree.checkCall_unplaced _ _ _ position, report_unplaced]
  | used name =>
      rw [Visit.unplaced, step, step, scope, scopes, ScopeTree.checkVariable_unplaced,
        report_unplaced]
  | _ => rfl

theorem foldl_unplaced (visits : List Visit) : ∀ analysis : Analysis,
    (visits.map Visit.unplaced).foldl step analysis.unplaced
      = (visits.foldl step analysis).unplaced := by
  induction visits with
  | nil => exact fun _ => rfl
  | cons visit rest ih =>
      intro analysis
      rw [List.map_cons, List.foldl_cons, List.foldl_cons, step_unplaced]
      exact ih _

theorem run_unplaced (program : Program) : run program.unplaced = (run program).unplaced := by
  rw [run, run, Program.visits_unplaced]
  exact foldl_unplaced _ (ofProgram program)

end Analysis

/-- Without positions a program has the same scopes, or the same faults but for positions. -/
theorem Program.analyse_unplaced (program : Program) : program.unplaced.analyse
    = program.analyse.mapError (List.map Diagnosis.unplaced) := by
  rw [analyse, analyse, Analysis.run_unplaced]
  rcases Analysis.run program with ⟨scopes, opened, diagnoses⟩
  cases diagnoses <;> rfl

end MiniPascal
