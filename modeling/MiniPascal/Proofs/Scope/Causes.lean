import MiniPascal.Scope.Analysis

/-! # Visits that faults are about

Every fault that an analysis reports was found at one of the visits of its walk, and has its name
and its position from there. -/
set_option autoImplicit false
namespace MiniPascal

/-- The fault is about this visit. Names that are taken are reported without a position. -/
inductive Diagnosis.About : Diagnosis → Visit → Prop where
  | duplicateScope {procedure : Procedure} :
    About (.duplicateScope procedure.name procedure.position) (.procedureStart procedure)
  | alreadyDefined {scope : String} {names : List String} {visit : Visit} :
    About (.alreadyDefined scope names) visit
  | unknownType {decl : VarDecl} :
    About (.unknownType decl.typeSpec.dataType.name decl.typeSpec.position) (.varDeclStart decl)
  | unknownParamType {param : Param} :
    About (.unknownType param.typeSpec.dataType.name param.typeSpec.position) (.param param)
  | undefinedVariable {used : Variable} {scope : String} :
    About (.undefinedVariable used.name scope used.position) (.used used)
  | notAVariable {used : Variable} : About (.notAVariable used.name used.position) (.used used)
  | undefinedProcedure {id : NodeId} {name : String} {position : Position}
    {arguments : List Expr} :
    About (.undefinedProcedure name position) (.call id name position arguments)
  | argumentCount {id : NodeId} {name : String} {position : Position} {arguments : List Expr}
    {expected got : Nat} :
    About (.argumentCount name expected got position) (.call id name position arguments)

namespace ScopeTree

variable {tree : ScopeTree} {scope : String} {diagnosis : Diagnosis}

theorem about_of_checkVariable {used : Variable}
    (reported : diagnosis ∈ tree.checkVariable scope used) : diagnosis.About (.used used) := by
  unfold checkVariable at reported
  split at reported
  · cases reported
  · rw [List.mem_singleton.mp reported]
    exact .notAVariable
  · rw [List.mem_singleton.mp reported]
    exact .undefinedVariable

theorem about_of_checkCall {id : NodeId} {name : String} {position : Position}
    {arguments : List Expr}
    (reported : diagnosis ∈ tree.checkCall scope name position arguments.length) :
    diagnosis.About (.call id name position arguments) := by
  unfold checkCall at reported
  split at reported
  · split at reported
    · cases reported
    · rw [List.mem_singleton.mp reported]
      exact .argumentCount
  · rw [List.mem_singleton.mp reported]
    exact .undefinedProcedure

theorem eq_of_checkType {typeSpec : TypeSpec}
    (reported : diagnosis ∈ tree.checkType scope typeSpec) :
    diagnosis = .unknownType typeSpec.dataType.name typeSpec.position := by
  unfold checkType at reported
  split at reported
  · cases reported
  · exact List.mem_singleton.mp reported

end ScopeTree

namespace Analysis

variable {analysis : Analysis} {diagnosis : Diagnosis} {visit : Visit}

theorem mem_report {found : List Diagnosis}
    (reported : diagnosis ∈ (analysis.report found).diagnoses) :
    diagnosis ∈ analysis.diagnoses ∨ diagnosis ∈ found :=
  List.mem_append.mp reported

/-- Defining variables reports only that names are taken. -/
theorem about_of_declare {names : List String} {dataType : DataType}
    (reported : diagnosis ∈ (analysis.declare names dataType).diagnoses) :
    diagnosis ∈ analysis.diagnoses ∨ diagnosis.About visit := by
  unfold declare at reported
  split at reported
  · exact .inl reported
  · refine (mem_report reported).imp_right fun taken => ?_
    split at taken
    · cases taken
    · rw [List.mem_singleton.mp taken]
      exact .alreadyDefined

theorem about_of_declaration {typeSpec : TypeSpec} {names : List String} {scope : String}
    (about : (Diagnosis.unknownType typeSpec.dataType.name typeSpec.position).About visit)
    (reported : diagnosis ∈ ((analysis.report (analysis.scopes.checkType scope typeSpec)).declare
      names typeSpec.dataType).diagnoses) :
    diagnosis ∈ analysis.diagnoses ∨ diagnosis.About visit := by
  rcases about_of_declare reported with before | taken
  · refine (mem_report before).imp_right fun unknown => ?_
    rw [ScopeTree.eq_of_checkType unknown]
    exact about
  · exact .inr taken

theorem about_of_openProcedure {procedure : Procedure}
    (reported : diagnosis ∈ (analysis.openProcedure procedure).diagnoses) :
    diagnosis ∈ analysis.diagnoses ∨ diagnosis.About (.procedureStart procedure) := by
  refine (mem_report reported).imp_right fun fault => ?_
  split at fault
  · rw [List.mem_singleton.mp fault]
    exact .duplicateScope
  · split at fault
    · rw [List.mem_singleton.mp fault]
      exact .alreadyDefined
    · cases fault

/-- What a step reports is about its visit. -/
theorem about_of_step (reported : diagnosis ∈ (analysis.step visit).diagnoses) :
    diagnosis ∈ analysis.diagnoses ∨ diagnosis.About visit := by
  cases visit with
  | varDeclStart decl => exact about_of_declaration .unknownType reported
  | param param => exact about_of_declaration .unknownParamType reported
  | procedureStart procedure => exact about_of_openProcedure reported
  | call id name position arguments =>
      exact (mem_report reported).imp_right ScopeTree.about_of_checkCall
  | used name => exact (mem_report reported).imp_right ScopeTree.about_of_checkVariable
  | _ => exact .inl reported

theorem about_of_foldl (visits : List Visit) : ∀ analysis : Analysis,
    diagnosis ∈ (visits.foldl step analysis).diagnoses →
      diagnosis ∈ analysis.diagnoses ∨ ∃ visit ∈ visits, diagnosis.About visit := by
  induction visits with
  | nil => exact fun _ reported => .inl reported
  | cons visit rest ih =>
      intro analysis reported
      rcases ih _ reported with before | ⟨other, among, about⟩
      · exact (about_of_step before).imp_right fun about => ⟨visit, List.mem_cons_self, about⟩
      · exact .inr ⟨other, List.mem_cons_of_mem _ among, about⟩

end Analysis

/-- Every fault of a program is about one of its visits. -/
theorem Program.about_of_analyse {program : Program} {diagnoses : List Diagnosis}
    (refused : program.analyse = .error diagnoses) :
    ∀ diagnosis ∈ diagnoses, ∃ visit ∈ program.visits, diagnosis.About visit := by
  intro diagnosis member
  have whole : (Analysis.run program).diagnoses = diagnoses := by
    unfold analyse at refused
    split at refused <;> cases refused
    rename_i same
    rw [same]
  exact (Analysis.about_of_foldl program.visits (Analysis.ofProgram program)
    (whole ▸ member)).resolve_left List.not_mem_nil

end MiniPascal
