import MiniPascal.Proofs.Scope.Walk

/-! # The references of a statement part

Walking over statements changes no table, so what is found wrong with them is decided by the state
in front of them. With the ledger known, a variable is accepted exactly if its scope lists it, and a
call exactly if a visible procedure has its name and number of parameters. -/
set_option autoImplicit false
namespace MiniPascal

theorem ScopeTree.checkVariable_eq_nil_iff (tree : ScopeTree) (scope : String) (used : Variable) :
    tree.checkVariable scope used = []
      ↔ ∃ table dataType, tree.table? scope = some table
        ∧ table.find? used.name = some (.variable dataType) := by
  rw [checkVariable]
  cases tree.table? scope with
  | none => simp
  | some table =>
      cases found : table.find? used.name with
      | none => simp [found]
      | some meaning => cases meaning <;> simp [found]

theorem ScopeTree.checkCall_eq_nil_iff (tree : ScopeTree) (scope name : String)
    (position : Position) (got : Nat) :
    tree.checkCall scope name position got = []
      ↔ ∃ header, tree.findProcedure? scope name = some header
        ∧ header.parameters.length = got := by
  rw [checkCall]
  cases tree.findProcedure? scope name with
  | none => simp
  | some header => simp

theorem Expr.refers_of_mem_visits : ∀ (expr : Expr), ∀ visit ∈ expr.visits,
    visit.refers ∧ visit.isCall = false := by
  intro expr
  induction expr with
  | number id value => simp [Expr.visits, Visit.refers, Visit.isCall]
  | read source => simp [Expr.visits, Visit.refers, Visit.isCall]
  | unary id operator operand position ih =>
      intro visit member
      rcases List.mem_append.mp member with member | member
      · exact ih visit member
      · rw [List.mem_singleton.mp member]
        exact ⟨rfl, rfl⟩
  | binary id operator left right position first second =>
      intro visit member
      rcases List.mem_append.mp member with member | member
      · rcases List.mem_append.mp member with member | member
        · exact first visit member
        · exact second visit member
      · rw [List.mem_singleton.mp member]
        exact ⟨rfl, rfl⟩

mutual

theorem Statement.refers_of_mem_visits : ∀ (statement : Statement), ∀ visit ∈ statement.visits,
    visit.refers
  | .compound id statements, visit, member => by
    simp only [Statement.visits, List.cons_append, List.mem_cons, List.mem_append,
      List.not_mem_nil, or_false] at member
    rcases member with rfl | member | rfl
    · rfl
    · exact Statement.refers_of_mem_visitsOf statements visit member
    · rfl
  | .assignment id target value, visit, member => by
    simp only [Statement.visits, List.cons_append, List.mem_cons, List.mem_append,
      List.not_mem_nil, or_false] at member
    rcases member with rfl | member | rfl
    · rfl
    · exact (value.refers_of_mem_visits visit member).1
    · rfl
  | .call id name position arguments, visit, member => by
    rcases List.mem_append.mp member with member | member
    · obtain ⟨argument, _, inside⟩ := List.mem_flatMap.mp member
      exact (argument.refers_of_mem_visits visit inside).1
    · rw [List.mem_singleton.mp member]
      rfl
  | .empty id, visit, member => by
    rw [List.mem_singleton.mp member]
    rfl

theorem Statement.refers_of_mem_visitsOf : ∀ (statements : List Statement),
    ∀ visit ∈ Statement.visitsOf statements, visit.refers
  | [], _, member => by cases member
  | statement :: rest, visit, member => by
    rcases List.mem_append.mp member with member | member
    · exact Statement.refers_of_mem_visits statement visit member
    · exact Statement.refers_of_mem_visitsOf rest visit member

end

theorem Expr.faults_visits (tree : ScopeTree) (scope : String) : ∀ expr : Expr,
    expr.visits.flatMap (Visit.faults tree scope)
      = expr.mentions.flatMap (tree.checkVariable scope) := by
  intro expr
  induction expr with
  | number id value => rfl
  | read source => rfl
  | unary id operator operand position ih =>
      simp only [Expr.visits, Expr.mentions, List.flatMap_append, ih, List.flatMap_cons,
        Visit.faults, List.flatMap_nil, List.append_nil]
  | binary id operator left right position first second =>
      simp only [Expr.visits, Expr.mentions, List.flatMap_append, first, second, List.flatMap_cons,
        Visit.faults, List.flatMap_nil, List.append_nil]

/-- The references in statements have no fault, each of them looked up in one scope. -/
def Faultless (tree : ScopeTree) (scope : String) (used : List Variable)
    (calls : List (String × Nat)) : Prop :=
  (∀ name ∈ used, tree.checkVariable scope name = [])
    ∧ ∀ call ∈ calls, ∃ header, tree.findProcedure? scope call.1 = some header
      ∧ header.parameters.length = call.2

mutual

theorem Statement.faults_visits_eq_nil (tree : ScopeTree) (scope : String) :
    ∀ statement : Statement, statement.visits.flatMap (Visit.faults tree scope) = []
      ↔ Faultless tree scope statement.mentions statement.calls
  | .compound id statements => by
    have inner := Statement.faults_visitsOf_eq_nil tree scope statements
    simpa only [Statement.visits, List.cons_append, List.flatMap_cons, List.flatMap_append,
      Visit.faults, List.flatMap_nil, List.nil_append, List.append_nil, Statement.mentions,
      Statement.calls] using inner
  | .assignment id target value => by
    simp only [Statement.visits, List.cons_append, List.flatMap_cons, List.flatMap_append,
      Visit.faults, List.flatMap_nil, List.append_nil, value.faults_visits, List.append_eq_nil_iff,
      List.flatMap_eq_nil_iff, Faultless, Statement.mentions, Statement.calls, List.forall_mem_cons,
      List.not_mem_nil, false_implies, implies_true, and_true]
  | .call id name position arguments => by
    simp only [Statement.visits, List.flatMap_append, List.flatMap_assoc, Expr.faults_visits,
      List.flatMap_cons, Visit.faults, List.flatMap_nil, List.append_nil, List.append_eq_nil_iff,
      ScopeTree.checkCall_eq_nil_iff, Faultless, Statement.mentions, Statement.calls,
      List.mem_singleton, forall_eq]
    rw [← List.flatMap_assoc, List.flatMap_eq_nil_iff]
  | .empty id => by
    simp [Statement.visits, Visit.faults, Faultless, Statement.mentions, Statement.calls]

theorem Statement.faults_visitsOf_eq_nil (tree : ScopeTree) (scope : String) :
    ∀ statements : List Statement,
      (Statement.visitsOf statements).flatMap (Visit.faults tree scope) = []
        ↔ Faultless tree scope (Statement.mentionsOf statements) (Statement.callsOf statements)
  | [] => by simp [Statement.visitsOf, Faultless, Statement.mentionsOf, Statement.callsOf]
  | statement :: rest => by
    have first := Statement.faults_visits_eq_nil tree scope statement
    have others := Statement.faults_visitsOf_eq_nil tree scope rest
    simp only [Statement.visitsOf, List.flatMap_append, List.append_eq_nil_iff, first, others,
      Faultless, Statement.mentionsOf, Statement.callsOf, List.forall_mem_append]
    exact and_and_and_comm

end

theorem Procedure.length_parameters_header (procedure : Procedure) :
    procedure.header.parameters.length = procedure.params.length :=
  List.length_map ..

namespace Scope

theorem symbol_mem_iff (scope : Scope) (name : String) (dataType : DataType) :
    (name, Symbol.variable dataType) ∈ scope.symbols ↔ (name, dataType) ∈ scope.typedNames := by
  simp [symbols]

end Scope

namespace Analysis.Ready

variable {root : String} {ledger : List Entry} {outer : List String} {analysis : Analysis}

theorem scope_eq {opened : String} (ready : Ready root ledger (opened :: outer) analysis) :
    analysis.scope = opened := by
  rw [Analysis.scope, ready.open_eq, List.headD_cons]

theorem isScope {opened : String} (ready : Ready root ledger (opened :: outer) analysis) :
    IsScope root ledger opened :=
  ready.lineage.isScope opened List.mem_cons_self

theorem checkVariable_eq_nil_iff {scope : Scope}
    (ready : Ready root ledger (scope.name :: outer) analysis)
    (owns : Owns ledger scope.name scope.symbols) (used : Variable) :
    analysis.scopes.checkVariable scope.name used = []
      ↔ used.name ∈ scope.typedNames.map Prod.fst := by
  obtain ⟨table, found, held⟩ := ready.holds.exists_table ready.isScope
  have meaning : ∀ dataType, table.find? used.name = some (.variable dataType)
      ↔ (used.name, dataType) ∈ scope.typedNames := by
    intro dataType
    rw [held.find?, owns, scope.symbol_mem_iff]
    simp [BuiltIn]
  rw [ScopeTree.checkVariable_eq_nil_iff]
  simp [found, meaning]

/-- A call is looked up to a procedure that the scope can see. -/
theorem findProcedure?_eq_some_iff {scope : String} {visible : List Procedure}
    (ready : Ready root ledger (scope :: outer) analysis)
    (offers : Offers ledger (scope :: outer) visible) (name : String) (header : ProcedureHeader) :
    analysis.scopes.findProcedure? scope name = some header
      ↔ ∃ procedure ∈ visible, procedure.name = name ∧ procedure.header = header := by
  have short := ready.short
  rw [List.length_cons] at short
  rw [ready.holds.findProcedure?_eq_some_iff ready.kept ready.lineage (by omega), offers]

/-- The references of a statement part have no fault exactly if its scope is a good one. -/
theorem sound_iff {scope : Scope} (ready : Ready root ledger (scope.name :: outer) analysis)
    (owns : Owns ledger scope.name scope.symbols)
    (offers : Offers ledger (scope.name :: outer) scope.visible) :
    Faultless analysis.scopes scope.name (Statement.mentionsOf scope.statements)
        (Statement.callsOf scope.statements)
      ↔ scope.DeclaresMentions ∧ scope.ResolvesCalls := by
  refine and_congr ?_ ?_
  · exact forall₂_congr fun used _ => ready.checkVariable_eq_nil_iff owns used
  · refine forall₂_congr fun call _ => ?_
    simp only [ready.findProcedure?_eq_some_iff offers]
    constructor
    · rintro ⟨_, ⟨procedure, among, named, rfl⟩, count⟩
      exact ⟨procedure, among, named, procedure.length_parameters_header ▸ count⟩
    · rintro ⟨procedure, among, named, count⟩
      exact ⟨_, ⟨procedure, among, named, rfl⟩, procedure.length_parameters_header.trans count⟩

end Analysis.Ready
end MiniPascal
