import MiniPascal.Proofs.Run.Procedures

/-! # Call sites

The analysis resolves a call while its tables are still growing, and a run resolves it in the tree
that is left at the end. Both find the same header: what is declared stays declared, and no
procedure name is declared twice. -/
set_option autoImplicit false
namespace MiniPascal

namespace Program

/-- The state of the analysis of a program behind some of its visits. -/
def analysisAfter (program : Program) (earlier : List Visit) : Analysis :=
  earlier.foldl Analysis.step (Analysis.ofProgram program)

/-- A visit of the program that the analysis makes in the given scope. -/
def Site (program : Program) (scope : String) (visit : Visit) : Prop :=
  ∃ earlier later, program.visits = earlier ++ visit :: later
    ∧ (program.analysisAfter earlier).scope = scope

end Program

/-- The scope has a variable of this name. -/
def ScopeTree.HasVariable (tree : ScopeTree) (scope name : String) : Prop :=
  ∃ table dataType, tree.table? scope = some table ∧ table.find? name = some (.variable dataType)

theorem Lineage.of_prefix {root : String} {ledger final : List Entry} {opened : List String}
    (lineage : Lineage root ledger opened) (further : ledger <+: final) :
    Lineage root final opened := by
  obtain ⟨added, rfl⟩ := further
  exact lineage.append added

namespace Analysis.InBody

variable {root : String} {final : List Entry} {scope : Scope} {analysis : Analysis}
  {tree : ScopeTree}

theorem scope_eq (inBody : InBody root final scope analysis) : analysis.scope = scope.name := by
  obtain ⟨_, _, ready, _⟩ := inBody
  exact ready.scope_eq

/-- References leave the state what it is, but for what they report. -/
theorem foldl_inside (analysis : Analysis) {statements : List Statement} {inside rest : List Visit}
    (split : Statement.visitsOf statements = inside ++ rest) :
    (inside.foldl Analysis.step analysis).scopes = analysis.scopes
      ∧ (inside.foldl Analysis.step analysis).scope = analysis.scope := by
  have refers : ∀ visit ∈ inside, visit.refers := by
    intro visit member
    refine Statement.refers_of_mem_visitsOf statements visit ?_
    rw [split]
    exact List.mem_append_left _ member
  rw [foldl_step_of_refers inside analysis refers]
  exact ⟨rfl, rfl⟩

/-- What a call means at its place is what it means at the end. -/
theorem findProcedure?_final (inBody : InBody root final scope analysis)
    (kept : WellKept root final) (holds : tree.Holds root final) {name : String}
    {header : ProcedureHeader}
    (found : analysis.scopes.findProcedure? scope.name name = some header) :
    tree.findProcedure? scope.name name = some header
      ∧ ∃ place, Entry.symbol place name (.procedure header) ∈ final := by
  obtain ⟨ledger, outer, ready, _, offers, further⟩ := inBody
  obtain ⟨place, among, declared⟩ :=
    (offers name header).mpr ((ready.findProcedure?_eq_some_iff offers name header).mp found)
  have stays := further.subset declared
  have short := ready.short
  rw [List.length_cons] at short
  have longer : ledger.countP Entry.opens ≤ final.countP Entry.opens := further.sublist.countP_le
  refine ⟨?_, place, stays⟩
  rw [holds.findProcedure?_eq_some_iff kept (ready.lineage.of_prefix further) (by omega)]
  exact ⟨place, among, stays⟩

/-- Every call in the body of a good scope finds a header with as many parameters. -/
theorem exists_header (inBody : InBody root final scope analysis) (good : scope.ResolvesCalls)
    {name : String} {count : Nat} (called : (name, count) ∈ Statement.callsOf scope.statements) :
    ∃ header, analysis.scopes.findProcedure? scope.name name = some header
      ∧ header.parameters.length = count := by
  obtain ⟨ledger, outer, ready, _, offers, _⟩ := inBody
  obtain ⟨procedure, visible, named, parameters⟩ := good _ called
  refine ⟨procedure.header, ?_, procedure.length_parameters_header.trans parameters⟩
  exact (ready.findProcedure?_eq_some_iff offers _ _).mpr ⟨procedure, visible, named, rfl⟩

end Analysis.InBody

theorem Expr.call_not_mem_visits (expr : Expr) (id : NodeId) (name : String) (position : Position)
    (arguments : List Expr) : Visit.call id name position arguments ∉ expr.visits := by
  intro member
  have other := (expr.refers_of_mem_visits _ member).2
  cases other

mutual

theorem Statement.mem_calls_of_visit {id : NodeId} {name : String} {position : Position}
    {arguments : List Expr} : ∀ statement : Statement,
      Visit.call id name position arguments ∈ statement.visits →
      (name, arguments.length) ∈ statement.calls
  | .compound other statements, member => by
    simp only [Statement.visits, List.cons_append, List.mem_cons, List.mem_append, reduceCtorEq,
      List.not_mem_nil, or_false, false_or] at member
    exact Statement.mem_callsOf_of_visit statements member
  | .assignment other target value, member => by
    simp only [Statement.visits, List.cons_append, List.mem_cons, List.mem_append, reduceCtorEq,
      List.not_mem_nil, or_false, false_or] at member
    exact absurd member (value.call_not_mem_visits _ _ _ _)
  | .call other called place passed, member => by
    rcases List.mem_append.mp member with member | member
    · obtain ⟨argument, _, inside⟩ := List.mem_flatMap.mp member
      exact absurd inside (argument.call_not_mem_visits _ _ _ _)
    · injection List.mem_singleton.mp member with _ names _ lists
      rw [names, lists]
      exact List.mem_singleton_self _
  | .empty other, member => by
    cases List.mem_singleton.mp member

theorem Statement.mem_callsOf_of_visit {id : NodeId} {name : String} {position : Position}
    {arguments : List Expr} : ∀ statements : List Statement,
      Visit.call id name position arguments ∈ Statement.visitsOf statements →
      (name, arguments.length) ∈ Statement.callsOf statements
  | [], member => by cases member
  | statement :: rest, member => by
    rcases List.mem_append.mp member with member | member
    · exact List.mem_append_left _ (Statement.mem_calls_of_visit statement member)
    · exact List.mem_append_right _ (Statement.mem_callsOf_of_visit rest member)

end

namespace Program

variable {program : Program} {tree : ScopeTree}

/-- At every call site the analysis finds a header with as many parameters as the call has
arguments, and the finished tree leads to the same header. -/
theorem call_resolves (accepted : program.analyse = .ok tree) {earlier later : List Visit}
    {id : NodeId} {name : String} {position : Position} {arguments : List Expr}
    (split : program.visits = earlier ++ .call id name position arguments :: later) :
    ∃ header,
      (program.analysisAfter earlier).scopes.findProcedure?
          (program.analysisAfter earlier).scope name = some header
        ∧ tree.findProcedure? (program.analysisAfter earlier).scope name = some header
        ∧ header.parameters.length = arguments.length
        ∧ ∃ place, Entry.symbol place name (.procedure header) ∈ program.entries := by
  have clean := ((program.analyse_eq_ok_iff tree).mp accepted).1
  obtain ⟨scope, member, start, inside, rest, parts, statements, inBody⟩ :=
    program.stage.calls clean earlier _ later split rfl
  have calls := ((program.stage.passes.mp clean).2 scope member).2
  have called : (name, arguments.length) ∈ Statement.callsOf scope.statements := by
    have visited : Visit.call id name position arguments
        ∈ Statement.visitsOf scope.statements := by
      rw [statements]
      exact List.mem_append_right _ List.mem_cons_self
    exact Statement.mem_callsOf_of_visit scope.statements visited
  obtain ⟨header, found, count⟩ := inBody.exists_header calls called
  obtain ⟨final, place, declared⟩ :=
    inBody.findProcedure?_final (kept_of_analyse accepted) (holds_of_analyse accepted) found
  have state : (program.analysisAfter earlier).scopes
        = (start.foldl Analysis.step (Analysis.ofProgram program)).scopes
      ∧ (program.analysisAfter earlier).scope = scope.name := by
    rw [analysisAfter, parts, List.foldl_append]
    obtain ⟨scopes, here⟩ := Analysis.InBody.foldl_inside
      (start.foldl Analysis.step (Analysis.ofProgram program)) statements
    exact ⟨scopes, here.trans inBody.scope_eq⟩
  rw [state.1, state.2]
  exact ⟨header, found, final, count, place, declared⟩

/-- All sites that call one name mean the same procedure. -/
theorem header_unique (accepted : program.analyse = .ok tree) {first second name : String}
    {left right : ProcedureHeader}
    (here : Entry.symbol first name (.procedure left) ∈ program.entries)
    (there : Entry.symbol second name (.procedure right) ∈ program.entries) : left = right :=
  ((kept_of_analyse accepted).procedure_unique here there).2

/-- A header that is found belongs to a procedure of the program. -/
theorem exists_procedure (program : Program) {place name : String} {header : ProcedureHeader}
    (declared : Entry.symbol place name (.procedure header) ∈ program.entries) :
    ∃ procedure ∈ program.block.allProcedures, procedure.header = header := by
  obtain ⟨scope, member, _, inside⟩ := (program.symbol_mem_entries place name _).mp declared
  rcases (scope.symbol_mem_symbols name _).mp inside with
    ⟨_, _, _, impossible⟩ | ⟨_, _, _, _, _, impossible⟩ | ⟨procedure, among, _, same⟩
  · cases impossible
  · cases impossible
  · injection same with headers
    exact ⟨procedure,
      Block.mem_allProcedures _ _ _ _ program.block scope member procedure among, headers⟩

/-- The visits of a statement part are made in its scope. -/
theorem site_of_mem (accepted : program.analyse = .ok tree) {scope : Scope}
    (member : scope ∈ program.scopes) {visit : Visit}
    (inside : visit ∈ Statement.visitsOf scope.statements) : program.Site scope.name visit := by
  have clean := ((program.analyse_eq_ok_iff tree).mp accepted).1
  obtain ⟨earlier, later, whole, inBody⟩ := program.stage.bodies clean scope member
  obtain ⟨before, after, split⟩ := List.append_of_mem inside
  refine ⟨earlier ++ before, after ++ later, by simp [whole, split], ?_⟩
  rw [analysisAfter, List.foldl_append]
  exact (Analysis.InBody.foldl_inside _ split).2.trans inBody.scope_eq

theorem hasVariable_of_mem (accepted : program.analyse = .ok tree) {scope : Scope}
    (member : scope ∈ program.scopes) {name : String}
    (listed : name ∈ scope.typedNames.map Prod.fst) : tree.HasVariable scope.name name := by
  obtain ⟨⟨_, dataType⟩, inside, rfl⟩ := List.mem_map.mp listed
  obtain ⟨table, found, _, known⟩ := table_of_analyse accepted member
  exact ⟨table, dataType, found, (known _ _).mpr
    (Or.inr ((scope.symbol_mem_iff _ _).mpr inside))⟩

end Program
end MiniPascal
