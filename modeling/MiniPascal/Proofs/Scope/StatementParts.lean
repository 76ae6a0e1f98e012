import MiniPascal.Proofs.Scope.Clashes

/-! # Faults of statements do not cascade

A walk comes to the statements of a scope behind everything that is declared in it, and no statement
changes what is declared. So the faults of a statement are decided by the statement, its scope and
the declarations in front of it, whatever other statements there are and whatever is wrong with them.
The statement parts of a program are listed here with the visits in front of each of them. -/
set_option autoImplicit false
namespace MiniPascal

/-! ## Faults of a statement -/

mutual

/-- What is wrong with a statement in a scope of a tree. A fault does not keep the other parts of
the statement from being looked at. -/
def Statement.faults (tree : ScopeTree) (scope : String) : Statement → List Diagnosis
  | .compound _ statements => Statement.faultsOf tree scope statements
  | .assignment _ target value =>
    tree.checkVariable scope target ++ value.mentions.flatMap (tree.checkVariable scope)
  | .call _ name position arguments =>
    (arguments.flatMap Expr.mentions).flatMap (tree.checkVariable scope)
      ++ tree.checkCall scope name position arguments.length
  | .empty _ => []

def Statement.faultsOf (tree : ScopeTree) (scope : String) : List Statement → List Diagnosis
  | [] => []
  | statement :: rest => statement.faults tree scope ++ Statement.faultsOf tree scope rest

end

theorem Statement.faultsOf_eq_flatMap (tree : ScopeTree) (scope : String)
    (statements : List Statement) :
    faultsOf tree scope statements = statements.flatMap (faults tree scope) := by
  induction statements with
  | nil => rfl
  | cons statement rest ih => rw [faultsOf, ih, List.flatMap_cons]

mutual

theorem Statement.flatMap_faults_visits (tree : ScopeTree) (scope : String) :
    ∀ statement : Statement,
      statement.visits.flatMap (Visit.faults tree scope) = statement.faults tree scope
  | .compound id statements => by
    simp only [Statement.visits, List.cons_append, List.flatMap_cons, List.flatMap_append,
      Visit.faults, List.flatMap_nil, List.nil_append, List.append_nil, Statement.faults,
      Statement.flatMap_faults_visitsOf tree scope statements]
  | .assignment id target value => by
    simp only [Statement.visits, List.cons_append, List.flatMap_cons, List.flatMap_append,
      Visit.faults, List.flatMap_nil, List.append_nil, value.faults_visits, Statement.faults]
  | .call id name position arguments => by
    simp only [Statement.visits, List.flatMap_append, List.flatMap_assoc, Expr.faults_visits,
      List.flatMap_cons, Visit.faults, List.flatMap_nil, List.append_nil, Statement.faults]
  | .empty id => rfl

theorem Statement.flatMap_faults_visitsOf (tree : ScopeTree) (scope : String) :
    ∀ statements : List Statement, (Statement.visitsOf statements).flatMap (Visit.faults tree scope)
      = Statement.faultsOf tree scope statements
  | [] => rfl
  | statement :: rest => by
    rw [Statement.visitsOf, List.flatMap_append,
      Statement.flatMap_faults_visits tree scope statement,
      Statement.flatMap_faults_visitsOf tree scope rest, Statement.faultsOf]

end

theorem Compound.refers_of_mem_visits (compound : Compound) :
    ∀ visit ∈ compound.visits, visit.refers := by
  intro visit member
  simp only [Compound.visits, List.cons_append, List.mem_cons, List.mem_append, List.not_mem_nil,
    or_false] at member
  rcases member with rfl | member | rfl
  · rfl
  · exact Statement.refers_of_mem_visitsOf _ visit member
  · rfl

namespace Analysis

/-- Walking over a statement adds its faults and nothing else. -/
theorem foldl_step_statement (analysis : Analysis) (statement : Statement) :
    statement.visits.foldl step analysis
      = analysis.report (statement.faults analysis.scopes analysis.scope) := by
  rw [foldl_step_of_refers _ _ statement.refers_of_mem_visits, statement.flatMap_faults_visits]

theorem foldl_step_compound (analysis : Analysis) (compound : Compound) :
    compound.visits.foldl step analysis = analysis.report
      (compound.statements.flatMap (Statement.faults analysis.scopes analysis.scope)) := by
  rw [foldl_step_of_refers _ _ compound.refers_of_mem_visits, ← Statement.faultsOf_eq_flatMap,
    ← Statement.flatMap_faults_visitsOf]
  simp [Compound.visits, Visit.faults]

end Analysis

/-! ## Statement parts -/

/-- The statement part of a scope: the scope and those around it, what is visited in front of the
part, and the part itself. -/
structure StatementPart where
  scope : String
  outer : List String
  before : List Visit
  body : Compound

mutual

/-- The statement parts of a block in a scope, behind the given visits. -/
def Block.parts (scope : String) (outer : List String) (before : List Visit) :
    Block → List StatementPart
  | ⟨id, declarations, procedures, body⟩ =>
    let declared := before ++ .blockStart ⟨id, declarations, procedures, body⟩
      :: declarations.flatMap VarDecl.visits
    ⟨scope, outer, declared ++ Procedure.visitsOf procedures, body⟩
      :: Procedure.partsOf scope outer declared procedures

/-- The statement parts of several procedures of a scope. -/
def Procedure.partsOf (scope : String) (outer : List String) (before : List Visit) :
    List Procedure → List StatementPart
  | [] => []
  | ⟨id, name, position, params, block⟩ :: rest =>
    block.parts name (scope :: outer)
        (before ++ .procedureStart ⟨id, name, position, params, block⟩
          :: params.flatMap Param.visits)
      ++ Procedure.partsOf scope outer
        (before ++ Procedure.visitsOf [⟨id, name, position, params, block⟩]) rest

end

/-- The statement parts of a program, its own first. -/
def Program.parts (program : Program) : List StatementPart :=
  program.block.parts program.name [] [.programStart program]

mutual

theorem Block.map_parts (scope : String) (parent : Option String) (params : List Param)
    (inherited : List Procedure) (outer : List String) (before : List Visit) : ∀ block : Block,
    (block.parts scope outer before).map (fun part => (part.scope, part.body.statements))
      = (block.scopes scope parent params inherited).map fun scope => (scope.name, scope.statements)
  | ⟨_, _, procedures, _⟩ => by
    rw [Block.parts, Block.scopes, List.map_cons, List.map_cons,
      Procedure.map_partsOf scope inherited outer _ procedures]

theorem Procedure.map_partsOf (scope : String) (visible : List Procedure) (outer : List String)
    (before : List Visit) : ∀ procedures : List Procedure,
    (Procedure.partsOf scope outer before procedures).map
        (fun part => (part.scope, part.body.statements))
      = (Procedure.scopesOf scope visible procedures).map
        fun scope => (scope.name, scope.statements)
  | [] => rfl
  | ⟨_, name, _, params, block⟩ :: rest => by
    rw [Procedure.partsOf, Procedure.scopesOf, List.map_append, List.map_append,
      Block.map_parts name (some scope) params _ (scope :: outer) _ block,
      Procedure.map_partsOf scope _ outer _ rest]

end

/-! ## What is open -/

/-- Visits that open or close a scope. -/
def Visit.nests : Visit → Bool
  | .procedureStart _ | .procedureEnd _ => true
  | _ => false

namespace Analysis

theorem opened_declare (analysis : Analysis) (names : List String) (dataType : DataType) :
    (analysis.declare names dataType).opened = analysis.opened := by
  rw [declare]
  split <;> rfl

theorem opened_foldl_of_flat {visits : List Visit} (flat : ∀ visit ∈ visits, visit.nests = false)
    (analysis : Analysis) : (visits.foldl step analysis).opened = analysis.opened := by
  induction visits generalizing analysis with
  | nil => rfl
  | cons visit rest ih =>
      obtain ⟨first, others⟩ := List.forall_mem_cons.mp flat
      rw [List.foldl_cons, ih others]
      cases visit with
      | varDeclStart decl => exact opened_declare _ _ _
      | param param => exact opened_declare _ _ _
      | procedureStart procedure => cases first
      | procedureEnd procedure => cases first
      | _ => rfl

end Analysis

theorem VarDecl.nests_of_mem_visits {declarations : List VarDecl} :
    ∀ visit ∈ declarations.flatMap VarDecl.visits, visit.nests = false := by
  intro visit member
  obtain ⟨decl, _, inside⟩ := List.mem_flatMap.mp member
  simp only [VarDecl.visits, List.cons_append, List.mem_cons, List.mem_append, List.mem_map,
    List.not_mem_nil, or_false] at inside
  rcases inside with rfl | ⟨_, _, rfl⟩ | rfl | rfl <;> rfl

theorem Param.nests_of_mem_visits {params : List Param} :
    ∀ visit ∈ params.flatMap Param.visits, visit.nests = false := by
  intro visit member
  obtain ⟨param, _, inside⟩ := List.mem_flatMap.mp member
  simp only [Param.visits, List.mem_cons, List.not_mem_nil, or_false] at inside
  rcases inside with rfl | rfl | rfl <;> rfl

namespace Analysis

mutual

/-- Behind a block the same scopes are open as in front of it. -/
theorem opened_block : ∀ (block : Block) (analysis : Analysis),
    (block.visits.foldl step analysis).opened = analysis.opened
  | ⟨id, declarations, procedures, body⟩, analysis => by
    rw [Block.visits, List.foldl_append, List.foldl_append, List.foldl_append, foldl_step_compound]
    exact (opened_procedures procedures _).trans
      (opened_foldl_of_flat (List.forall_mem_cons.mpr ⟨rfl, VarDecl.nests_of_mem_visits⟩) analysis)

/-- What a procedure opens is closed behind it, whether its scope is a new one or not. -/
theorem opened_procedures : ∀ (procedures : List Procedure) (analysis : Analysis),
    ((Procedure.visitsOf procedures).foldl step analysis).opened = analysis.opened
  | [], _ => rfl
  | ⟨id, name, position, params, block⟩ :: rest, analysis => by
    rw [Procedure.visitsOf, List.foldl_append, opened_procedures rest, List.foldl_append,
      List.foldl_append]
    have inside := opened_block block ((.procedureStart ⟨id, name, position, params, block⟩
      :: params.flatMap Param.visits).foldl step analysis)
    rw [List.foldl_cons, opened_foldl_of_flat Param.nests_of_mem_visits] at inside
    exact congrArg List.tail inside

end

end Analysis

namespace StatementPart

/-- The part lies in the visits, and in front of it the scopes are open that it names. -/
structure Lies (start : Analysis) (visits : List Visit) (part : StatementPart) : Prop where
  splits : ∃ later, visits = part.before ++ part.body.visits ++ later
  opened : (part.before.foldl Analysis.step start).opened = part.scope :: part.outer

theorem Lies.append {start : Analysis} {visits : List Visit} {part : StatementPart}
    (lies : part.Lies start visits) (more : List Visit) : part.Lies start (visits ++ more) := by
  obtain ⟨⟨later, rfl⟩, opened⟩ := lies
  exact ⟨⟨later ++ more, by simp⟩, opened⟩

end StatementPart

section

variable {start : Analysis}

mutual

theorem Block.lies_of_mem_parts : ∀ (block : Block) {scope : String} {outer : List String}
    {before : List Visit}, (before.foldl Analysis.step start).opened = scope :: outer →
    ∀ part ∈ block.parts scope outer before, part.Lies start (before ++ block.visits)
  | ⟨id, declarations, procedures, body⟩, scope, outer, before, opened, part, member => by
    let declared := before ++ .blockStart ⟨id, declarations, procedures, body⟩
      :: declarations.flatMap VarDecl.visits
    have visits : before ++ Block.visits ⟨id, declarations, procedures, body⟩
        = declared ++ Procedure.visitsOf procedures
          ++ (body.visits ++ [.blockEnd ⟨id, declarations, procedures, body⟩]) := by
      simp [declared, Block.visits]
    have open_eq : (declared.foldl Analysis.step start).opened = scope :: outer := by
      rw [← opened, List.foldl_append, Analysis.opened_foldl_of_flat]
      exact List.forall_mem_cons.mpr ⟨rfl, VarDecl.nests_of_mem_visits⟩
    rw [visits]
    rcases List.mem_cons.mp member with rfl | inside
    · refine ⟨⟨_, (List.append_assoc _ _ _).symm⟩, ?_⟩
      rw [List.foldl_append, Analysis.opened_procedures]
      exact open_eq
    · exact (Procedure.lies_of_mem_partsOf procedures open_eq part inside).append _

theorem Procedure.lies_of_mem_partsOf : ∀ (procedures : List Procedure) {scope : String}
    {outer : List String} {before : List Visit},
    (before.foldl Analysis.step start).opened = scope :: outer →
    ∀ part ∈ Procedure.partsOf scope outer before procedures,
      part.Lies start (before ++ Procedure.visitsOf procedures)
  | [], _, _, _, _, part, member => by cases member
  | ⟨id, name, position, params, block⟩ :: rest, scope, outer, before, opened, part, member => by
    rcases List.mem_append.mp member with inside | later
    · have entered : ((before ++ .procedureStart ⟨id, name, position, params, block⟩
          :: params.flatMap Param.visits).foldl Analysis.step start).opened
            = name :: scope :: outer := by
        rw [List.foldl_append, List.foldl_cons,
          Analysis.opened_foldl_of_flat Param.nests_of_mem_visits]
        exact congrArg _ opened
      have lies := (Block.lies_of_mem_parts block entered part inside).append
        (.procedureEnd ⟨id, name, position, params, block⟩ :: Procedure.visitsOf rest)
      simpa [Procedure.visitsOf] using lies
    · have left : ((before ++ Procedure.visitsOf [⟨id, name, position, params, block⟩]).foldl
          Analysis.step start).opened = scope :: outer := by
        rw [List.foldl_append, Analysis.opened_procedures, opened]
      have lies := Procedure.lies_of_mem_partsOf rest left part later
      simpa [Procedure.visitsOf] using lies

end
end

/-! ## Declarations alone -/

/-- The procedure with nothing inside of its block. -/
def Procedure.hollow (procedure : Procedure) : Procedure :=
  { procedure with block := ⟨0, [], [], ⟨0, []⟩⟩ }

/-- The visit of a declaration, of a procedure without its block, or nothing. -/
def Visit.declaring? : Visit → Option Visit
  | .varDeclStart decl => some (.varDeclStart decl)
  | .param parameter => some (.param parameter)
  | .procedureStart procedure => some (.procedureStart procedure.hollow)
  | .procedureEnd procedure => some (.procedureEnd procedure.hollow)
  | _ => none

namespace Analysis

/-- The tables are the same, and the same scopes are open. -/
structure SameScopes (first second : Analysis) : Prop where
  scopes : first.scopes = second.scopes
  opened : first.opened = second.opened

namespace SameScopes

variable {first second : Analysis}

theorem scope_eq (same : SameScopes first second) : first.scope = second.scope := by
  rw [scope, scope, same.scopes, same.opened]

theorem report (same : SameScopes first second) (more others : List Diagnosis) :
    SameScopes (first.report more) (second.report others) :=
  ⟨same.scopes, same.opened⟩

theorem declare (same : SameScopes first second) (names : List String) (dataType : DataType) :
    SameScopes (first.declare names dataType) (second.declare names dataType) := by
  rw [Analysis.declare, Analysis.declare, same.scope_eq, same.scopes]
  cases second.scopes.table? second.scope with
  | none => exact same
  | some table => exact ⟨rfl, same.opened⟩

/-- What has been reported has no part in what a step does to the scopes. -/
theorem step (same : SameScopes first second) (visit : Visit) :
    SameScopes (first.step visit) (second.step visit) := by
  cases visit with
  | varDeclStart decl => exact (same.report _ _).declare _ _
  | param param =>
      exact (same.report _ _).declare [param.declared.name] param.typeSpec.dataType
  | procedureStart procedure =>
      refine ⟨?_, congrArg (procedure.name :: ·) same.opened⟩
      simp only [Analysis.step, openProcedure, Analysis.report, same.scope_eq, same.scopes]
  | procedureEnd procedure => exact ⟨same.scopes, congrArg List.tail same.opened⟩
  | call id name position arguments => exact same.report _ _
  | used name => exact same.report _ _
  | _ => exact same

/-- The scopes behind any visits are those behind the declarations among them. -/
theorem foldl_declaring (visits : List Visit) : ∀ {first second : Analysis},
    SameScopes first second → SameScopes (visits.foldl Analysis.step first)
      ((visits.filterMap Visit.declaring?).foldl Analysis.step second) := by
  induction visits with
  | nil => exact fun same => same
  | cons visit rest ih =>
      intro first second same
      rw [List.foldl_cons, List.filterMap_cons]
      have stepped := same.step visit
      cases visit with
      | varDeclStart decl => exact ih stepped
      | param param => exact ih stepped
      | procedureStart procedure => exact ih ⟨stepped.scopes, stepped.opened⟩
      | procedureEnd procedure => exact ih ⟨stepped.scopes, stepped.opened⟩
      | _ => exact ih ⟨same.scopes, same.opened⟩

end SameScopes

end Analysis

/-! ## Whole programs -/

namespace Program

/-- The program with other statements of its own; its procedures keep theirs. -/
def withStatements (program : Program) (statements : List Statement) : Program :=
  { program with
    block := { program.block with body := { program.block.body with statements := statements } } }

/-- The state behind the declarations of a program, in front of its statements. -/
def declared (program : Program) : Analysis :=
  (program.block.declarations.flatMap VarDecl.visits
    ++ Procedure.visitsOf program.block.procedures).foldl Analysis.step (Analysis.ofProgram program)

theorem scope_declared (program : Program) : program.declared.scope = program.name := by
  have opened : program.declared.opened = [program.name] := by
    rw [declared, List.foldl_append, Analysis.opened_procedures,
      Analysis.opened_foldl_of_flat VarDecl.nests_of_mem_visits]
    rfl
  rw [Analysis.scope, opened]
  rfl

/-- The faults of the statements come behind those of the declarations. -/
theorem reported_withStatements (program : Program) (statements : List Statement) :
    (program.withStatements statements).reported = program.declared.diagnoses
      ++ statements.flatMap (Statement.faults program.declared.scopes program.name) := by
  have walked : Analysis.run (program.withStatements statements) = program.declared.report
      (statements.flatMap (Statement.faults program.declared.scopes program.declared.scope)) := by
    obtain ⟨id, name, blockId, declarations, procedures, bodyId, own⟩ := program
    simp only [Analysis.run, withStatements, declared, visits, Block.visits, List.foldl_append,
      List.cons_append, List.foldl_cons, List.foldl_nil, Analysis.foldl_step_compound]
    rfl
  rw [reported_eq, walked, scope_declared]
  rfl

/-- There is a statement part for every scope, and a walk that comes to it adds the faults of its
statements one after the other and changes nothing else. What is wrong with a statement is decided by
the scope and by the tables that the declarations in front of the part make on their own. So, with the
same declarations, the faults of more statements come behind those of the others, and both come
behind those of the declarations. -/
theorem faults_of_statements (program : Program) :
    program.parts.map (fun part => (part.scope, part.body.statements))
        = program.scopes.map (fun scope => (scope.name, scope.statements))
      ∧ (∀ part ∈ program.parts,
        let state := part.before.foldl Analysis.step (Analysis.ofProgram program)
        let declared := (part.before.filterMap Visit.declaring?).foldl Analysis.step
          (Analysis.ofProgram program)
        part.Lies (Analysis.ofProgram program) program.visits ∧ state.SameScopes declared
          ∧ part.body.visits.foldl Analysis.step state = state.report
            (part.body.statements.flatMap (Statement.faults declared.scopes part.scope))
          ∧ ∀ statement : Statement, statement.visits.foldl Analysis.step declared
            = declared.report (statement.faults declared.scopes part.scope))
      ∧ ∀ first second : List Statement,
        let faults := fun statements : List Statement =>
          statements.flatMap (Statement.faults program.declared.scopes program.name)
        (program.withStatements []).reported = program.declared.diagnoses
          ∧ (program.withStatements first).reported = program.declared.diagnoses ++ faults first
          ∧ (program.withStatements second).reported = program.declared.diagnoses ++ faults second
          ∧ (program.withStatements (first ++ second)).reported
            = program.declared.diagnoses ++ faults first ++ faults second := by
  refine ⟨Block.map_parts program.name none [] [] [] _ program.block, ?_, ?_⟩
  · intro part member state declared
    have begun : ([Visit.programStart program].foldl Analysis.step
        (Analysis.ofProgram program)).opened = [program.name] := rfl
    have lies := (Block.lies_of_mem_parts program.block begun part member).append
      [.programEnd program]
    have same : state.SameScopes declared :=
      Analysis.SameScopes.foldl_declaring part.before ⟨rfl, rfl⟩
    have scope : state.scope = part.scope := by
      rw [Analysis.scope, lies.opened, List.headD_cons]
    refine ⟨lies, same, ?_, fun statement => ?_⟩
    · rw [Analysis.foldl_step_compound, scope, same.scopes]
    · rw [Analysis.foldl_step_statement, ← same.scope_eq, scope]
  · intro first second faults
    refine ⟨?_, reported_withStatements program first, reported_withStatements program second, ?_⟩
    · rw [reported_withStatements, List.flatMap_nil, List.append_nil]
    · rw [reported_withStatements, List.flatMap_append, ← List.append_assoc]

end Program
end MiniPascal
