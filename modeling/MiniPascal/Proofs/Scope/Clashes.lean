import MiniPascal.Proofs.Program.Succession
import MiniPascal.Proofs.Program.Diagrams
import MiniPascal.Proofs.Scope.Parsed
import MiniPascal.Proofs.Scope.Precedence

/-! # Clashing declarations

A walk meets the declarations of a program one after the other, each in the scope of a name. What is
reported about one of them depends on the names declared before, in whatever way they clash: a
procedure is a duplicate if its name is that of the program or of a procedure met earlier, and a name
is taken if its scope has declared it already. Procedures of one name share one scope. -/
set_option autoImplicit false
namespace MiniPascal

/-- One declaration in the scope of a name: variables or a parameter, or a procedure. -/
inductive Declaration where
  | typed (scope : String) (names : List String) (dataType : DataType)
  | nested (scope : String) (procedure : Procedure)

namespace Declaration

/-- The entries of a declaration in a ledger. -/
def entries : Declaration → List Entry
  | .typed scope names dataType =>
    names.map fun name => .symbol scope name (.variable dataType)
  | .nested scope procedure => procedure.heading scope

/-- The names that are declared in the given scope. -/
def namesIn (scope : String) : Declaration → List String
  | .typed place names _ => if place = scope then names else []
  | .nested place procedure => if place = scope then [procedure.name] else []

def procedure? : Declaration → Option Procedure
  | .typed _ _ _ => none
  | .nested _ procedure => some procedure

/-- The names of the scopes: the program's own, and those of the procedures met. -/
def scopeNames (root : String) (earlier : List Declaration) : List String :=
  root :: (earlier.filterMap procedure?).map Procedure.name

/-- What is reported about a declaration behind earlier ones. Names that are taken are reported
together, and a duplicate procedure for its scope alone. -/
def faults (root : String) (earlier : List Declaration) : Declaration → List Diagnosis
  | .typed scope names _ =>
    let taken := clashes (earlier.flatMap (namesIn scope)) names
    if taken.isEmpty then [] else [.alreadyDefined scope taken]
  | .nested scope procedure =>
    if procedure.name ∈ scopeNames root earlier then
      [.duplicateScope procedure.name procedure.position]
    else if procedure.name ∈ earlier.flatMap (namesIn scope) then
      [.alreadyDefined scope [procedure.name]]
    else []

/-- What is reported about declarations one after the other, behind earlier ones. -/
def faultsFrom (root : String) : List Declaration → List Declaration → List Diagnosis
  | _, [] => []
  | earlier, declaration :: rest =>
    declaration.faults root earlier ++ faultsFrom root (earlier ++ [declaration]) rest

end Declaration

mutual

/-- The declarations of a block in the scope of the given name, in the order of a walk. -/
def Block.declares (scope : String) : Block → List Declaration
  | ⟨_, declarations, procedures, _⟩ =>
    (declarations.map fun decl =>
        .typed scope (decl.names.map Variable.name) decl.typeSpec.dataType)
      ++ Procedure.declaresOf scope procedures

/-- Procedures are declared in the scope around them, parameters in that of the procedure. -/
def Procedure.declaresOf (scope : String) : List Procedure → List Declaration
  | [] => []
  | ⟨id, name, position, params, block⟩ :: rest =>
    .nested scope ⟨id, name, position, params, block⟩
      :: ((params.map fun param =>
          .typed name [param.declared.name] param.typeSpec.dataType)
        ++ block.declares name ++ Procedure.declaresOf scope rest)

end

/-- All declarations of a program in the order of a walk. -/
def Program.declares (program : Program) : List Declaration :=
  program.block.declares program.name

/-- What is reported for procedures whose name has been met before. -/
def Procedure.duplicates : List String → List Procedure → List Diagnosis
  | _, [] => []
  | met, procedure :: rest =>
    (if procedure.name ∈ met then [.duplicateScope procedure.name procedure.position] else [])
      ++ Procedure.duplicates (met ++ [procedure.name]) rest

namespace Diagnosis

def isDeclaration : Diagnosis → Bool
  | .duplicateScope _ _ | .alreadyDefined _ _ | .unknownType _ _ => true
  | _ => false

def isDuplicateScope : Diagnosis → Bool
  | .duplicateScope _ _ => true
  | _ => false

end Diagnosis

/-- The faults that an analysis of the program reports. -/
def Program.reported (program : Program) : List Diagnosis :=
  match program.analyse with
  | .ok _ => []
  | .error diagnoses => diagnoses

theorem Program.reported_eq (program : Program) :
    program.reported = (Analysis.run program).diagnoses := by
  rw [reported, analyse]
  rcases Analysis.run program with ⟨scopes, opened, _ | ⟨first, rest⟩⟩ <;> rfl

/-- What is wrong with a reference is no fault of a declaration. -/
theorem Visit.isDeclaration_of_mem_faults {tree : ScopeTree} {scope : String} {visit : Visit}
    {diagnosis : Diagnosis} (found : diagnosis ∈ visit.faults tree scope) :
    diagnosis.isDeclaration = false := by
  cases visit with
  | call id name position arguments =>
      rw [faults, ScopeTree.checkCall] at found
      split at found
      · split at found
        · cases found
        · rw [List.mem_singleton.mp found]
          rfl
      · rw [List.mem_singleton.mp found]
        rfl
  | used name =>
      rw [faults, ScopeTree.checkVariable] at found
      split at found
      · cases found
      · rw [List.mem_singleton.mp found]
        rfl
      · rw [List.mem_singleton.mp found]
        rfl
  | _ => cases found

namespace Declaration

variable {root scope : String} {earlier : List Declaration}

theorem faults_cases {declaration : Declaration} {diagnosis : Diagnosis}
    (found : diagnosis ∈ declaration.faults root earlier) :
    (∃ name position, diagnosis = .duplicateScope name position)
      ∨ ∃ scope names, diagnosis = .alreadyDefined scope names := by
  cases declaration with
  | typed scope names dataType =>
      simp only [faults] at found
      split at found
      · cases found
      · exact .inr ⟨_, _, List.mem_singleton.mp found⟩
  | nested scope procedure =>
      rw [faults] at found
      split at found
      · exact .inl ⟨_, _, List.mem_singleton.mp found⟩
      · split at found
        · exact .inr ⟨_, _, List.mem_singleton.mp found⟩
        · cases found

theorem faultsFrom_cases {diagnosis : Diagnosis} {declarations : List Declaration} :
    ∀ {earlier : List Declaration}, diagnosis ∈ faultsFrom root earlier declarations →
      (∃ name position, diagnosis = .duplicateScope name position)
        ∨ ∃ scope names, diagnosis = .alreadyDefined scope names := by
  induction declarations with
  | nil => exact fun found => absurd found List.not_mem_nil
  | cons first rest ih =>
      intro earlier found
      rcases List.mem_append.mp found with here | later
      · exact faults_cases here
      · exact ih later

theorem scopeNames_concat (declaration : Declaration) :
    scopeNames root (earlier ++ [declaration])
      = scopeNames root earlier ++ declaration.procedure?.toList.map Procedure.name := by
  rw [scopeNames, List.filterMap_append, List.map_append, ← List.cons_append, ← scopeNames]
  cases declaration <;> rfl

/-- A procedure is a duplicate for its scope's name alone. -/
theorem filter_faultsFrom (declarations : List Declaration) : ∀ earlier : List Declaration,
    (faultsFrom root earlier declarations).filter Diagnosis.isDuplicateScope
      = Procedure.duplicates (scopeNames root earlier) (declarations.filterMap procedure?) := by
  induction declarations with
  | nil => exact fun _ => rfl
  | cons first rest ih =>
      intro earlier
      rw [faultsFrom, List.filter_append, ih, scopeNames_concat]
      cases first with
      | typed scope names dataType =>
          simp only [faults, procedure?, Option.toList_none, List.map_nil, List.append_nil]
          split <;> rfl
      | nested scope procedure =>
          simp only [faults, procedure?, Option.toList_some, List.map_cons, List.map_nil]
          congr 1
          split
          · rfl
          · split <;> rfl

theorem faultsFrom_concat (declaration : Declaration) (others : List Declaration) :
    ∀ earlier : List Declaration, faultsFrom root earlier (others ++ [declaration])
      = faultsFrom root earlier others ++ declaration.faults root (earlier ++ others) := by
  induction others with
  | nil => exact fun earlier => by simp [faultsFrom]
  | cons first rest ih =>
      intro earlier
      simp only [List.cons_append, faultsFrom, ih, List.append_assoc, List.nil_append]

theorem mem_namesIn_iff (name : String) : name ∈ earlier.flatMap (namesIn scope)
    ↔ (scope, some name) ∈ (earlier.flatMap entries).map Entry.key := by
  rw [List.map_flatMap, List.mem_flatMap, List.mem_flatMap]
  refine exists_congr fun declaration => and_congr_right fun _ => ?_
  cases declaration with
  | typed place names dataType =>
      rw [namesIn]
      split <;> simp_all [entries, Entry.key]
  | nested place procedure =>
      rw [namesIn]
      split <;> simp_all [entries, Entry.key, Procedure.heading, eq_comm]

theorem mem_scopeNames_iff (name : String) :
    name ∈ scopeNames root earlier ↔ IsScope root (earlier.flatMap entries) name := by
  rw [scopeNames, List.mem_cons, IsScope]
  refine or_congr_right ?_
  simp only [List.mem_map, List.mem_filterMap, List.mem_flatMap]
  constructor
  · rintro ⟨procedure, ⟨declaration, among, found⟩, rfl⟩
    cases declaration with
    | typed place names dataType => cases found
    | nested place procedure =>
        cases found
        exact ⟨place, _, among, by simp [entries, Procedure.heading]⟩
  · rintro ⟨parent, declaration, among, inside⟩
    cases declaration with
    | typed place names dataType => simp [entries] at inside
    | nested place procedure =>
        simp only [entries, Procedure.heading, List.mem_cons, reduceCtorEq, Entry.scope.injEq,
          List.not_mem_nil, or_false, false_or] at inside
        exact ⟨procedure, ⟨_, among, rfl⟩, inside.1.symm⟩

end Declaration

namespace Analysis

open Declaration

/-- The state behind some declarations: the tree keeps the first entry of every key, the faults of
declarations are the ones reported about them, and the open scopes are there. -/
structure Records (root : String) (earlier : List Declaration) (opened : List String)
    (analysis : Analysis) : Prop where
  keeps : analysis.scopes.Keeps root (earlier.flatMap entries)
  faults : analysis.diagnoses.filter Diagnosis.isDeclaration = faultsFrom root [] earlier
  open_eq : analysis.opened = opened
  scopes : ∀ scope ∈ opened, IsScope root (earlier.flatMap entries) scope
  placed : ∀ place name meaning, Entry.symbol place name meaning ∈ earlier.flatMap entries →
    IsScope root (earlier.flatMap entries) place

namespace Records

variable {root scope : String} {earlier : List Declaration} {opened outer : List String}
  {analysis : Analysis}

theorem scope_eq (records : analysis.Records root earlier (scope :: outer)) :
    analysis.scope = scope := by
  rw [Analysis.scope, records.open_eq]
  rfl

theorem isScope (records : analysis.Records root earlier (scope :: outer)) :
    IsScope root (earlier.flatMap entries) scope :=
  records.scopes scope List.mem_cons_self

theorem exists_table (records : analysis.Records root earlier (scope :: outer)) :
    ∃ table, analysis.scopes.table? scope = some table :=
  Option.isSome_iff_exists.mp ((records.keeps.isSome_table?_iff scope).mpr records.isScope)

/-- Faults of references change nothing here. -/
theorem report (records : analysis.Records root earlier opened) {more : List Diagnosis}
    (others : ∀ diagnosis ∈ more, diagnosis.isDeclaration = false) :
    (analysis.report more).Records root earlier opened := by
  refine ⟨records.keeps, ?_, records.open_eq, records.scopes, records.placed⟩
  have none : more.filter Diagnosis.isDeclaration = [] :=
    List.filter_eq_nil_iff.mpr fun diagnosis member => by simp [others diagnosis member]
  rw [← records.faults, Analysis.report, List.filter_append, none, List.append_nil]

theorem checkType_eq_nil (records : analysis.Records root earlier (scope :: outer))
    (typeSpec : TypeSpec) : analysis.scopes.checkType analysis.scope typeSpec = [] := by
  obtain ⟨table, found⟩ := records.exists_table
  have known := (records.keeps.find?_eq_some_iff found typeSpec.dataType.name
    (.typeName typeSpec.dataType)).mpr (.inl ⟨_, rfl, rfl⟩)
  rw [ScopeTree.checkType, records.scope_eq, found, Option.bind_some, known]

/-- The state behind one more declaration. -/
theorem concat (records : analysis.Records root earlier opened) {declaration : Declaration}
    {after : Analysis} {opened' : List String}
    (keeps : after.scopes.Keeps root (earlier.flatMap entries ++ declaration.entries))
    (faults : after.diagnoses = analysis.diagnoses ++ declaration.faults root earlier)
    (open_eq : after.opened = opened')
    (scopes : ∀ scope ∈ opened', scope ∈ opened
      ∨ IsScope root (earlier.flatMap entries ++ declaration.entries) scope)
    (placed : ∀ place name meaning, Entry.symbol place name meaning ∈ declaration.entries →
      IsScope root (earlier.flatMap entries) place) :
    after.Records root (earlier ++ [declaration]) opened' := by
  have more : (earlier ++ [declaration]).flatMap entries
      = earlier.flatMap entries ++ declaration.entries := by simp
  refine ⟨more ▸ keeps, ?_, open_eq, ?_, ?_⟩
  · have all : (declaration.faults root earlier).filter Diagnosis.isDeclaration
        = declaration.faults root earlier := by
      rw [List.filter_eq_self]
      intro diagnosis member
      rcases Declaration.faults_cases member with ⟨_, _, rfl⟩ | ⟨_, _, rfl⟩ <;> rfl
    rw [faultsFrom_concat, List.nil_append, ← records.faults, faults, List.filter_append, all]
  · rw [more]
    intro scope member
    rcases scopes scope member with before | added
    · exact (records.scopes scope before).append _
    · exact added
  · rw [more]
    intro place name meaning member
    rcases List.mem_append.mp member with before | added
    · exact (records.placed place name meaning before).append _
    · exact (placed place name meaning added).append _

/-- Variables are defined in the innermost scope, but for those whose names are taken. -/
theorem declare (records : analysis.Records root earlier (scope :: outer)) {names : List String}
    (avoid : AvoidTypes names) (typeSpec : TypeSpec) :
    ((analysis.report (analysis.scopes.checkType analysis.scope typeSpec)).declare names
      typeSpec.dataType).Records root (earlier ++ [.typed scope names typeSpec.dataType])
        (scope :: outer) := by
  obtain ⟨table, found⟩ := records.exists_table
  have unchanged : analysis.report [] = analysis := by simp [Analysis.report]
  rw [records.checkType_eq_nil, unchanged, Analysis.declare, records.scope_eq, found]
  obtain ⟨ledger, kept, holds⟩ := records.keeps
  obtain ⟨taken, added, symbols, kept', held⟩ :=
    SymbolTable.Holds.defineAll_eq_clashes (.variable typeSpec.dataType) avoid kept
      (holds.tables scope table found) mem_namesIn_iff
  have known := (kept.isScope_iff scope).mpr records.isScope
  refine records.concat ⟨_, kept', holds.setTable known symbols held⟩ ?_ records.open_eq
    (fun _ member => .inl member) ?_
  · simp only [Analysis.report, taken, Declaration.faults]
  · intro place name meaning member
    obtain ⟨_, _, same⟩ := List.mem_map.mp member
    injection same with places
    exact places ▸ records.isScope

/-- A procedure is defined in the innermost scope and has a scope of its name, each unless it is
there already. -/
theorem openProcedure (records : analysis.Records root earlier (scope :: outer))
    {procedure : Procedure} (avoid : AvoidTypes [procedure.name]) :
    (analysis.openProcedure procedure).Records root (earlier ++ [.nested scope procedure])
      (procedure.name :: scope :: outer) := by
  obtain ⟨defined, keeps⟩ :=
    records.keeps.define? records.isScope procedure.name (.procedure procedure.header)
  have placed : ∀ place name meaning, Entry.symbol place name meaning
      ∈ earlier.flatMap entries ++ [.symbol scope procedure.name (.procedure procedure.header)] →
        IsScope root (earlier.flatMap entries
          ++ [.symbol scope procedure.name (.procedure procedure.header)]) place := by
    intro place name meaning member
    rcases List.mem_append.mp member with before | added
    · exact (records.placed place name meaning before).append _
    · injection List.mem_singleton.mp added with places
      exact (places ▸ records.isScope).append _
  obtain ⟨added, keeps⟩ := keeps.addScope? procedure.name scope placed
  have duplicate : procedure.name ∈ scopeNames root earlier
      ↔ IsScope root (earlier.flatMap entries
        ++ [.symbol scope procedure.name (.procedure procedure.header)]) procedure.name := by
    rw [mem_scopeNames_iff]
    simp [IsScope]
  have taken : procedure.name ∈ earlier.flatMap (namesIn scope)
      ↔ ¬ Fresh root (earlier.flatMap entries)
        (.symbol scope procedure.name (.procedure procedure.header)) := by
    rw [mem_namesIn_iff, Fresh, and_iff_right (avoid.not_reserved List.mem_cons_self root scope _),
      not_not]
    rfl
  rw [List.append_assoc] at keeps
  rw [← not_iff_not, Option.not_isSome_iff_eq_none] at added defined
  rw [not_not, ← duplicate] at added
  rw [← taken] at defined
  rw [Analysis.openProcedure, records.scope_eq]
  refine records.concat keeps ?_ (by rw [← records.open_eq]; rfl) ?_ ?_
  · simp only [Analysis.report, Declaration.faults, Option.isNone_iff_eq_none, added, defined]
  · intro place member
    rcases List.mem_cons.mp member with rfl | before
    · exact .inr (.inr ⟨scope, by simp [entries, Procedure.heading]⟩)
    · exact .inl before
  · intro place name meaning member
    simp only [entries, Procedure.heading, List.mem_cons, Entry.symbol.injEq, reduceCtorEq,
      List.not_mem_nil, or_false] at member
    exact member.1 ▸ records.isScope

theorem closeProcedure (records : analysis.Records root earlier (scope :: outer))
    (procedure : Procedure) :
    (analysis.step (.procedureEnd procedure)).Records root earlier outer := by
  refine ⟨records.keeps, records.faults, ?_, ?_, records.placed⟩
  · rw [step, records.open_eq, List.tail_cons]
  · exact fun place member => records.scopes place (List.mem_cons_of_mem _ member)

end Records

/-! ## A walk -/

/-- Walking over the visits meets these declarations and leaves these scopes open, whatever has been
declared before. -/
def Meets (root : String) (visits : List Visit) (opened : List String) (met : List Declaration)
    (opened' : List String) : Prop :=
  ∀ earlier before, Records root earlier opened before →
    Records root (earlier ++ met) opened' (visits.foldl step before)

namespace Meets

variable {root scope : String} {opened outer middle last : List String}
  {visits others : List Visit} {met more : List Declaration}

theorem append (first : Meets root visits opened met middle)
    (second : Meets root others middle more last) :
    Meets root (visits ++ others) opened (met ++ more) last := by
  intro earlier before records
  rw [List.foldl_append, ← List.append_assoc]
  exact second _ _ (first _ _ records)

/-- References are no declarations. -/
theorem refers (refer : ∀ visit ∈ visits, visit.refers) : Meets root visits opened [] opened := by
  intro earlier before records
  rw [foldl_step_of_refers visits before refer, List.append_nil]
  apply records.report
  intro diagnosis member
  obtain ⟨visit, among, found⟩ := List.mem_flatMap.mp member
  exact Visit.isDeclaration_of_mem_faults found

/-- A declaration of variables, and then the visits of its names and its type. -/
theorem typed {names : List String} {typeSpec : TypeSpec} {visit : Visit}
    (avoid : AvoidTypes names)
    (defines : ∀ analysis : Analysis, analysis.step visit
      = (analysis.report (analysis.scopes.checkType analysis.scope typeSpec)).declare names
        typeSpec.dataType)
    (refer : ∀ visit ∈ visits, visit.refers) :
    Meets root (visit :: visits) (scope :: outer) [.typed scope names typeSpec.dataType]
      (scope :: outer) := by
  intro earlier before records
  rw [List.foldl_cons, defines]
  have behind := refers refer _ _ (records.declare avoid typeSpec)
  rwa [List.append_nil] at behind

theorem flatMap {α : Type} {walk : α → List Visit} {declares : α → Declaration} {values : List α}
    (each : ∀ value ∈ values, Meets root (walk value) opened [declares value] opened) :
    Meets root (values.flatMap walk) opened (values.map declares) opened := by
  induction values with
  | nil => exact refers (List.forall_mem_nil _)
  | cons first rest ih =>
      obtain ⟨one, others⟩ := List.forall_mem_cons.mp each
      exact one.append (ih others)

end Meets
end Analysis

section

variable {root scope : String} {outer : List String}

theorem VarDecl.meets {decl : VarDecl} (avoid : AvoidTypes (decl.names.map Variable.name)) :
    Analysis.Meets root decl.visits (scope :: outer)
      [.typed scope (decl.names.map Variable.name) decl.typeSpec.dataType] (scope :: outer) := by
  refine .typed avoid (fun _ => rfl) ?_
  intro visit member
  rcases List.mem_append.mp member with declared | last
  · obtain ⟨_, _, rfl⟩ := List.mem_map.mp declared
    rfl
  · simp only [List.mem_cons, List.not_mem_nil, or_false] at last
    rcases last with rfl | rfl <;> rfl

theorem Param.meets {param : Param} (avoid : AvoidTypes [param.declared.name]) :
    Analysis.Meets root param.visits (scope :: outer)
      [.typed scope [param.declared.name] param.typeSpec.dataType] (scope :: outer) :=
  .typed avoid (fun _ => rfl) (by simp [Visit.refers])

theorem Procedure.meets_start {procedure : Procedure} (avoid : AvoidTypes [procedure.name]) :
    Analysis.Meets root [.procedureStart procedure] (scope :: outer) [.nested scope procedure]
      (procedure.name :: scope :: outer) :=
  fun _ _ records => records.openProcedure avoid

theorem Procedure.meets_end (procedure : Procedure) :
    Analysis.Meets root [.procedureEnd procedure] (scope :: outer) [] outer := by
  intro earlier before records
  rw [List.append_nil]
  exact records.closeProcedure procedure

end

mutual

/-- A block declares variables first, then procedures, and its statements only refer to them. -/
theorem Block.meets (root scope : String) (outer : List String) : ∀ block : Block,
    AvoidTypes block.declaredNames →
      Analysis.Meets root block.visits (scope :: outer) (block.declares scope) (scope :: outer)
  | ⟨id, declarations, procedures, ⟨bodyId, statements⟩⟩, avoid => by
    obtain ⟨avoidOwn, avoidNested⟩ := List.forall_mem_append.mp avoid
    have first : Analysis.Meets root
        [.blockStart ⟨id, declarations, procedures, ⟨bodyId, statements⟩⟩] (scope :: outer) []
        (scope :: outer) := .refers (by simp [Visit.refers])
    have own : Analysis.Meets root (declarations.flatMap VarDecl.visits) (scope :: outer)
        (declarations.map fun decl =>
          .typed scope (decl.names.map Variable.name) decl.typeSpec.dataType) (scope :: outer) :=
      .flatMap fun decl among => VarDecl.meets fun name member =>
        avoidOwn name (List.mem_flatMap.mpr ⟨decl, among, member⟩)
    have nested := Procedure.meetsAll root scope outer procedures avoidNested
    have last : Analysis.Meets root (Compound.visits ⟨bodyId, statements⟩
        ++ [.blockEnd ⟨id, declarations, procedures, ⟨bodyId, statements⟩⟩]) (scope :: outer) []
        (scope :: outer) := by
      refine .refers fun visit member => ?_
      rcases List.mem_append.mp member with inside | only
      · rcases List.mem_append.mp inside with inside | only
        · rcases List.mem_cons.mp inside with rfl | inside
          · rfl
          · exact Statement.refers_of_mem_visitsOf statements visit inside
        · rw [List.mem_singleton.mp only]
          rfl
      · rw [List.mem_singleton.mp only]
        rfl
    have whole := ((first.append own).append nested).append last
    simpa [Block.visits, Block.declares] using whole

theorem Procedure.meetsAll (root scope : String) (outer : List String) :
    ∀ procedures : List Procedure, AvoidTypes (Procedure.declaredNamesOf procedures) →
      Analysis.Meets root (Procedure.visitsOf procedures) (scope :: outer)
        (Procedure.declaresOf scope procedures) (scope :: outer)
  | [], _ => .refers (List.forall_mem_nil _)
  | ⟨id, name, position, params, block⟩ :: rest, avoid => by
    obtain ⟨avoidName, avoidInside⟩ := List.forall_mem_cons.mp avoid
    obtain ⟨avoidProcedure, avoidRest⟩ := List.forall_mem_append.mp avoidInside
    obtain ⟨avoidParams, avoidBlock⟩ := List.forall_mem_append.mp avoidProcedure
    let procedure : Procedure := ⟨id, name, position, params, block⟩
    have start : Analysis.Meets root [.procedureStart procedure] (scope :: outer)
        [.nested scope procedure] (name :: scope :: outer) :=
      Procedure.meets_start (List.forall_mem_singleton.mpr avoidName)
    have listed : Analysis.Meets root (params.flatMap Param.visits) (name :: scope :: outer)
        (params.map fun param => .typed name [param.declared.name] param.typeSpec.dataType)
        (name :: scope :: outer) :=
      .flatMap fun param among => Param.meets (List.forall_mem_singleton.mpr
        (avoidParams _ (List.mem_map.mpr ⟨param, among, rfl⟩)))
    have inside := Block.meets root name (scope :: outer) block avoidBlock
    have later := Procedure.meetsAll root scope outer rest avoidRest
    have whole := (((start.append listed).append inside).append
      (Procedure.meets_end procedure)).append later
    simpa [Procedure.visitsOf, Procedure.declaresOf, procedure] using whole

end

/-! ## Declarations and entries -/

mutual

theorem Block.flatMap_declares (scope : String) : ∀ block : Block,
    (block.declares scope).flatMap Declaration.entries = block.entries scope
  | ⟨_, declarations, procedures, _⟩ => by
    rw [Block.declares, Block.entries, List.flatMap_append,
      Procedure.flatMap_declaresOf scope procedures, List.flatMap_map]
    congr 1
    refine List.flatMap_congr fun decl _ => ?_
    exact List.map_map

theorem Procedure.flatMap_declaresOf (scope : String) : ∀ procedures : List Procedure,
    (Procedure.declaresOf scope procedures).flatMap Declaration.entries
      = Procedure.entriesOf scope procedures
  | [] => rfl
  | ⟨id, name, position, params, block⟩ :: rest => by
    have listed : params.flatMap (fun param => Declaration.entries
          (.typed name [param.declared.name] param.typeSpec.dataType))
        = params.map (Param.entry name) := List.map_eq_flatMap.symm
    rw [Procedure.declaresOf, Procedure.entriesOf, List.flatMap_cons, List.flatMap_append,
      List.flatMap_append, Block.flatMap_declares name block,
      Procedure.flatMap_declaresOf scope rest, List.flatMap_map, listed, ← List.append_assoc]
    rfl

end

mutual

theorem Block.filterMap_declares (scope : String) : ∀ block : Block,
    (block.declares scope).filterMap Declaration.procedure? = block.allProcedures
  | ⟨_, declarations, procedures, _⟩ => by
    rw [Block.declares, Block.allProcedures, List.filterMap_append,
      Procedure.filterMap_declaresOf scope procedures, List.filterMap_map]
    exact List.append_left_eq_self.mpr (List.filterMap_eq_nil_iff.mpr fun _ _ => rfl)

theorem Procedure.filterMap_declaresOf (scope : String) : ∀ procedures : List Procedure,
    (Procedure.declaresOf scope procedures).filterMap Declaration.procedure?
      = Procedure.allOf procedures
  | [] => rfl
  | ⟨id, name, position, params, block⟩ :: rest => by
    have listed : params.filterMap (Declaration.procedure? ∘ fun param =>
        .typed name [param.declared.name] param.typeSpec.dataType) = [] :=
      List.filterMap_eq_nil_iff.mpr fun _ _ => rfl
    rw [Procedure.declaresOf, Procedure.allOf, List.filterMap_cons, List.filterMap_append,
      List.filterMap_append, Block.filterMap_declares name block,
      Procedure.filterMap_declaresOf scope rest, List.filterMap_map, listed]
    rfl

end

/-! ## Names of a parse -/

namespace Session.Invariant

variable {kept : Session.Invariant}

mutual

theorem names_of_block : ∀ block : Block, kept.MakesAll block.visits →
    ∀ name ∈ block.declaredNames, ∃ position, kept.Names name position
  | ⟨_, declarations, procedures, _⟩, makes, name, member => by
    rcases List.mem_append.mp member with own | nested
    · obtain ⟨decl, among, declared⟩ := List.mem_flatMap.mp own
      obtain ⟨called, listed, rfl⟩ := List.mem_map.mp declared
      have visited : Visit.declared called ∈ declarations.flatMap VarDecl.visits :=
        List.mem_flatMap.mpr ⟨decl, among, by simp [VarDecl.visits, listed]⟩
      exact ⟨called.position, makes (.declared called) (by simp [Block.visits, visited])⟩
    · exact names_of_procedures procedures
        (fun visit inside => makes visit (by simp [Block.visits, inside])) name nested

theorem names_of_procedures : ∀ procedures : List Procedure,
    kept.MakesAll (Procedure.visitsOf procedures) →
      ∀ name ∈ Procedure.declaredNamesOf procedures, ∃ position, kept.Names name position
  | [], _, name, member => by cases member
  | ⟨id, called, position, params, block⟩ :: rest, makes, name, member => by
    rcases List.mem_cons.mp member with rfl | inside
    · have start := makes (.procedureStart ⟨id, name, position, params, block⟩)
        (by simp [Procedure.visitsOf])
      exact ⟨position, start.1⟩
    · rcases List.mem_append.mp inside with inside | later
      · rcases List.mem_append.mp inside with listed | inside
        · obtain ⟨param, among, rfl⟩ := List.mem_map.mp listed
          have visited : Visit.declared param.declared ∈ params.flatMap Param.visits :=
            List.mem_flatMap.mpr ⟨param, among, by simp [Param.visits]⟩
          exact ⟨param.declared.position,
            makes (.declared param.declared) (by simp [Procedure.visitsOf, visited])⟩
        · exact names_of_block block
            (fun visit inside => makes visit (by simp [Procedure.visitsOf, inside])) name inside
      · exact names_of_procedures rest
          (fun visit inside => makes visit (by simp [Procedure.visitsOf, inside])) name later

end
end Session.Invariant

namespace Program

variable {source : String} {session after : Session} {program : Program}

/-- Declared names are identifiers, however often the parser has been called before. -/
theorem avoidTypes_of_reaches (reaches : (Session.ofString source).Reaches session)
    (parsed : Parser.parse session = .ok program after) :
    AvoidTypes program.block.declaredNames := by
  have rests : (Session.Invariant.ofSource source).Rests session := reaches.draws
  have made := Parser.allows_parse rests
  rw [parsed] at made
  have inside : (Session.Invariant.ofSource source).MakesAll program.block.visits :=
    fun visit member => made.2 visit (by simp [visits, member])
  intro name member dataType same
  obtain ⟨position, names⟩ := Session.Invariant.names_of_block program.block inside name member
  have kind := (Session.Invariant.isName_of_names names).kind
  rw [← same] at kind
  cases dataType <;> exact absurd kind (by decide)

theorem records_run (program : Program) (avoid : AvoidTypes program.block.declaredNames) :
    (Analysis.run program).Records program.name program.declares [program.name] := by
  have start : (Analysis.ofProgram program).Records program.name [] [program.name] :=
    ⟨ScopeTree.keeps_ofRoot program.name, rfl, rfl,
      fun scope member => .inl (List.mem_singleton.mp member), by simp⟩
  have first : Analysis.Meets program.name [.programStart program] [program.name] []
      [program.name] := .refers (by simp [Visit.refers])
  have last : Analysis.Meets program.name [.programEnd program] [program.name] []
      [program.name] := .refers (by simp [Visit.refers])
  have whole := (first.append (Block.meets program.name program.name [] program.block avoid)).append
    last
  simpa [Analysis.run, visits, declares] using whole [] _ start

/-- What an analysis reports about the declarations of a program that has been read, clashing or not.
In their order each of them is reported for the names that are taken, or for its scope if that is
there already. So the duplicates are the procedures, from the outside in, that have the name of the
program or of one met before, and every type is known. The scopes are those of the names met; each of
them has the parent and the symbols that were declared first. -/
theorem declaration_faults (reaches : (Session.ofString source).Reaches session)
    (parsed : Parser.parse session = .ok program after) :
    program.reported.filter Diagnosis.isDeclaration
        = Declaration.faultsFrom program.name [] program.declares
      ∧ program.reported.filter Diagnosis.isDuplicateScope
        = Procedure.duplicates [program.name] program.block.allProcedures
      ∧ (∀ name position, .unknownType name position ∉ program.reported)
      ∧ (∀ scope, ((Analysis.run program).scopes.table? scope).isSome
        ↔ scope = program.name ∨ ∃ procedure ∈ program.block.allProcedures, procedure.name = scope)
      ∧ (∀ scope parent, (Analysis.run program).scopes.parent? scope = some parent
        ↔ Leads program.name program.entries (.scope scope parent))
      ∧ ∀ scope table, (Analysis.run program).scopes.table? scope = some table →
        ∀ name meaning, table.find? name = some meaning
          ↔ BuiltIn name meaning ∨ Leads program.name program.entries (.symbol scope name meaning) := by
  have records := program.records_run (avoidTypes_of_reaches reaches parsed)
  have entries : program.declares.flatMap Declaration.entries = program.entries :=
    Block.flatMap_declares program.name program.block
  have procedures : program.declares.filterMap Declaration.procedure? = program.block.allProcedures :=
    Block.filterMap_declares program.name program.block
  have faults := records.faults
  rw [← program.reported_eq] at faults
  refine ⟨faults, ?_, ?_, ?_, ?_, ?_⟩
  · have duplicates : (Declaration.faultsFrom program.name [] program.declares).filter
          Diagnosis.isDuplicateScope
        = Procedure.duplicates [program.name] (program.declares.filterMap Declaration.procedure?) :=
      Declaration.filter_faultsFrom program.declares []
    rw [← procedures, ← duplicates, ← faults, List.filter_filter]
    refine List.filter_congr fun diagnosis _ => ?_
    cases diagnosis <;> rfl
  · intro name position found
    have among := List.mem_filter.mpr ⟨found, (rfl : Diagnosis.isDeclaration _ = true)⟩
    rw [faults] at among
    rcases Declaration.faultsFrom_cases among with ⟨_, _, same⟩ | ⟨_, _, same⟩ <;> cases same
  · intro scope
    rw [records.keeps.isSome_table?_iff, ← Declaration.mem_scopeNames_iff, Declaration.scopeNames,
      procedures, List.mem_cons, List.mem_map]
  · rw [← entries]
    exact records.keeps.parent?_eq_some_iff
  · rw [← entries]
    exact fun scope table found => records.keeps.find?_eq_some_iff found

/-- A text in which a procedure has the name of the program, and two have one of its variables. -/
def clashing : String :=
  "PROGRAM p; VAR x, y, x: REAL; PROCEDURE p(x: INTEGER); VAR q: REAL; BEGIN END; "
    ++ "PROCEDURE q(a: REAL); BEGIN END; PROCEDURE q(a: REAL); VAR a, b: REAL; BEGIN END; BEGIN END."

theorem declaration_faults_clashing : ∃ program after,
    Parser.parse (Session.ofString clashing) = .ok program after
      ∧ program.reported.filter Diagnosis.isDeclaration
        = [.alreadyDefined "p" ["x"], .duplicateScope "p" ⟨1, 41⟩, .alreadyDefined "p" ["x"],
          .alreadyDefined "p" ["q"], .duplicateScope "q" ⟨1, 123⟩, .alreadyDefined "q" ["a"],
          .alreadyDefined "q" ["a"]] := by
  have accepted : (match Parser.parse (Session.ofString clashing) with
      | .ok program _ => Declaration.faultsFrom program.name [] program.declares
      | .error _ _ => [])
        = [.alreadyDefined "p" ["x"], .duplicateScope "p" ⟨1, 41⟩, .alreadyDefined "p" ["x"],
          .alreadyDefined "p" ["q"], .duplicateScope "q" ⟨1, 123⟩, .alreadyDefined "q" ["a"],
          .alreadyDefined "q" ["a"]] := by decide +kernel
  cases parsed : Parser.parse (Session.ofString clashing) with
  | error error after =>
      rw [parsed] at accepted
      cases accepted
  | ok program after =>
      rw [parsed] at accepted
      exact ⟨program, after, rfl, (declaration_faults .refl parsed).1.trans accepted⟩

end Program
end MiniPascal
