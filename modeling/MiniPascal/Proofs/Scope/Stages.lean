import MiniPascal.Proofs.Scope.Statements

/-! # A whole walk, stage by stage

The walk over a program is put together from stages: one for each kind of declaration, one for a
statement part, and from these, by induction on the tree, one for a block and one for the whole
program. -/
set_option autoImplicit false
namespace MiniPascal

namespace WellKept

variable {root : String} {ledger added : List Entry}

theorem extends_right (kept : WellKept root (ledger ++ added)) : Extends root ledger added := by
  have fresh := ((extends_append root ledger added []).mp kept.fresh).2
  simpa using fresh

/-- A scope that is about to be opened has no names yet. -/
theorem unused_of_heading (kept : WellKept root ledger) {scope : String} {procedure : Procedure}
    (extended : Extends root ledger (procedure.heading scope ++ added)) :
    ¬ IsScope root ledger procedure.name
      ∧ ∀ name meaning, Entry.symbol procedure.name name meaning ∉ ledger := by
  obtain ⟨free, _, unused⟩ := (extends_iff root _ ledger).mp extended
  have member : Entry.scope procedure.name scope ∈ procedure.heading scope ++ added := by
    simp [Procedure.heading]
  have closed := (ScopeTree.fresh_scope_iff root ledger procedure.name scope).mp
    ⟨free _ member, unused _ member⟩
  exact ⟨closed, fun name meaning declared => closed (kept.placed _ name meaning declared)⟩

end WellKept

theorem Param.symbol_mem_entries (scope place name : String) (meaning : Symbol)
    (params : List Param) :
    Entry.symbol place name meaning ∈ params.map (Param.entry scope)
      ↔ place = scope ∧ ∃ param ∈ params,
        param.declared.name = name ∧ .variable param.typeSpec.dataType = meaning := by
  simp only [List.mem_map, Param.entry, Entry.symbol.injEq]
  constructor
  · rintro ⟨param, among, rfl, same⟩
    exact ⟨rfl, param, among, same⟩
  · rintro ⟨rfl, param, among, same⟩
    exact ⟨param, among, rfl, same⟩

theorem VarDecl.symbol_mem_entries (scope place name : String) (meaning : Symbol)
    (declarations : List VarDecl) :
    Entry.symbol place name meaning ∈ declarations.flatMap (VarDecl.entries scope)
      ↔ place = scope ∧ ∃ decl ∈ declarations, ∃ declared ∈ decl.names,
        declared.name = name ∧ .variable decl.typeSpec.dataType = meaning := by
  simp only [List.mem_flatMap, VarDecl.entries, List.mem_map, Entry.symbol.injEq]
  constructor
  · rintro ⟨decl, among, declared, inside, rfl, same⟩
    exact ⟨rfl, decl, among, declared, inside, same⟩
  · rintro ⟨rfl, decl, among, declared, inside, same⟩
    exact ⟨decl, among, declared, inside, rfl, same⟩

theorem Scope.symbol_mem_symbols (scope : Scope) (name : String) (meaning : Symbol) :
    (name, meaning) ∈ scope.symbols
      ↔ (∃ param ∈ scope.params,
          param.declared.name = name ∧ .variable param.typeSpec.dataType = meaning)
        ∨ (∃ decl ∈ scope.declarations, ∃ declared ∈ decl.names,
          declared.name = name ∧ .variable decl.typeSpec.dataType = meaning)
        ∨ ∃ procedure ∈ scope.procedures,
          procedure.name = name ∧ .procedure procedure.header = meaning := by
  simp only [Scope.symbols, Scope.typedNames, List.map_append, List.map_map, List.map_flatMap,
    List.mem_append, List.mem_map, List.mem_flatMap, Function.comp_apply, Prod.mk.injEq, or_assoc]

namespace Offers

variable {ledger added : List Entry} {opened : List String} {visible : List Procedure}

/-- Entries that declare no procedure in an open scope change nothing. -/
theorem append_variables (offers : Offers ledger opened visible)
    (others : ∀ place ∈ opened, ∀ name header,
      Entry.symbol place name (.procedure header) ∉ added) :
    Offers (ledger ++ added) opened visible := by
  intro name header
  rw [← offers name header]
  refine exists_congr fun place => and_congr_right fun member => ?_
  rw [List.mem_append, or_iff_left (others place member name header)]

/-- Procedures that have been walked over can be seen from then on. -/
theorem append_procedures {root scope : String} {outer : List String} {procedures : List Procedure}
    (offers : Offers ledger (scope :: outer) visible) (lineage : Lineage root ledger (scope :: outer))
    (extended : Extends root ledger (Procedure.entriesOf scope procedures)) :
    Offers (ledger ++ Procedure.entriesOf scope procedures) (scope :: outer)
      (visible ++ procedures) := by
  intro name header
  have added : ∀ place ∈ scope :: outer,
      Entry.symbol place name (.procedure header) ∈ Procedure.entriesOf scope procedures
        ↔ place = scope ∧ ∃ procedure ∈ procedures,
          procedure.name = name ∧ .procedure procedure.header = Symbol.procedure header :=
    fun place member => Procedure.symbol_mem_entriesOf extended (lineage.isScope place member) _ _
  simp only [Symbol.procedure.injEq] at added
  have before := offers name header
  constructor
  · rintro ⟨place, member, declared⟩
    rcases List.mem_append.mp declared with declared | declared
    · obtain ⟨procedure, among, same⟩ := before.mp ⟨place, member, declared⟩
      exact ⟨procedure, List.mem_append_left _ among, same⟩
    · obtain ⟨_, procedure, among, same⟩ := (added place member).mp declared
      exact ⟨procedure, List.mem_append_right _ among, same⟩
  · rintro ⟨procedure, among, same⟩
    rcases List.mem_append.mp among with among | among
    · obtain ⟨place, member, declared⟩ := before.mpr ⟨procedure, among, same⟩
      exact ⟨place, member, List.mem_append_left _ declared⟩
    · exact ⟨scope, List.mem_cons_self, List.mem_append_right _
        ((added scope List.mem_cons_self).mpr ⟨rfl, procedure, among, same⟩)⟩

/-- Inside a procedure, the procedure itself can be seen. -/
theorem openProcedure {scope : String} {outer : List String} {procedure : Procedure}
    {params : List Param} (offers : Offers ledger (scope :: outer) visible)
    (unused : ∀ name meaning, Entry.symbol procedure.name name meaning ∉ ledger) :
    Offers (ledger ++ (procedure.heading scope ++ params.map (Param.entry procedure.name)))
      (procedure.name :: scope :: outer) (visible ++ [procedure]) := by
  intro name header
  have before := offers name header
  have added : ∀ place, Entry.symbol place name (.procedure header)
      ∈ procedure.heading scope ++ params.map (Param.entry procedure.name)
        ↔ place = scope ∧ procedure.name = name ∧ procedure.header = header := by
    intro place
    rw [List.mem_append, Param.symbol_mem_entries]
    simp [Procedure.heading, eq_comm]
  constructor
  · rintro ⟨place, member, declared⟩
    rcases List.mem_append.mp declared with declared | declared
    · have among : place ∈ scope :: outer := by
        rcases List.mem_cons.mp member with rfl | among
        · exact absurd declared (unused name _)
        · exact among
      obtain ⟨other, listed, same⟩ := before.mp ⟨place, among, declared⟩
      exact ⟨other, List.mem_append_left _ listed, same⟩
    · exact ⟨procedure, List.mem_append_right _ List.mem_cons_self, ((added place).mp declared).2⟩
  · rintro ⟨other, listed, same⟩
    rcases List.mem_append.mp listed with listed | listed
    · obtain ⟨place, among, declared⟩ := before.mpr ⟨other, listed, same⟩
      exact ⟨place, List.mem_cons_of_mem _ among, List.mem_append_left _ declared⟩
    · rw [List.mem_singleton.mp listed] at same
      exact ⟨scope, List.mem_cons_of_mem _ List.mem_cons_self, List.mem_append_right _
        ((added scope).mpr ⟨rfl, same⟩)⟩

end Offers

namespace Analysis

variable {root : String} {ledger : List Entry} {before : Analysis}

namespace Ready

variable {opened : List String} {added : List Entry}

/-- The state after more variables of the innermost scope have been defined. -/
theorem defined {scope : String} {outer : List String}
    (ready : Ready root ledger (scope :: outer) before) {after : Analysis}
    (clean : after.diagnoses = []) (holds : after.scopes.Holds root (ledger ++ added))
    (same : after.opened = before.opened) (extended : Extends root ledger added)
    (vars : ∀ entry ∈ added, ∃ name dataType, entry = .symbol scope name (.variable dataType)) :
    Ready root (ledger ++ added) (scope :: outer) after := by
  refine ⟨clean, holds, ready.kept.append_variables extended ?_, same.trans ready.open_eq,
    ready.lineage.append added, ?_⟩
  · intro entry member
    obtain ⟨name, dataType, same⟩ := vars entry member
    exact ⟨scope, name, dataType, same, ready.isScope⟩
  · have short := ready.short
    rw [List.countP_append]
    omega

end Ready

/-- Variables can be defined in the innermost scope exactly if their entries are fresh. -/
theorem Ready.declare {scope : String} {outer : List String}
    (ready : Ready root ledger (scope :: outer) before) (names : List String) (typeSpec : TypeSpec)
    {after : Analysis}
    (result : after = (before.report (before.scopes.checkType before.scope typeSpec)).declare names
      typeSpec.dataType) :
    (after.diagnoses = []
        ↔ Extends root ledger
          (names.map fun name => .symbol scope name (.variable typeSpec.dataType)))
      ∧ (after.diagnoses = [] → Ready root
        (ledger ++ names.map fun name => .symbol scope name (.variable typeSpec.dataType))
        (scope :: outer) after) := by
  obtain ⟨table, found, held⟩ := ready.holds.exists_table ready.isScope
  obtain ⟨passes, holds⟩ := SymbolTable.Holds.defineAll root scope (.variable typeSpec.dataType)
    names ledger table held
  have typed : before.scopes.checkType before.scope typeSpec = [] := by
    simp [ScopeTree.checkType, ready.scope_eq, found, held.find?_typeName]
  have unchanged : before.report [] = before := by simp [report]
  rw [typed, unchanged] at result
  simp only [Analysis.declare, ready.scope_eq, found] at result
  have clean : after.diagnoses = []
      ↔ (table.defineAll (.variable typeSpec.dataType) names).2 = [] := by
    rw [result]
    simp [report, ready.clean]
  refine ⟨clean.trans passes, fun done => ?_⟩
  have none := clean.mp done
  have vars : ∀ entry ∈ names.map fun name => Entry.symbol scope name (.variable typeSpec.dataType),
      ∃ name dataType, entry = .symbol scope name (.variable dataType) := by
    intro entry member
    obtain ⟨name, _, rfl⟩ := List.mem_map.mp member
    exact ⟨name, typeSpec.dataType, rfl⟩
  refine ready.defined done ?_ (by rw [result]; rfl) (passes.mp none) vars
  rw [result]
  refine ready.holds.setTable ready.isScope ?_ (holds none)
  intro entry member
  obtain ⟨name, dataType, same⟩ := vars entry member
  exact ⟨name, _, same⟩

/-- Opening a procedure declares its name and its scope, or there is a fault. -/
theorem Ready.openProcedure {scope : String} {outer : List String}
    (ready : Ready root ledger (scope :: outer) before) (procedure : Procedure) :
    ((before.openProcedure procedure).diagnoses = []
        ↔ Extends root ledger (procedure.heading scope))
      ∧ ((before.openProcedure procedure).diagnoses = [] →
        Ready root (ledger ++ procedure.heading scope) (procedure.name :: scope :: outer)
          (before.openProcedure procedure)) := by
  obtain ⟨definable, refused⟩ :=
    ready.holds.define? ready.isScope procedure.name (.procedure procedure.header)
  have heading : Extends root ledger (procedure.heading scope)
      ↔ Fresh root ledger (.symbol scope procedure.name (.procedure procedure.header))
        ∧ Fresh root (ledger ++ [.symbol scope procedure.name (.procedure procedure.header)])
          (.scope procedure.name scope) := by
    simp only [Procedure.heading, Extends, and_true]
  by_cases fresh : Fresh root ledger (.symbol scope procedure.name (.procedure procedure.header))
  · obtain ⟨defined, found, holds⟩ := definable fresh
    have placed : ∀ place other meaning, Entry.symbol place other meaning
        ∈ ledger ++ [.symbol scope procedure.name (.procedure procedure.header)] →
        IsScope root (ledger ++ [.symbol scope procedure.name (.procedure procedure.header)])
          place := by
      intro place other meaning member
      rcases List.mem_append.mp member with member | member
      · exact (ready.kept.placed place other meaning member).append _
      · injection List.mem_singleton.mp member with same
        exact (same ▸ ready.isScope).append _
    obtain ⟨addable, duplicate⟩ := holds.addScope? procedure.name scope placed
    by_cases new : Fresh root
        (ledger ++ [.symbol scope procedure.name (.procedure procedure.header)])
        (.scope procedure.name scope)
    · obtain ⟨added, extended, more⟩ := addable new
      have clean : (before.openProcedure procedure).diagnoses = [] := by
        simp [Analysis.openProcedure, ready.scope_eq, found, extended, report, ready.clean]
      refine ⟨iff_of_true clean (heading.mpr ⟨fresh, new⟩), fun _ => ?_⟩
      refine ⟨clean, ?_, ready.kept.append_heading (heading.mpr ⟨fresh, new⟩) ready.isScope, ?_, ?_,
        ?_⟩
      · have scopes : (before.openProcedure procedure).scopes = added := by
          simp [Analysis.openProcedure, ready.scope_eq, found, extended, report]
        rw [scopes]
        simpa [Procedure.heading] using more
      · simp [Analysis.openProcedure, report, ready.open_eq]
      · exact ⟨by simp [Procedure.heading], ready.lineage.append _⟩
      · have short := ready.short
        have one : (procedure.heading scope).countP Entry.opens = 1 := rfl
        rw [List.length_cons] at short
        rw [List.countP_append, one, List.length_cons, List.length_cons]
        omega
    · have failed : (before.openProcedure procedure).diagnoses ≠ [] := by
        simp [Analysis.openProcedure, ready.scope_eq, found, duplicate new, report]
      exact ⟨iff_of_false failed (fun both => new (heading.mp both).2),
        fun clean => absurd clean failed⟩
  · have failed : (before.openProcedure procedure).diagnoses ≠ [] := by
      cases added : before.scopes.addScope? procedure.name scope <;>
        simp [Analysis.openProcedure, ready.scope_eq, refused fresh, added, report]
    exact ⟨iff_of_false failed (fun both => fresh (heading.mp both).1),
      fun clean => absurd clean failed⟩

/-- A visit of a declaration. -/
theorem Stage.single {visit : Visit} {added : List Entry} {opened : List String}
    (declares : visit.isCall = false)
    (passes : (before.step visit).diagnoses = [] ↔ Extends root ledger added)
    (ready : (before.step visit).diagnoses = [] →
      Ready root (ledger ++ added) opened (before.step visit)) :
    Stage root ledger before [visit] added [] opened := by
  refine ⟨by simpa using passes, ready, by simp, ?_⟩
  intro _ earlier other later split call
  have member : other ∈ [visit] := by
    rw [split]
    simp
  rw [List.mem_singleton.mp member, declares] at call
  cases call

/-- Visits that the analysis has nothing to do with. -/
theorem Stage.inert {opened : List String} (ready : Ready root ledger opened before) :
    ∀ visits : List Visit, (∀ visit ∈ visits, visit.isCall = false
        ∧ ∀ analysis : Analysis, analysis.step visit = analysis) →
      Stage root ledger before visits [] [] opened := by
  intro visits others
  have same : visits.foldl step before = before := by
    induction visits with
    | nil => rfl
    | cons visit rest ih =>
        rw [List.foldl_cons, (others visit List.mem_cons_self).2,
          ih fun other member => others other (List.mem_cons_of_mem _ member)]
  refine ⟨?_, ?_, by simp, ?_⟩
  · rw [same]
    simp [Extends, ready.clean]
  · intro _
    rw [same, List.append_nil]
    exact ready
  · intro _ earlier visit later split call
    have member : visit ∈ visits := by
      rw [split]
      simp
    rw [(others visit member).1] at call
    cases call

variable {scope : String} {outer : List String}

theorem Stage.param (ready : Ready root ledger (scope :: outer) before) (param : Param) :
    Stage root ledger before param.visits [param.entry scope] [] (scope :: outer) := by
  obtain ⟨passes, defined⟩ := ready.declare [param.declared.name] param.typeSpec rfl
  have first : Stage root ledger before [.param param] [param.entry scope] [] (scope :: outer) :=
    .single rfl passes defined
  have whole := first.append fun state =>
    Stage.inert state [.declared param.declared, .typeSpec param.typeSpec]
      (by simp [Visit.isCall, step])
  simpa [Param.visits] using whole

theorem Stage.params : ∀ (params : List Param) {ledger : List Entry} {before : Analysis},
    Ready root ledger (scope :: outer) before →
      Stage root ledger before (params.flatMap Param.visits) (params.map (Param.entry scope)) []
        (scope :: outer) := by
  intro params
  induction params with
  | nil => intro ledger before ready; exact Stage.inert ready [] (by simp)
  | cons param rest ih =>
      intro ledger before ready
      exact (Stage.param ready param).append fun state => ih state

theorem Stage.varDecl (ready : Ready root ledger (scope :: outer) before) (decl : VarDecl) :
    Stage root ledger before decl.visits (decl.entries scope) [] (scope :: outer) := by
  obtain ⟨passes, defined⟩ := ready.declare (decl.names.map Variable.name) decl.typeSpec rfl
  rw [List.map_map] at passes defined
  have first : Stage root ledger before [.varDeclStart decl] (decl.entries scope) []
      (scope :: outer) :=
    .single rfl passes defined
  have whole := first.append fun state =>
    Stage.inert state
      (decl.names.map Visit.declared ++ [.typeSpec decl.typeSpec, .varDeclEnd decl]) (by
        intro visit member
        rcases List.mem_append.mp member with member | member
        · obtain ⟨declared, _, rfl⟩ := List.mem_map.mp member
          exact ⟨rfl, fun _ => rfl⟩
        · simp only [List.mem_cons, List.not_mem_nil, or_false] at member
          rcases member with rfl | rfl <;> exact ⟨rfl, fun _ => rfl⟩)
  simpa [VarDecl.visits] using whole

theorem Stage.varDecls : ∀ (declarations : List VarDecl) {ledger : List Entry} {before : Analysis},
    Ready root ledger (scope :: outer) before →
      Stage root ledger before (declarations.flatMap VarDecl.visits)
        (declarations.flatMap (VarDecl.entries scope)) [] (scope :: outer) := by
  intro declarations
  induction declarations with
  | nil => intro ledger before ready; exact Stage.inert ready [] (by simp)
  | cons decl rest ih =>
      intro ledger before ready
      exact (Stage.varDecl ready decl).append fun state => ih state

theorem Stage.openProcedure (ready : Ready root ledger (scope :: outer) before)
    (procedure : Procedure) :
    Stage root ledger before [.procedureStart procedure] (procedure.heading scope) []
      (procedure.name :: scope :: outer) := by
  obtain ⟨passes, opens⟩ := ready.openProcedure procedure
  exact .single rfl passes opens

theorem Stage.closeProcedure {parent : String}
    (ready : Ready root ledger (scope :: parent :: outer) before) (procedure : Procedure) :
    Stage root ledger before [.procedureEnd procedure] [] [] (parent :: outer) := by
  refine .single rfl (by simp [step, ready.clean, Extends]) fun _ => ?_
  have short := ready.short
  rw [List.length_cons] at short
  rw [List.append_nil]
  exact ⟨ready.clean, ready.holds, ready.kept, congrArg List.tail ready.open_eq, ready.lineage.2,
    Nat.le_of_succ_le short⟩

/-- The statements of a scope, walked over with everything that the scope can see declared. -/
theorem Stage.statements (scope : Scope)
    (ready : Ready root ledger (scope.name :: outer) before)
    (owns : Owns ledger scope.name scope.symbols)
    (offers : Offers ledger (scope.name :: outer) scope.visible) :
    Stage root ledger before (Statement.visitsOf scope.statements) [] [scope]
      (scope.name :: outer) := by
  have walked := foldl_step_of_refers (Statement.visitsOf scope.statements) before
    (Statement.refers_of_mem_visitsOf scope.statements)
  have inBody : InBody root ledger scope before :=
    ⟨ledger, outer, ready, owns, offers, List.prefix_rfl⟩
  have passes : ((Statement.visitsOf scope.statements).foldl step before).diagnoses = []
      ↔ scope.DeclaresMentions ∧ scope.ResolvesCalls := by
    rw [walked, ← ready.sound_iff owns offers, ← Statement.faults_visitsOf_eq_nil, report,
      ready.clean, List.nil_append, ready.scope_eq]
  refine ⟨by simpa [Extends] using passes, ?_, ?_, ?_⟩
  · intro clean
    rw [List.append_nil]
    refine ⟨clean, ?_, ready.kept, ?_, ready.lineage, ready.short⟩
    · rw [walked]
      exact ready.holds
    · rw [walked]
      exact ready.open_eq
  · intro _ other member
    rw [List.mem_singleton.mp member, List.append_nil]
    exact ⟨[], [], by simp, inBody⟩
  · intro _ earlier visit later split _
    rw [List.append_nil]
    exact ⟨scope, List.mem_singleton_self scope, [], earlier, later, rfl, split, inBody⟩

theorem Stage.of_mem_iff {visits : List Visit} {added : List Entry} {scopes : List Scope}
    (others : List Scope) {opened : List String} (stage : Stage root ledger before visits added scopes opened)
    (same : ∀ scope, scope ∈ scopes ↔ scope ∈ others) :
    Stage root ledger before visits added others opened := by
  obtain ⟨passes, ready, bodies, calls⟩ := stage
  simp only [same] at passes bodies calls
  exact ⟨passes, ready, bodies, calls⟩

/-- What is declared in a scope once its own declarations have been walked over. -/
theorem owns_of_entries {scope : Scope} (known : IsScope root ledger scope.name)
    (owns : ∀ name meaning, Entry.symbol scope.name name meaning ∈ ledger
      ↔ ∃ param ∈ scope.params,
        param.declared.name = name ∧ .variable param.typeSpec.dataType = meaning)
    (extended : Extends root
      (ledger ++ scope.declarations.flatMap (VarDecl.entries scope.name))
      (Procedure.entriesOf scope.name scope.procedures)) :
    Owns (ledger ++ scope.declarations.flatMap (VarDecl.entries scope.name)
      ++ Procedure.entriesOf scope.name scope.procedures) scope.name scope.symbols := by
  intro name meaning
  rw [List.mem_append, List.mem_append, owns, VarDecl.symbol_mem_entries,
    Procedure.symbol_mem_entriesOf extended (known.append _), scope.symbol_mem_symbols, or_assoc]
  simp only [true_and]

mutual

/-- The stage of a block, with the parameters of its scope declared before it. -/
theorem Block.stage (name : String) (parent : Option String) (params : List Param)
    (inherited : List Procedure) (outer : List String) :
    ∀ (block : Block) {ledger : List Entry} {before : Analysis},
      Ready root ledger (name :: outer) before →
      (∀ other meaning, Entry.symbol name other meaning ∈ ledger
        ↔ ∃ param ∈ params,
          param.declared.name = other ∧ .variable param.typeSpec.dataType = meaning) →
      Offers ledger (name :: outer) inherited →
      Stage root ledger before block.visits (block.entries name)
        (block.scopes name parent params inherited) (name :: outer)
  | ⟨id, declarations, procedures, ⟨bodyId, statements⟩⟩, ledger, before, ready, owns, offers => by
    have opening := Stage.inert ready
      [.blockStart ⟨id, declarations, procedures, ⟨bodyId, statements⟩⟩]
      (by simp [Visit.isCall, step])
    have declared := opening.append fun state => Stage.varDecls declarations state
    have others : ∀ place ∈ name :: outer, ∀ other header, Entry.symbol place other
        (.procedure header) ∉ declarations.flatMap (VarDecl.entries name) := by
      intro place _ other header member
      obtain ⟨_, _, _, _, _, _, impossible⟩ :=
        (VarDecl.symbol_mem_entries name place other _ declarations).mp member
      cases impossible
    have offered := offers.append_variables others
    have nested := declared.append fun state =>
      Procedure.stageOf name inherited outer procedures state offered
    have begun := nested.append fun state =>
      Stage.inert state [.compoundStart ⟨bodyId, statements⟩] (by simp [Visit.isCall, step])
    have ledgers : ledger ++ ([] ++ declarations.flatMap (VarDecl.entries name)
          ++ Procedure.entriesOf name procedures ++ [])
        = ledger ++ declarations.flatMap (VarDecl.entries name)
          ++ Procedure.entriesOf name procedures := by
      simp
    have executed := begun.append fun state => by
      rw [ledgers] at state ⊢
      have extended := state.kept.extends_right
      exact Stage.statements
        ⟨name, parent, params, declarations, procedures, statements, inherited⟩ state
        (owns_of_entries ready.isScope owns extended)
        (offered.append_procedures (ready.lineage.append _) extended)
    have whole := executed.append fun state => Stage.inert state
      [.compoundEnd ⟨bodyId, statements⟩,
        .blockEnd ⟨id, declarations, procedures, ⟨bodyId, statements⟩⟩]
      (by simp [Visit.isCall, step])
    have same := whole.of_mem_iff
      (Block.scopes name parent params inherited
        ⟨id, declarations, procedures, ⟨bodyId, statements⟩⟩)
      (by simp [Block.scopes, or_comm])
    simpa [Block.visits, Block.entries, Compound.visits] using same

theorem Procedure.stageOf (scope : String) (visible : List Procedure) (outer : List String) :
    ∀ (procedures : List Procedure) {ledger : List Entry} {before : Analysis},
      Ready root ledger (scope :: outer) before →
      Offers ledger (scope :: outer) visible →
      Stage root ledger before (Procedure.visitsOf procedures)
        (Procedure.entriesOf scope procedures) (Procedure.scopesOf scope visible procedures)
        (scope :: outer)
  | [], _, _, ready, _ => Stage.inert ready [] (by simp)
  | ⟨id, name, position, params, block⟩ :: rest, ledger, before, ready, offers => by
    have headed := Stage.openProcedure ready ⟨id, name, position, params, block⟩
    have parameters := headed.append fun state => Stage.params params state
    have entered := parameters.append fun state => by
      obtain ⟨closed, unused⟩ := ready.kept.unused_of_heading state.kept.extends_right
      refine Block.stage name (some scope) params (visible ++ [⟨id, name, position, params, block⟩])
        (scope :: outer) block state ?_ (offers.openProcedure unused)
      intro other meaning
      have elsewhere : scope ≠ name := by
        rintro rfl
        exact closed ready.isScope
      rw [List.mem_append, List.mem_append, or_iff_right (unused other meaning),
        Param.symbol_mem_entries]
      simp [Procedure.heading, elsewhere.symm]
    have left := entered.append fun state =>
      Stage.closeProcedure state ⟨id, name, position, params, block⟩
    have entries : Procedure.entriesOf scope [⟨id, name, position, params, block⟩]
        = Procedure.heading scope ⟨id, name, position, params, block⟩
          ++ params.map (Param.entry name) ++ block.entries name ++ [] := by
      simp [Procedure.entriesOf]
    have whole := left.append fun state => by
      have extended := state.kept.extends_right
      rw [← entries] at state extended ⊢
      exact Procedure.stageOf scope (visible ++ [⟨id, name, position, params, block⟩]) outer rest
        state (offers.append_procedures ready.lineage extended)
    simpa [Procedure.visitsOf, Procedure.entriesOf, Procedure.scopesOf] using whole

end

end Analysis
end MiniPascal
