import MiniPascal.Program.Visit
import MiniPascal.Report.Log
import MiniPascal.Scope.Tree

/-! # Analysis

Analysis walks over a program, collects the symbols of every scope and checks declarations and
references. It never stops at a fault: all faults of a program are found in one walk and come in
its order. A declared name is new in its scope; a variable belongs to the very scope that uses it;
a procedure is looked up from the inside out. -/
set_option autoImplicit false
namespace MiniPascal

/-- A fault of a program that can be seen without running it. -/
inductive Diagnosis where
  | duplicateScope (name : String) (position : Position)
  | alreadyDefined (scope : String) (names : List String)
  | unknownType (name : String) (position : Position)
  | undefinedVariable (name scope : String) (position : Position)
  | notAVariable (name : String) (position : Position)
  | undefinedProcedure (name : String) (position : Position)
  | argumentCount (name : String) (expected got : Nat) (position : Position)
deriving DecidableEq

def Diagnosis.message : Diagnosis → String
  | .duplicateScope name position => position.shown ++ " Duplicate scope name: '" ++ name ++ "'"
  | .alreadyDefined scope names =>
    "Already defined symbols in scope '" ++ scope ++ "': [" ++ ", ".intercalate names ++ "]"
  | .unknownType name position => position.shown ++ " Unknown type symbol: '" ++ name ++ "'"
  | .undefinedVariable name scope position =>
    position.shown ++ " Undefined symbol '" ++ name ++ "' in scope '" ++ scope ++ "'"
  | .notAVariable name position => position.shown ++ " '" ++ name ++ "' is not a variable"
  | .undefinedProcedure name position =>
    position.shown ++ " Undefined procedure: '" ++ name ++ "'"
  | .argumentCount name expected got position =>
    position.shown ++ " Procedure '" ++ name ++ "' expects " ++ expected.repr
      ++ " argument(s), got " ++ got.repr

/-- What a caller has to know about a declared procedure. -/
def Procedure.header (procedure : Procedure) : ProcedureHeader :=
  ⟨procedure.name, procedure.params.map fun param =>
    ⟨param.declared.name, param.typeSpec.dataType⟩⟩

namespace ScopeTree

def checkVariable (tree : ScopeTree) (scope : String) (used : Variable) : List Diagnosis :=
  match (tree.table? scope).bind (·.find? used.name) with
  | some (.variable _) => []
  | some _ => [.notAVariable used.name used.position]
  | none => [.undefinedVariable used.name scope used.position]

def checkCall (tree : ScopeTree) (scope name : String) (position : Position) (got : Nat) :
    List Diagnosis :=
  match tree.findProcedure? scope name with
  | some header =>
    if header.parameters.length = got then []
    else [.argumentCount name header.parameters.length got position]
  | none => [.undefinedProcedure name position]

def checkType (tree : ScopeTree) (scope : String) (typeSpec : TypeSpec) : List Diagnosis :=
  match (tree.table? scope).bind (·.find? typeSpec.dataType.name) with
  | some (.typeName _) => []
  | _ => [.unknownType typeSpec.dataType.name typeSpec.position]

end ScopeTree

/-- The state of a walk: the scopes so far, the names of the scopes that are open, the innermost
first, and the faults so far in order. -/
structure Analysis where
  scopes : ScopeTree
  opened : List String
  diagnoses : List Diagnosis

namespace Analysis

/-- The state before a program is walked over: its own scope is there and open. -/
def ofProgram (program : Program) : Analysis :=
  ⟨ScopeTree.ofRoot program.name, [program.name], []⟩

def scope (analysis : Analysis) : String :=
  analysis.opened.headD analysis.scopes.root

def report (analysis : Analysis) (diagnoses : List Diagnosis) : Analysis :=
  { analysis with diagnoses := analysis.diagnoses ++ diagnoses }

/-- Defines variables of one type in the innermost scope. Names that are taken are reported
together. -/
def declare (analysis : Analysis) (names : List String) (dataType : DataType) : Analysis :=
  match analysis.scopes.table? analysis.scope with
  | none => analysis
  | some table =>
    match table.defineAll (.variable dataType) names with
    | (table, taken) =>
      { analysis with scopes := analysis.scopes.setTable analysis.scope table }.report
        (if taken.isEmpty then [] else [.alreadyDefined analysis.scope taken])

/-- Defines a procedure in the innermost scope and opens a scope of its name. If there is such a
scope already, that is the fault to report, and the procedure goes on in the existing scope. -/
def openProcedure (analysis : Analysis) (procedure : Procedure) : Analysis :=
  let enclosing := analysis.scope
  let defined := analysis.scopes.define? enclosing procedure.name (.procedure procedure.header)
  let scopes := defined.getD analysis.scopes
  let added := scopes.addScope? procedure.name enclosing
  let fault :=
    if added.isNone then [Diagnosis.duplicateScope procedure.name procedure.position]
    else if defined.isNone then [.alreadyDefined enclosing [procedure.name]]
    else []
  { analysis with
    scopes := added.getD scopes
    opened := procedure.name :: analysis.opened }.report fault

def step (analysis : Analysis) : Visit → Analysis
  | .varDeclStart decl =>
    (analysis.report (analysis.scopes.checkType analysis.scope decl.typeSpec)).declare
      (decl.names.map Variable.name) decl.typeSpec.dataType
  | .param param =>
    (analysis.report (analysis.scopes.checkType analysis.scope param.typeSpec)).declare
      [param.declared.name] param.typeSpec.dataType
  | .procedureStart procedure => analysis.openProcedure procedure
  | .procedureEnd _ => { analysis with opened := analysis.opened.tail }
  | .call _ name position arguments =>
    analysis.report (analysis.scopes.checkCall analysis.scope name position arguments.length)
  | .used name => analysis.report (analysis.scopes.checkVariable analysis.scope name)
  | _ => analysis

def run (program : Program) : Analysis :=
  program.visits.foldl step (ofProgram program)

def logVisit : Visit → Option LogRecord
  | .procedureStart procedure => some ⟨.trace, "Entering scope '" ++ procedure.name ++ "'"⟩
  | .procedureEnd procedure => some ⟨.trace, "Leaving scope '" ++ procedure.name ++ "'"⟩
  | _ => none

def log (program : Program) : List LogRecord :=
  ⟨.debug, "Analysing program '" ++ program.name ++ "'"⟩ :: program.visits.filterMap logVisit

end Analysis

/-- The scopes of a program, or all of its faults. -/
def Program.analyse (program : Program) : Except (List Diagnosis) ScopeTree :=
  match Analysis.run program with
  | ⟨scopes, _, []⟩ => .ok scopes
  | ⟨_, _, diagnoses⟩ => .error diagnoses

end MiniPascal
