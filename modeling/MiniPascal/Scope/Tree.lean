import MiniPascal.Scope.Symbol

/-! # Scope trees

All scopes of a program by name, each with the scope around it. A procedure's name is the name of
its scope, so names of scopes are unique in a whole program. -/
set_option autoImplicit false
namespace MiniPascal

/-- The tables of all scopes by name, and the name of the scope around each of them. -/
structure ScopeTree where
  root : String
  tables : Std.TreeMap String SymbolTable
  parents : Std.TreeMap String String

namespace ScopeTree

def ofRoot (root : String) : ScopeTree :=
  ⟨root, (∅ : Std.TreeMap String SymbolTable).insert root (SymbolTable.ofName root), ∅⟩

def table? (tree : ScopeTree) (scope : String) : Option SymbolTable :=
  tree.tables[scope]?

def parent? (tree : ScopeTree) (scope : String) : Option String :=
  tree.parents[scope]?

/-- The tree with one more scope, unless there is one of that name. -/
def addScope? (tree : ScopeTree) (name parent : String) : Option ScopeTree :=
  if tree.tables.contains name then none
  else some
    { tree with
      tables := tree.tables.insert name (SymbolTable.ofName name)
      parents := tree.parents.insert name parent }

def setTable (tree : ScopeTree) (scope : String) (table : SymbolTable) : ScopeTree :=
  { tree with tables := tree.tables.insert scope table }

/-- The tree with one more symbol in a scope, unless there is no such scope or the name is taken
in that scope. -/
def define? (tree : ScopeTree) (scope name : String) (symbol : Symbol) : Option ScopeTree :=
  match tree.table? scope with
  | none => none
  | some table =>
    match table.define? name symbol with
    | none => none
    | some table => some (tree.setTable scope table)

/-- A scope and the scopes around it, from the inside out, as far as the bound reaches. -/
def pathWithin (tree : ScopeTree) : Nat → String → List String
  | 0, _ => []
  | bound + 1, scope =>
    match tree.parent? scope with
    | none => [scope]
    | some parent => scope :: tree.pathWithin bound parent

/-- A scope and the scopes around it, from the inside out. No path without repetitions is longer
than the number of scopes and one name that is no scope. -/
def path (tree : ScopeTree) (scope : String) : List String :=
  tree.pathWithin (tree.tables.size + 1) scope

/-- The header of the procedure that a call in a scope means: the nearest one of that name in the
scope and the scopes around it. Other symbols of the name do not hide it. -/
def findProcedure? (tree : ScopeTree) (scope name : String) : Option ProcedureHeader :=
  (tree.path scope).findSome? fun scope =>
    match tree.table? scope with
    | some table => table.procedure? name
    | none => none

def toList (tree : ScopeTree) : List (String × SymbolTable) :=
  tree.tables.toList

def shown (tree : ScopeTree) : String :=
  String.join (tree.toList.map fun entry =>
    entry.2.shown ++
      match tree.parent? entry.2.name with
      | some parent => "  (enclosed by " ++ parent ++ ")\n"
      | none => "")

end ScopeTree
end MiniPascal
