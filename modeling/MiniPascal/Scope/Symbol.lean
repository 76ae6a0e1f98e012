import MiniPascal.Number.Basic
import Std.Data.TreeMap.Basic

/-! # Symbols

A scope knows its symbols by name: variables, the built-in types and procedures. Symbols are
listed in the order of their names. -/
set_option autoImplicit false
namespace MiniPascal

/-- The name and type of a parameter, without its place in a program. -/
structure FormalParameter where
  name : String
  dataType : DataType
deriving DecidableEq

/-- What a caller has to know about a procedure. -/
structure ProcedureHeader where
  name : String
  parameters : List FormalParameter
deriving DecidableEq

def FormalParameter.shown (parameter : FormalParameter) : String :=
  parameter.name ++ ": " ++ parameter.dataType.name

inductive Symbol where
  | variable (dataType : DataType)
  | typeName (dataType : DataType)
  | procedure (header : ProcedureHeader)
deriving DecidableEq

def Symbol.shown : Symbol → String
  | .variable dataType => "VARIABLE: " ++ dataType.name
  | .typeName dataType => "TYPE_SPECIFICATION: " ++ dataType.name
  | .procedure header =>
    "PROCEDURE: " ++ header.name ++ "("
      ++ "; ".intercalate (header.parameters.map FormalParameter.shown) ++ ")"

structure SymbolTable where
  name : String
  symbols : Std.TreeMap String Symbol

namespace SymbolTable

/-- A table with the built-in types alone. -/
def ofName (name : String) : SymbolTable :=
  ⟨name, DataType.all.foldl
    (fun symbols dataType => symbols.insert dataType.name (.typeName dataType)) ∅⟩

def find? (table : SymbolTable) (name : String) : Option Symbol :=
  table.symbols[name]?

/-- The table with one more symbol, unless the name is taken. -/
def define? (table : SymbolTable) (name : String) (symbol : Symbol) : Option SymbolTable :=
  if table.symbols.contains name then none
  else some { table with symbols := table.symbols.insert name symbol }

/-- Defines names as one kind of symbol, one after the other, and yields the names that were
taken. -/
def defineAll (table : SymbolTable) (symbol : Symbol) : List String → SymbolTable × List String
  | [] => (table, [])
  | name :: rest =>
    match table.define? name symbol with
    | some table => table.defineAll symbol rest
    | none =>
      let (table, taken) := table.defineAll symbol rest
      (table, name :: taken)

/-- The header of the procedure of a name, if the name stands for one. -/
def procedure? (table : SymbolTable) (name : String) : Option ProcedureHeader :=
  match table.find? name with
  | some (.procedure header) => some header
  | _ => none

def toList (table : SymbolTable) : List (String × Symbol) :=
  table.symbols.toList

def shown (table : SymbolTable) : String :=
  "Scope(" ++ table.name ++ ")\n"
    ++ String.join (table.toList.map fun entry =>
      "  " ++ entry.1 ++ " -> " ++ entry.2.shown ++ "\n")

end SymbolTable
end MiniPascal
