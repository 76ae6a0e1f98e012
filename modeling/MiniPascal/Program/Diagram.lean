import MiniPascal.Program.Visit

/-! # Diagrams

A program's tree is drawn as a digraph in the DOT language. Nodes are named after their numbers and
come in the order of a walk; edges run from every node to its children in order. -/
set_option autoImplicit false
namespace MiniPascal

inductive DiagramItem where
  | node (id : NodeId) (label : String)
  | edge (parent child : NodeId)
deriving DecidableEq

namespace DiagramItem

def edges (parent : NodeId) (children : List NodeId) : List DiagramItem :=
  children.map (DiagramItem.edge parent)

/-- The node that is visited, and the edges to its children. -/
def ofNode (visit : Visit) (label : String) (children : List NodeId) : List DiagramItem :=
  .node visit.id label :: edges visit.id children

/-- What a visit adds to a diagram. The end of a bracketed node adds nothing. -/
def ofVisit (visit : Visit) : List DiagramItem :=
  match visit with
  | .programStart program => ofNode visit ("Program:" ++ program.name) [program.block.id]
  | .blockStart block =>
    ofNode visit "Block"
      (block.declarations.map VarDecl.id ++ block.procedures.map Procedure.id ++ [block.body.id])
  | .varDeclStart decl =>
    ofNode visit "VarDecl" (decl.names.map Variable.id ++ [decl.typeSpec.id])
  | .procedureStart procedure =>
    ofNode visit ("ProcDecl:" ++ procedure.name)
      (procedure.params.map Param.id ++ [procedure.block.id])
  | .param param => ofNode visit "Param" [param.declared.id, param.typeSpec.id]
  | .declared name | .used name => ofNode visit name.name []
  | .typeSpec typeSpec => ofNode visit typeSpec.dataType.name []
  | .compoundStart compound => ofNode visit "Compound" (compound.statements.map Statement.id)
  | .assignment _ target value => ofNode visit ":=" [target.id, value.id]
  | .call _ name _ arguments => ofNode visit ("ProcCall:" ++ name) (arguments.map Expr.id)
  | .empty _ => ofNode visit "NoOp" []
  | .binary _ operator left right _ => ofNode visit operator.symbol [left.id, right.id]
  | .unary _ operator operand _ => ofNode visit ("unary " ++ operator.symbol) [operand.id]
  | .number _ value => ofNode visit value.shown []
  | .programEnd _ | .blockEnd _ | .varDeclEnd _ | .procedureEnd _ | .compoundEnd _ => []

def nodeName (id : NodeId) : String :=
  "node" ++ id.repr

def nodeLine (id : NodeId) (label : String) : String :=
  "  " ++ nodeName id ++ " [label=\"" ++ label ++ "\"]\n"

def edgeLine (parent child : NodeId) : String :=
  "  " ++ nodeName parent ++ " -> " ++ nodeName child ++ "\n"

end DiagramItem

def Program.diagramItems (program : Program) : List DiagramItem :=
  program.visits.flatMap DiagramItem.ofVisit

def diagramHeader : String :=
  "digraph astgraph \x7b\n"
    ++ "  node [shape=circle, fontsize=12, fontname=\"Courier\", height=.1];\n"
    ++ "  ranksep=.3;\n"
    ++ "  edge [arrowsize=.5]\n"

/-- A place that takes bytes in order until it is full, and what it has taken. -/
structure Sink where
  limit : Option Nat
  written : ByteArray

namespace Sink

def unlimited : Sink :=
  ⟨none, ByteArray.empty⟩

def limited (limit : Nat) : Sink :=
  ⟨some limit, ByteArray.empty⟩

/-- Hands a text to a sink and says whether there was room for all of it. Without enough room the
bytes that fit are taken. -/
def write (sink : Sink) (text : String) : Bool × Sink :=
  let bytes := text.toUTF8
  match sink.limit with
  | none => (true, { sink with written := sink.written ++ bytes })
  | some limit =>
    let room := limit - sink.written.size
    (decide (bytes.size ≤ room), { sink with written := sink.written ++ bytes.extract 0 room })

/-- Hands texts to a sink in order, up to the first for which there is not enough room. -/
def writeAll (sink : Sink) : List String → Bool × Sink
  | [] => (true, sink)
  | text :: rest =>
    match sink.write text with
    | (true, sink) => sink.writeAll rest
    | (false, sink) => (false, sink)

end Sink

structure DiagramWriter where
  nodes : Array String
  edges : Array String

namespace DiagramWriter

def fresh : DiagramWriter :=
  ⟨#[], #[]⟩

def clear (writer : DiagramWriter) : DiagramWriter :=
  { writer with nodes := #[], edges := #[] }

def add (writer : DiagramWriter) : DiagramItem → DiagramWriter
  | .node id label => { writer with nodes := writer.nodes.push (DiagramItem.nodeLine id label) }
  | .edge parent child => { writer with edges := writer.edges.push (DiagramItem.edgeLine parent child) }

/-- Collects the lines of a program's diagram in place of those collected before. -/
def collect (writer : DiagramWriter) (program : Program) : DiagramWriter :=
  program.diagramItems.foldl add writer.clear

/-- The pieces of the collected diagram, in the order in which they are written. -/
def pieces (writer : DiagramWriter) : List String :=
  diagramHeader :: writer.nodes.toList ++ "\n" :: writer.edges.toList ++ ["\x7d\n"]

/-- Writes a program's diagram to a sink, and says whether all of it found room. -/
def write (writer : DiagramWriter) (program : Program) (sink : Sink) :
    (Bool × Sink) × DiagramWriter :=
  let collected := writer.collect program
  (sink.writeAll collected.pieces, collected)

end DiagramWriter

def Program.diagram (program : Program) : String :=
  String.join (DiagramWriter.fresh.collect program).pieces

end MiniPascal
