import MiniPascal.Program.Diagram
import MiniPascal.Proofs.Program.Arranging
import MiniPascal.Proofs.Program.Origins
import MiniPascal.Proofs.Program.RenderedExpressions
import MiniPascal.Proofs.Source.Rows

/-! # Diagrams as trees

The walk over a program comes by every node once and draws it with the edges to its children. The
diagram of a program that was read is therefore its tree, node by node. Its labels are made of names
and constants, which have no character that would end a label or a line. -/
set_option autoImplicit false
namespace MiniPascal

/-! ## What a walk draws -/

/-- The node that a visit draws, with its children, and the label. -/
def Visit.drawn? : Visit → Option (Node × String)
  | .programStart node => some (⟨node.id, [node.block.id]⟩, "Program:" ++ node.name)
  | .blockStart node =>
    some (⟨node.id, node.declarations.map VarDecl.id ++ node.procedures.map Procedure.id
      ++ [node.body.id]⟩, "Block")
  | .varDeclStart node =>
    some (⟨node.id, node.names.map Variable.id ++ [node.typeSpec.id]⟩, "VarDecl")
  | .procedureStart node =>
    some (⟨node.id, node.params.map Param.id ++ [node.block.id]⟩, "ProcDecl:" ++ node.name)
  | .param node => some (⟨node.id, [node.declared.id, node.typeSpec.id]⟩, "Param")
  | .declared node | .used node => some (.leaf node.id, node.name)
  | .typeSpec node => some (.leaf node.id, node.dataType.name)
  | .compoundStart node => some (⟨node.id, node.statements.map Statement.id⟩, "Compound")
  | .assignment id target value => some (⟨id, [target.id, value.id]⟩, ":=")
  | .call id name _ arguments => some (⟨id, arguments.map Expr.id⟩, "ProcCall:" ++ name)
  | .empty id => some (.leaf id, "NoOp")
  | .binary id operator left right _ => some (⟨id, [left.id, right.id]⟩, operator.symbol)
  | .unary id operator operand _ => some (⟨id, [operand.id]⟩, "unary " ++ operator.symbol)
  | .number id value => some (.leaf id, value.shown)
  | .programEnd _ | .blockEnd _ | .varDeclEnd _ | .procedureEnd _ | .compoundEnd _ => none

def Visit.node? (visit : Visit) : Option Node :=
  visit.drawn?.map Prod.fst

def Node.edges (node : Node) : List (NodeId × NodeId) :=
  node.children.map fun child => (node.id, child)

theorem DiagramItem.ofVisit_eq (visit : Visit) : ofVisit visit
    = visit.drawn?.toList.flatMap fun drawn =>
      .node drawn.1.id drawn.2 :: drawn.1.edges.map fun edge => .edge edge.1 edge.2 := by
  cases visit <;>
    simp [ofVisit, ofNode, Visit.id, Visit.drawn?, Node.edges, Node.leaf, edges, Function.comp_def]

/-- All that is drawn for a program, in order. -/
def Program.drawn (program : Program) : List (Node × String) :=
  program.visits.filterMap Visit.drawn?

theorem Program.diagramItems_eq (program : Program) : program.diagramItems
    = program.drawn.flatMap fun drawn =>
      .node drawn.1.id drawn.2 :: drawn.1.edges.map fun edge => .edge edge.1 edge.2 := by
  rw [diagramItems, drawn]
  induction program.visits with
  | nil => rfl
  | cons visit rest ih =>
      rw [List.flatMap_cons, DiagramItem.ofVisit_eq, ih]
      cases found : visit.drawn? with
      | none => simp [found]
      | some drawn => simp [found]

/-! ## Every node is drawn once -/

theorem Expr.nodes_eq (expr : Expr) : expr.visits.filterMap Visit.node? = expr.nodes := by
  induction expr with
  | number id value => rfl
  | read source => rfl
  | unary id operator operand position ih =>
      simp [visits, nodes, ih, Visit.node?, Visit.drawn?]
  | binary id operator left right position first second =>
      simp [visits, nodes, first, second, Visit.node?, Visit.drawn?]

section

variable (node : Node)

/-- Nodes that are drawn when their visit begins are listed when it ends. -/
theorem Visit.count_bracketed {first last : Visit} {own : Node} {visits : List Visit}
    {nodes : List Node} (opens : first.node? = some own) (closes : last.node? = none)
    (inner : (visits.filterMap Visit.node?).count node = nodes.count node) :
    ((first :: visits ++ [last]).filterMap Visit.node?).count node
      = (nodes ++ [own]).count node := by
  rw [List.filterMap_append, List.filterMap_cons_some opens, List.filterMap_cons_none closes,
    List.filterMap_nil, List.append_nil, List.count_cons, inner, List.count_append,
    List.count_singleton]

theorem Visit.count_flatMap {α : Type} {visits : α → List Visit} {nodes : α → List Node}
    (same : ∀ value, ((visits value).filterMap Visit.node?).count node = (nodes value).count node)
    (values : List α) : ((values.flatMap visits).filterMap Visit.node?).count node
      = (values.flatMap nodes).count node := by
  induction values with
  | nil => rfl
  | cons value rest ih => simp [ih, same]

theorem Expr.count_node (expr : Expr) :
    (expr.visits.filterMap Visit.node?).count node = expr.nodes.count node := by
  rw [nodes_eq]

mutual

theorem Statement.count_node : ∀ statement : Statement,
    (statement.visits.filterMap Visit.node?).count node = statement.nodes.count node
  | .compound id statements =>
    Visit.count_bracketed node rfl rfl (Statement.count_node_visitsOf statements)
  | .assignment id target value => by
    simp [Statement.visits, Statement.nodes, Expr.nodes_eq, Visit.node?, Visit.drawn?]
  | .call id name position arguments => by
    have inner := Visit.count_flatMap node (Expr.count_node node) arguments
    simp only [Statement.visits, Statement.nodes, List.filterMap_append, List.count_append, inner]
    rfl
  | .empty id => rfl

theorem Statement.count_node_visitsOf : ∀ statements : List Statement,
    ((Statement.visitsOf statements).filterMap Visit.node?).count node
      = (Statement.nodesOf statements).count node
  | [] => rfl
  | statement :: rest => by
    simp only [Statement.visitsOf, Statement.nodesOf, List.filterMap_append, List.count_append,
      Statement.count_node statement, Statement.count_node_visitsOf rest]

end

theorem Compound.count_node (compound : Compound) :
    (compound.visits.filterMap Visit.node?).count node = compound.nodes.count node :=
  Visit.count_bracketed node rfl rfl (Statement.count_node_visitsOf node compound.statements)

theorem VarDecl.count_node (decl : VarDecl) :
    (decl.visits.filterMap Visit.node?).count node = decl.nodes.count node := by
  have inner : ((decl.names.map Visit.declared ++ [Visit.typeSpec decl.typeSpec]).filterMap
      Visit.node?).count node
        = ((decl.names.map Variable.id ++ [decl.typeSpec.id]).map Node.leaf).count node := by
    simp [List.filterMap_map, Function.comp_def, Visit.node?, Visit.drawn?]
  have walk : decl.visits = .varDeclStart decl
      :: (decl.names.map Visit.declared ++ [.typeSpec decl.typeSpec]) ++ [.varDeclEnd decl] := by
    simp [visits]
  rw [walk]
  exact Visit.count_bracketed node rfl rfl inner

theorem Param.count_node (param : Param) :
    (param.visits.filterMap Visit.node?).count node = param.nodes.count node := by
  simp [visits, nodes, Visit.node?, Visit.drawn?, List.count_cons]
  omega

mutual

theorem Block.count_node : ∀ block : Block,
    (block.visits.filterMap Visit.node?).count node = block.nodes.count node
  | ⟨id, declarations, procedures, body⟩ => by
    have inner : ((declarations.flatMap VarDecl.visits ++ Procedure.visitsOf procedures
        ++ body.visits).filterMap Visit.node?).count node
          = (declarations.flatMap VarDecl.nodes ++ Procedure.nodesOf procedures
            ++ body.nodes).count node := by
      simp only [List.filterMap_append, List.count_append, Compound.count_node,
        Visit.count_flatMap node (VarDecl.count_node node),
        Procedure.count_node_visitsOf procedures]
    exact Visit.count_bracketed node rfl rfl inner

theorem Procedure.count_node_visitsOf : ∀ procedures : List Procedure,
    ((Procedure.visitsOf procedures).filterMap Visit.node?).count node
      = (Procedure.nodesOf procedures).count node
  | [] => rfl
  | ⟨id, name, position, params, block⟩ :: rest => by
    have inner : ((params.flatMap Param.visits ++ block.visits).filterMap Visit.node?).count node
        = (params.flatMap Param.nodes ++ block.nodes).count node := by
      simp only [List.filterMap_append, List.count_append, Block.count_node block,
        Visit.count_flatMap node (Param.count_node node)]
    let own : Procedure := ⟨id, name, position, params, block⟩
    have whole : ((Visit.procedureStart own :: (params.flatMap Param.visits ++ block.visits)
        ++ [Visit.procedureEnd own]).filterMap Visit.node?).count node
          = (params.flatMap Param.nodes ++ block.nodes
            ++ [Node.mk id (params.map Param.id ++ [block.id])]).count node :=
      Visit.count_bracketed node rfl rfl inner
    rw [Procedure.visitsOf, Procedure.nodesOf, List.filterMap_append, List.count_append,
      List.count_append, Procedure.count_node_visitsOf rest]
    exact congrArg (· + _) whole

end

theorem Program.count_node (program : Program) :
    (program.visits.filterMap Visit.node?).count node = program.nodes.count node :=
  Visit.count_bracketed node rfl rfl (Block.count_node node program.block)

end

theorem Program.drawn_perm (program : Program) :
    (program.drawn.map Prod.fst).Perm program.nodes := by
  rw [drawn, List.map_filterMap]
  exact List.perm_iff_count.mpr fun node => program.count_node node

/-! ## Labels -/

/-- A text of visible characters and blanks without a quotation mark and a backslash. There is no
line break in it. -/
def Quotable (text : String) : Prop :=
  ∀ c ∈ text.toList, 32 ≤ c.toNat ∧ c.toNat < 127 ∧ c ≠ '"' ∧ c ≠ '\\'

instance (text : String) : Decidable (Quotable text) :=
  List.decidableBAll _ text.toList

namespace Quotable

variable {text : String}

theorem append {first second : String} (one : Quotable first) (two : Quotable second) :
    Quotable (first ++ second) := by
  rw [Quotable, String.toList_append]
  exact List.forall_mem_append.mpr ⟨one, two⟩

theorem of_wordChars (all : ∀ c ∈ text.toList, Alphabet.isWordChar c = true) : Quotable text := by
  intro c member
  obtain ⟨least, greatest⟩ := Alphabet.toNat_of_isWordChar (all c member)
  refine ⟨by omega, by omega, ?_, ?_⟩
  · rintro rfl
    exact absurd (all _ member) (by decide)
  · rintro rfl
    exact absurd (all _ member) (by decide)

theorem of_digits (digits : Digits text.toList) : Quotable text :=
  of_wordChars fun c member => Alphabet.isWordChar_of_isDigit (digits.2 c member)

theorem of_constant (constant : Constant text) : Quotable text := by
  cases constant with
  | @real whole fraction same digits others =>
      have parts : text = String.ofList whole ++ "." ++ String.ofList fraction := by
        apply String.toList_injective
        simp [same]
      rw [parts]
      refine (append (of_digits ?_) (by decide)).append (of_digits ?_)
      · rwa [String.toList_ofList]
      · rwa [String.toList_ofList]
  | integer digits => exact of_digits digits
  | name name => exact of_wordChars name.wordChars

theorem newline_not_mem (quotable : Quotable text) : '\n' ∉ text.toList := by
  intro member
  exact absurd (quotable _ member).1 (by decide)

end Quotable

namespace Session.Invariant

variable {source : String}

theorem isName_of_names {name : String} {position : Position}
    (names : (ofSource source).Names name position) : IsName name := by
  rcases Lexer.lexemeOf_of_mem names with ⟨before, text, rest, _, lexeme, same, _⟩ | last
  · rw [show name = String.ofList text from same]
    exact lexeme.isName rfl
  · cases last

theorem isLiteral_of_literal {value : Number} (literal : (ofSource source).Literal value) :
    value.IsLiteral := by
  obtain ⟨_, _, ⟨_, found⟩ | ⟨_, rfl⟩⟩ := literal
  · obtain ⟨small, rfl⟩ := Parser.ofIntegerLiteral?_eq_some found
    exact .integer small
  · exact .real

/-- What is made of tokens of a text can be quoted. -/
theorem quotable_of_makes {visit : Visit} (makes : (ofSource source).Makes visit)
    {node : Node} {label : String} (drawn : visit.drawn? = some (node, label)) :
    Quotable label := by
  have name : ∀ {name position}, (ofSource source).Names name position → Quotable name :=
    fun names => .of_wordChars (isName_of_names names).wordChars
  cases visit with
  | programStart program =>
      cases drawn
      obtain ⟨_, names⟩ := makes
      exact .append (by decide) (name names)
  | procedureStart procedure =>
      cases drawn
      exact .append (by decide) (name makes.1)
  | call id name' position arguments =>
      cases drawn
      exact .append (by decide) (name makes)
  | declared name' =>
      cases drawn
      exact name makes
  | used name' =>
      cases drawn
      exact name makes
  | number id value =>
      cases drawn
      exact .of_constant (isLiteral_of_literal makes).constant
  | typeSpec typeSpec =>
      cases drawn
      cases typeSpec.dataType <;> decide
  | binary id operator left right position =>
      cases drawn
      cases operator <;> decide
  | unary id operator operand position =>
      cases drawn
      cases operator <;> decide
  | blockStart | varDeclStart | param | compoundStart | assignment | empty =>
      cases drawn
      decide
  | programEnd | blockEnd | varDeclEnd | procedureEnd | compoundEnd => cases drawn

end Session.Invariant

/-! ## Edges -/

/-- All edges of a program's tree, in the order in which they are drawn. -/
def Program.edges (program : Program) : List (NodeId × NodeId) :=
  (program.drawn.map Prod.fst).flatMap Node.edges

theorem Node.map_fst_edges {node : Node} {edge : NodeId × NodeId} (own : edge ∈ node.edges) :
    edge.1 = node.id ∧ edge.2 ∈ node.children := by
  obtain ⟨child, among, rfl⟩ := List.mem_map.mp own
  exact ⟨rfl, among⟩

/-- The edges out of a node are those to its children if no other node has its number. -/
theorem Node.filter_edges {nodes : List Node} (distinct : (nodes.map Node.id).Nodup) {node : Node}
    (among : node ∈ nodes) :
    ((nodes.flatMap Node.edges).filter fun edge => edge.1 = node.id).map Prod.snd
      = node.children := by
  have others : ∀ nodes : List Node, node.id ∉ nodes.map Node.id →
      (nodes.flatMap Node.edges).filter (fun edge => edge.1 = node.id) = [] := by
    intro nodes absent
    apply List.filter_eq_nil_iff.mpr
    intro edge member
    obtain ⟨other, inside, own⟩ := List.mem_flatMap.mp member
    simp only [decide_eq_true_eq]
    intro same
    exact absent (List.mem_map.mpr ⟨other, inside, (Node.map_fst_edges own).1.symm.trans same⟩)
  induction nodes with
  | nil => cases among
  | cons first rest ih =>
      rw [List.map_cons, List.nodup_cons] at distinct
      rw [List.flatMap_cons, List.filter_append, List.map_append]
      rcases List.mem_cons.mp among with rfl | inside
      · have own : (node.edges.filter fun edge => edge.1 = node.id) = node.edges :=
          List.filter_eq_self.mpr fun edge member => by simp [(Node.map_fst_edges member).1]
        rw [own, others rest distinct.1]
        simp [Node.edges]
      · have foreign : first.id ≠ node.id := fun same =>
          distinct.1 (same ▸ List.mem_map_of_mem inside)
        have none : (first.edges.filter fun edge => edge.1 = node.id) = [] :=
          List.filter_eq_nil_iff.mpr fun edge member => by
            simp [(Node.map_fst_edges member).1, foreign]
        rw [none, ih distinct.2 inside]
        rfl

/-! ## The text of a diagram -/

namespace DiagramItem

/-- The line of a node without its end. -/
def nodeRow (drawn : NodeId × String) : List Char :=
  ("  " ++ nodeName drawn.1 ++ " [label=\"" ++ drawn.2 ++ "\"]").toList

def edgeRow (edge : NodeId × NodeId) : List Char :=
  ("  " ++ nodeName edge.1 ++ " -> " ++ nodeName edge.2).toList

theorem quotable_nodeName (id : NodeId) : Quotable (nodeName id) := by
  refine .append (by decide) (.of_digits ?_)
  rw [Nat.toList_repr]
  exact Digits.toDigits id

end DiagramItem

def diagramHeaderRows : List (List Char) :=
  ["digraph astgraph \x7b",
    "  node [shape=circle, fontsize=12, fontname=\"Courier\", height=.1];",
    "  ranksep=.3;", "  edge [arrowsize=.5]"].map String.toList

theorem rows_diagramHeader : Rows diagramHeader diagramHeaderRows :=
  ⟨by decide +kernel, by decide⟩

namespace DiagramWriter

theorem foldl_add_edges (edges : List (NodeId × NodeId)) (writer : DiagramWriter) :
    (edges.map fun edge => .edge edge.1 edge.2).foldl add writer
      = { writer with
          edges := writer.edges
            ++ (edges.map fun edge => DiagramItem.edgeLine edge.1 edge.2).toArray } := by
  induction edges generalizing writer with
  | nil => simp
  | cons edge rest ih =>
      rw [List.map_cons, List.foldl_cons, ih]
      simp [add]

theorem foldl_add (drawn : List (Node × String)) (writer : DiagramWriter) :
    (drawn.flatMap fun drawn => .node drawn.1.id drawn.2
        :: drawn.1.edges.map fun edge => .edge edge.1 edge.2).foldl add writer
      = ⟨writer.nodes ++ (drawn.map fun drawn => DiagramItem.nodeLine drawn.1.id drawn.2).toArray,
        writer.edges ++ (((drawn.map Prod.fst).flatMap Node.edges).map
          fun edge => DiagramItem.edgeLine edge.1 edge.2).toArray⟩ := by
  induction drawn generalizing writer with
  | nil => simp
  | cons first rest ih =>
      rw [List.flatMap_cons, List.foldl_append, List.foldl_cons, foldl_add_edges, ih]
      simp [add]

/-- Whatever was collected before, the pieces are those of the program. -/
theorem pieces_collect (writer : DiagramWriter) (program : Program) :
    (writer.collect program).pieces = diagramHeader
      :: program.drawn.map (fun drawn => DiagramItem.nodeLine drawn.1.id drawn.2)
      ++ "\n" :: program.edges.map (fun edge => DiagramItem.edgeLine edge.1 edge.2)
      ++ ["\x7d\n"] := by
  rw [collect, Program.diagramItems_eq, foldl_add]
  simp [pieces, clear, Program.edges]

end DiagramWriter

theorem Sink.writeAll_of_unlimited (texts : List String) (written : ByteArray) :
    (Sink.mk none written).writeAll texts
      = (true, ⟨none, written ++ (String.join texts).toUTF8⟩) := by
  induction texts generalizing written with
  | nil => exact congrArg (fun bytes => (true, Sink.mk none bytes)) ByteArray.append_empty.symm
  | cons text rest ih =>
      have whole : String.join (text :: rest) = text ++ String.join rest := by
        apply String.toList_injective
        simp [String.toList_join]
      rw [writeAll]
      simp only [write, ih]
      rw [whole, ByteArray.append_assoc]
      exact congrArg (fun bytes => (true, Sink.mk none (written ++ bytes)))
        String.toByteArray_append.symm

/-- A writer hands the whole diagram to a sink that is never full, whatever it wrote before. -/
theorem Program.write_unlimited (program : Program) (writer : DiagramWriter) :
    (writer.write program Sink.unlimited).1 = (true, ⟨none, program.diagram.toUTF8⟩) := by
  have written := Sink.writeAll_of_unlimited (writer.collect program).pieces ByteArray.empty
  rw [ByteArray.empty_append, DiagramWriter.pieces_collect] at written
  rw [DiagramWriter.write, diagram, DiagramWriter.pieces_collect, DiagramWriter.pieces_collect]
  exact written

theorem Program.rows_diagram {program : Program}
    (labels : ∀ drawn ∈ program.drawn, Quotable drawn.2) :
    Rows program.diagram (diagramHeaderRows
      ++ program.drawn.map (fun drawn => DiagramItem.nodeRow (drawn.1.id, drawn.2)) ++ [[]]
      ++ program.edges.map DiagramItem.edgeRow ++ [['\x7d']]) := by
  have whole : program.diagram = diagramHeader
      ++ String.join (program.drawn.map fun drawn => DiagramItem.nodeLine drawn.1.id drawn.2)
      ++ "\n" ++ String.join (program.edges.map fun edge => DiagramItem.edgeLine edge.1 edge.2)
      ++ "\x7d\n" := by
    rw [diagram, DiagramWriter.pieces_collect]
    apply String.toList_injective
    simp [String.toList_join]
  rw [whole]
  refine .append (.append (.append (.append rows_diagramHeader (.join_map ?_ ?_)) ⟨rfl, by decide⟩)
    (.join_map ?_ ?_)) ⟨rfl, by decide⟩
  · intro drawn _
    simp [DiagramItem.nodeLine, DiagramItem.nodeRow]
  · intro drawn among
    simp [DiagramItem.nodeRow, (labels drawn among).newline_not_mem,
      (DiagramItem.quotable_nodeName drawn.1.id).newline_not_mem]
  · intro edge _
    simp [DiagramItem.edgeLine, DiagramItem.edgeRow]
  · intro edge _
    simp [DiagramItem.edgeRow, (DiagramItem.quotable_nodeName edge.1).newline_not_mem,
      (DiagramItem.quotable_nodeName edge.2).newline_not_mem]

/-! ## Diagrams of programs that were read -/

namespace Program

variable {source : String} {program : Program} {after : Session}

theorem quotable_of_parse (parsed : Parser.parse (Session.ofString source) = .ok program after) :
    ∀ drawn ∈ program.drawn, Quotable drawn.2 := by
  have rests : (Session.Invariant.ofSource source).Rests (Session.ofString source) :=
    Session.Draws.ofString source
  have made := Parser.allows_parse rests
  rw [parsed] at made
  rintro ⟨node, label⟩ among
  obtain ⟨visit, member, drawn⟩ := List.mem_filterMap.mp among
  exact Session.Invariant.quotable_of_makes (made.2 visit member) drawn

theorem ids_perm_range (parsed : Parser.parse (Session.ofString source) = .ok program after) :
    program.ids.Perm (List.range after.nextId) := by
  have numbers := (Parser.numbers_parse _ _ _ parsed).2
  rwa [List.nil_append, show (Session.ofString source).nextId = 0 from rfl, Nat.sub_zero,
    ← List.range_eq_range'] at numbers

/-- Every node but the program is a child once. -/
theorem targets_perm (parsed : Parser.parse (Session.ofString source) = .ok program after) :
    (program.edges.map Prod.snd).Perm (List.range program.id) := by
  have targets : program.edges.map Prod.snd
      = (program.drawn.map Prod.fst).flatMap Node.children := by
    simp [edges, List.map_flatMap, Node.edges, Function.comp_def]
  have whole := (program.children_perm).trans (ids_perm_range parsed)
  rw [← Parser.id_of_parse parsed, List.range_succ] at whole
  rw [targets]
  exact ((program.drawn_perm.flatMap_right Node.children).append_right _).trans whole
    |> (List.perm_append_right_iff [program.id]).mp

/-- What any writer writes for a program that was read on its own has one line for every node, in
some order, and one for every edge of the tree: all nodes but the program are the end of one edge,
edges go from larger numbers to smaller ones, and those out of a node are those to its children in
order. No label can be left early. -/
theorem diagram_of_parse (parsed : Parser.parse (Session.ofString source) = .ok program after) :
    ∃ (nodes : List (NodeId × String)) (edges : List (NodeId × NodeId)),
      (∀ writer : DiagramWriter,
        (writer.write program Sink.unlimited).1 = (true, ⟨none, program.diagram.toUTF8⟩))
      ∧ Rows program.diagram (diagramHeaderRows ++ nodes.map DiagramItem.nodeRow ++ [[]]
        ++ edges.map DiagramItem.edgeRow ++ [['\x7d']])
      ∧ (nodes.map Prod.fst).Perm (List.range after.nextId)
      ∧ edges.length + 1 = after.nextId
      ∧ program.id + 1 = after.nextId
      ∧ (edges.map Prod.snd).Perm (List.range program.id)
      ∧ (∀ edge ∈ edges, edge.2 < edge.1)
      ∧ (∀ node ∈ program.nodes,
        (edges.filter fun edge => edge.1 = node.id).map Prod.snd = node.children)
      ∧ ∀ node ∈ nodes, Quotable node.2 := by
  have labels := quotable_of_parse parsed
  have drawn := program.drawn_perm
  have last := Parser.id_of_parse parsed
  have targets := targets_perm parsed
  have numbered := ids_perm_range parsed
  have ids : ((program.drawn.map Prod.fst).map Node.id).Perm program.ids := by
    rw [← program.map_id_nodes]
    exact drawn.map Node.id
  refine ⟨program.drawn.map fun drawn => (drawn.1.id, drawn.2), program.edges,
    program.write_unlimited, ?_, ?_, ?_, last, targets, ?_, ?_, List.forall_mem_map.mpr labels⟩
  · rw [List.map_map]
    exact rows_diagram labels
  · rw [List.map_map] at ids ⊢
    exact ids.trans numbered
  · have length := targets.length_eq
    rw [List.length_map, List.length_range] at length
    rw [length, last]
  · intro edge member
    obtain ⟨node, among, own⟩ := List.mem_flatMap.mp member
    obtain ⟨same, child⟩ := Node.map_fst_edges own
    rw [same]
    exact (Parser.ordered_of_parse parsed node (drawn.subset among)).below _ child
  · intro node among
    exact Node.filter_edges (ids.nodup_iff.mpr (Parser.nodup_ids_of_parse parsed))
      (drawn.symm.subset among)

/-- A text with nodes of most kinds. -/
def sketched : String :=
  "PROGRAM p; VAR x: REAL; PROCEDURE q(a, b: REAL); BEGIN END; BEGIN q(1, -x); x := x / 2.5 END."

theorem diagram_of_parse_sketched : ∃ (program : Program) (after : Session)
    (nodes : List (NodeId × String)) (edges : List (NodeId × NodeId)),
    Parser.parse (Session.ofString sketched) = .ok program after
      ∧ Rows program.diagram (diagramHeaderRows ++ nodes.map DiagramItem.nodeRow ++ [[]]
        ++ edges.map DiagramItem.edgeRow ++ [['\x7d']])
      ∧ (nodes.map Prod.fst).Perm (List.range after.nextId)
      ∧ edges.length + 1 = after.nextId
      ∧ (edges.map Prod.snd).Perm (List.range program.id)
      ∧ (∀ edge ∈ edges, edge.2 < edge.1)
      ∧ ∀ node ∈ nodes, Quotable node.2 := by
  have accepted : (match Parser.parse (Session.ofString sketched) with
      | .ok _ _ => true
      | .error _ _ => false) = true := by decide +kernel
  split at accepted
  · rename_i program after parsed
    obtain ⟨nodes, edges, _, rows, ids, count, _, targets, descending, _, labels⟩ :=
      diagram_of_parse parsed
    exact ⟨program, after, nodes, edges, parsed, rows, ids, count, targets, descending, labels⟩
  · cases accepted

end Program
end MiniPascal
