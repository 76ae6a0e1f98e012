import MiniPascal.Proofs.Program.Numbering

/-! # Nodes

A program as the list of its nodes, each with the numbers of its children in order. The nodes come
in the order in which their numbers are listed: children before their parent. -/
set_option autoImplicit false
namespace MiniPascal

/-- The number of a node and those of its children. -/
structure Node where
  id : NodeId
  children : List NodeId
deriving DecidableEq

namespace Node

def leaf (id : NodeId) : Node :=
  ⟨id, []⟩

/-- Children have increasing numbers, all of them smaller than that of their parent. -/
structure Ordered (node : Node) : Prop where
  below : ∀ child ∈ node.children, child < node.id
  increasing : node.children.Pairwise (· < ·)

theorem ordered_leaf (id : NodeId) : (leaf id).Ordered :=
  ⟨List.forall_mem_nil _, .nil⟩

namespace Ordered

variable {id next : NodeId} {children fewer : List NodeId}

theorem sublist (ordered : (Node.mk id children).Ordered) (among : fewer.Sublist children) :
    (Node.mk id fewer).Ordered :=
  ⟨fun child inside => ordered.below child (among.subset inside), ordered.increasing.sublist among⟩

theorem mono (ordered : (Node.mk id children).Ordered) (le : id ≤ next) :
    (Node.mk next children).Ordered :=
  ⟨fun child inside => Nat.lt_of_lt_of_le (ordered.below child inside) le, ordered.increasing⟩

/-- A node made now and its elders can have a common parent from now on. -/
theorem succ (ordered : (Node.mk id children).Ordered) :
    (Node.mk (id + 1) (children ++ [id])).Ordered := by
  refine ⟨List.forall_mem_append.mpr ⟨?_, List.forall_mem_singleton.mpr (Nat.lt_succ_self id)⟩, ?_⟩
  · exact (ordered.mono (Nat.le_succ id)).below
  · refine List.pairwise_append.mpr ⟨ordered.increasing, List.pairwise_singleton _ _, ?_⟩
    intro child inside last same
    rw [List.mem_singleton.mp same]
    exact ordered.below child inside

end Ordered
end Node

def Expr.nodes : Expr → List Node
  | .number id _ => [.leaf id]
  | .read source => [.leaf source.id]
  | .unary id _ operand _ => operand.nodes ++ [⟨id, [operand.id]⟩]
  | .binary id _ left right _ => left.nodes ++ right.nodes ++ [⟨id, [left.id, right.id]⟩]

mutual

def Statement.nodes : Statement → List Node
  | .compound id statements =>
    Statement.nodesOf statements ++ [⟨id, statements.map Statement.id⟩]
  | .assignment id target value =>
    .leaf target.id :: value.nodes ++ [⟨id, [target.id, value.id]⟩]
  | .call id _ _ arguments => arguments.flatMap Expr.nodes ++ [⟨id, arguments.map Expr.id⟩]
  | .empty id => [.leaf id]

def Statement.nodesOf : List Statement → List Node
  | [] => []
  | statement :: rest => statement.nodes ++ Statement.nodesOf rest

end

def Compound.nodes (compound : Compound) : List Node :=
  Statement.nodesOf compound.statements ++ [⟨compound.id, compound.statements.map Statement.id⟩]

def VarDecl.nodes (decl : VarDecl) : List Node :=
  (decl.names.map Variable.id ++ [decl.typeSpec.id]).map Node.leaf
    ++ [⟨decl.id, decl.names.map Variable.id ++ [decl.typeSpec.id]⟩]

def Param.nodes (param : Param) : List Node :=
  [.leaf param.declared.id, .leaf param.typeSpec.id,
    ⟨param.id, [param.declared.id, param.typeSpec.id]⟩]

mutual

def Block.nodes : Block → List Node
  | ⟨id, declarations, procedures, body⟩ =>
    declarations.flatMap VarDecl.nodes ++ Procedure.nodesOf procedures ++ body.nodes
      ++ [⟨id, declarations.map VarDecl.id ++ procedures.map Procedure.id ++ [body.id]⟩]

def Procedure.nodesOf : List Procedure → List Node
  | [] => []
  | ⟨id, _, _, params, block⟩ :: rest =>
    params.flatMap Param.nodes ++ block.nodes ++ [⟨id, params.map Param.id ++ [block.id]⟩]
      ++ Procedure.nodesOf rest

end

/-- The nodes of a program: the program itself, blocks, declarations, parameters, types, statements,
variables and expressions. -/
def Program.nodes (program : Program) : List Node :=
  program.block.nodes ++ [⟨program.id, [program.block.id]⟩]

/-! ## The numbers of the nodes -/

theorem Node.map_id_flatMap {α : Type} {nodes : α → List Node} {ids : α → List NodeId}
    (same : ∀ value, (nodes value).map Node.id = ids value) (values : List α) :
    (values.flatMap nodes).map Node.id = values.flatMap ids := by
  simp only [List.map_flatMap, same]

theorem Expr.map_id_nodes (expr : Expr) : expr.nodes.map Node.id = expr.ids := by
  induction expr with
  | number id value => rfl
  | read source => rfl
  | unary id operator operand position ih => simp [nodes, ids, ih]
  | binary id operator left right position first second => simp [nodes, ids, first, second]

mutual

theorem Statement.map_id_nodes : ∀ statement : Statement,
    statement.nodes.map Node.id = statement.ids
  | .compound id statements => by
    simp [Statement.nodes, Statement.ids, Statement.map_id_nodesOf statements]
  | .assignment id target value => by
    simp [Statement.nodes, Statement.ids, Node.leaf, Expr.map_id_nodes]
  | .call id name position arguments => by
    simp [Statement.nodes, Statement.ids, Node.map_id_flatMap Expr.map_id_nodes]
  | .empty id => rfl

theorem Statement.map_id_nodesOf : ∀ statements : List Statement,
    (Statement.nodesOf statements).map Node.id = Statement.idsOf statements
  | [] => rfl
  | statement :: rest => by
    simp [Statement.nodesOf, Statement.idsOf, Statement.map_id_nodes statement,
      Statement.map_id_nodesOf rest]

end

theorem Compound.map_id_nodes (compound : Compound) :
    compound.nodes.map Node.id = compound.ids := by
  simp [nodes, ids, Statement.map_id_nodesOf]

theorem VarDecl.map_id_nodes (decl : VarDecl) : decl.nodes.map Node.id = decl.ids := by
  simp [nodes, ids, Node.leaf, Function.comp_def]

theorem Param.map_id_nodes (param : Param) : param.nodes.map Node.id = param.ids :=
  rfl

mutual

theorem Block.map_id_nodes : ∀ block : Block, block.nodes.map Node.id = block.ids
  | ⟨id, declarations, procedures, body⟩ => by
    simp [Block.nodes, Block.ids, Node.map_id_flatMap VarDecl.map_id_nodes,
      Procedure.map_id_nodesOf procedures, Compound.map_id_nodes]

theorem Procedure.map_id_nodesOf : ∀ procedures : List Procedure,
    (Procedure.nodesOf procedures).map Node.id = Procedure.idsOf procedures
  | [] => rfl
  | ⟨id, name, position, params, block⟩ :: rest => by
    simp [Procedure.nodesOf, Procedure.idsOf, Node.map_id_flatMap Param.map_id_nodes,
      Block.map_id_nodes block, Procedure.map_id_nodesOf rest]

end

theorem Program.map_id_nodes (program : Program) :
    program.nodes.map Node.id = program.ids := by
  simp [nodes, ids, Block.map_id_nodes]

/-! ## Every node is a child once

The numbers that occur as children, and those on top, are the numbers of all nodes. -/

theorem Node.count_children_flatMap {α : Type} {nodes : α → List Node} {ids : α → List NodeId}
    {id : α → NodeId} {child : NodeId}
    (once : ∀ value, ((nodes value).flatMap Node.children).count child + [id value].count child
      = (ids value).count child) (values : List α) :
    ((values.flatMap nodes).flatMap Node.children).count child + (values.map id).count child
      = (values.flatMap ids).count child := by
  induction values with
  | nil => rfl
  | cons value rest ih =>
      have first := once value
      rw [List.count_singleton] at first
      simp only [List.flatMap_cons, List.flatMap_append, List.map_cons, List.count_append,
        List.count_cons]
      omega

theorem Expr.count_children (child : NodeId) (expr : Expr) :
    (expr.nodes.flatMap Node.children).count child + [expr.id].count child
      = expr.ids.count child := by
  induction expr with
  | number id value => exact Nat.zero_add _
  | read source => exact Nat.zero_add _
  | unary id operator operand position ih =>
      simp only [nodes, ids, Expr.id, List.flatMap_append, List.flatMap_singleton,
        List.count_append, List.count_singleton] at ih ⊢
      omega
  | binary id operator left right position first second =>
      simp only [nodes, ids, Expr.id, List.flatMap_append, List.flatMap_singleton,
        List.count_append, List.count_cons, List.count_nil] at first second ⊢
      omega

mutual

theorem Statement.count_children (child : NodeId) : ∀ statement : Statement,
    (statement.nodes.flatMap Node.children).count child + [statement.id].count child
      = statement.ids.count child
  | .compound id statements => by
    have inner := Statement.count_children_nodesOf child statements
    simp only [Statement.nodes, Statement.ids, Statement.id, List.flatMap_append,
      List.flatMap_singleton, List.count_append]
    omega
  | .assignment id target value => by
    have inner := Expr.count_children child value
    simp only [Statement.nodes, Statement.ids, Statement.id, Node.leaf, List.flatMap_append,
      List.flatMap_cons, List.flatMap_nil, List.nil_append, List.append_nil, List.count_append,
      List.count_cons, List.count_nil] at inner ⊢
    omega
  | .call id name position arguments => by
    have inner := Node.count_children_flatMap (Expr.count_children child) arguments
    simp only [Statement.nodes, Statement.ids, Statement.id, List.flatMap_append,
      List.flatMap_singleton, List.count_append]
    omega
  | .empty id => Nat.zero_add _

theorem Statement.count_children_nodesOf (child : NodeId) : ∀ statements : List Statement,
    ((Statement.nodesOf statements).flatMap Node.children).count child
      + (statements.map Statement.id).count child = (Statement.idsOf statements).count child
  | [] => rfl
  | statement :: rest => by
    have first := Statement.count_children child statement
    have others := Statement.count_children_nodesOf child rest
    rw [List.count_singleton] at first
    simp only [Statement.nodesOf, Statement.idsOf, List.flatMap_append, List.map_cons,
      List.count_append, List.count_cons]
    omega

end

theorem Compound.count_children (child : NodeId) (compound : Compound) :
    (compound.nodes.flatMap Node.children).count child + [compound.id].count child
      = compound.ids.count child := by
  have inner := Statement.count_children_nodesOf child compound.statements
  simp only [nodes, ids, List.flatMap_append, List.flatMap_singleton, List.count_append]
  omega

theorem VarDecl.count_children (child : NodeId) (decl : VarDecl) :
    (decl.nodes.flatMap Node.children).count child + [decl.id].count child
      = decl.ids.count child := by
  have leaves : ∀ ids : List NodeId, (ids.map Node.leaf).flatMap Node.children = [] := by
    intro ids
    rw [List.flatMap_map]
    exact List.flatMap_eq_nil_iff.mpr fun _ _ => rfl
  simp only [nodes, ids, List.flatMap_append, leaves, List.flatMap_singleton, List.nil_append,
    List.count_append, List.count_cons, List.count_nil]
  omega

theorem Param.count_children (child : NodeId) (param : Param) :
    (param.nodes.flatMap Node.children).count child + [param.id].count child
      = param.ids.count child := by
  simp only [nodes, ids, Node.leaf, List.flatMap_cons, List.flatMap_nil, List.nil_append,
    List.append_nil, List.count_cons, List.count_nil]
  omega

mutual

theorem Block.count_children (child : NodeId) : ∀ block : Block,
    (block.nodes.flatMap Node.children).count child + [block.id].count child
      = block.ids.count child
  | ⟨id, declarations, procedures, body⟩ => by
    have declared := Node.count_children_flatMap (VarDecl.count_children child) declarations
    have nested := Procedure.count_children_nodesOf child procedures
    have inner := Compound.count_children child body
    simp only [Block.nodes, Block.ids, List.flatMap_append, List.flatMap_singleton,
      List.count_append]
    omega

theorem Procedure.count_children_nodesOf (child : NodeId) : ∀ procedures : List Procedure,
    ((Procedure.nodesOf procedures).flatMap Node.children).count child
      + (procedures.map Procedure.id).count child = (Procedure.idsOf procedures).count child
  | [] => rfl
  | ⟨id, name, position, params, block⟩ :: rest => by
    have listed := Node.count_children_flatMap (Param.count_children child) params
    have inner := Block.count_children child block
    have others := Procedure.count_children_nodesOf child rest
    rw [List.count_singleton] at inner
    simp only [Procedure.nodesOf, Procedure.idsOf, List.map_cons, List.flatMap_append,
      List.flatMap_singleton, List.count_append, List.count_cons, List.count_nil]
    omega

end

theorem Program.children_perm (program : Program) :
    (program.nodes.flatMap Node.children ++ [program.id]).Perm program.ids := by
  apply List.perm_iff_count.mpr
  intro child
  have inner := Block.count_children child program.block
  simp only [nodes, ids, List.flatMap_append, List.flatMap_singleton, List.count_append]
  omega

end MiniPascal
