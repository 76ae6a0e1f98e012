import Mathlib.Tactic.Choose
import MiniPascal.Program.Visit

/-! # What a walk visits

A node of a program is known by its address: the places of the subtrees on the way to it. The visits
of a walk can be labelled with addresses such that every node is visited where it stands. Of a node
the visits come in one piece: the one before everything inside it, everything inside it child by
child, and the one behind. -/
set_option autoImplicit false
namespace MiniPascal

/-- A node with everything inside it. -/
inductive Subtree where
  | program (program : Program)
  | block (block : Block)
  | varDecl (decl : VarDecl)
  | procedure (procedure : Procedure)
  | param (param : Param)
  | declared (name : Variable)
  | typeSpec (typeSpec : TypeSpec)
  | compound (compound : Compound)
  | assignment (id : NodeId) (target : Variable) (value : Expr)
  | call (id : NodeId) (name : String) (position : Position) (arguments : List Expr)
  | empty (id : NodeId)
  | binary (id : NodeId) (operator : BinaryOperator) (left right : Expr) (position : Position)
  | unary (id : NodeId) (operator : UnaryOperator) (operand : Expr) (position : Position)
  | used (name : Variable)
  | number (id : NodeId) (value : Number)

def Expr.subtree : Expr → Subtree
  | .number id value => .number id value
  | .read source => .used source
  | .unary id operator operand position => .unary id operator operand position
  | .binary id operator left right position => .binary id operator left right position

def Statement.subtree : Statement → Subtree
  | .compound id statements => .compound ⟨id, statements⟩
  | .assignment id target value => .assignment id target value
  | .call id name position arguments => .call id name position arguments
  | .empty id => .empty id

namespace Subtree

/-- The subtrees right inside, in the order of the source: the declarations of a block come before
its statements. -/
def children : Subtree → List Subtree
  | .program node => [.block node.block]
  | .block ⟨_, declarations, procedures, body⟩ =>
    declarations.map Subtree.varDecl ++ procedures.map Subtree.procedure ++ [.compound body]
  | .varDecl node => node.names.map Subtree.declared ++ [.typeSpec node.typeSpec]
  | .procedure ⟨_, _, _, params, inner⟩ => params.map Subtree.param ++ [.block inner]
  | .param node => [.declared node.declared, .typeSpec node.typeSpec]
  | .compound node => node.statements.map Statement.subtree
  | .assignment _ target value => [.used target, value.subtree]
  | .call _ _ _ arguments => arguments.map Expr.subtree
  | .binary _ _ left right _ => [left.subtree, right.subtree]
  | .unary _ _ operand _ => [operand.subtree]
  | .declared _ | .typeSpec _ | .empty _ | .used _ | .number _ _ => []

/-- The visit of a node before everything inside it: the only one of a parameter and of the nodes
with nothing inside. -/
def before? : Subtree → Option Visit
  | .program node => some (.programStart node)
  | .block node => some (.blockStart node)
  | .varDecl node => some (.varDeclStart node)
  | .procedure node => some (.procedureStart node)
  | .param node => some (.param node)
  | .declared node => some (.declared node)
  | .typeSpec node => some (.typeSpec node)
  | .compound node => some (.compoundStart node)
  | .empty id => some (.empty id)
  | .used node => some (.used node)
  | .number id value => some (.number id value)
  | .assignment _ _ _ | .call _ _ _ _ | .binary _ _ _ _ _ | .unary _ _ _ _ => none

/-- The visit of a node behind everything inside it: the only one of an assignment, of a call and of
an operator. -/
def after? : Subtree → Option Visit
  | .program node => some (.programEnd node)
  | .block node => some (.blockEnd node)
  | .varDecl node => some (.varDeclEnd node)
  | .procedure node => some (.procedureEnd node)
  | .compound node => some (.compoundEnd node)
  | .assignment id target value => some (.assignment id target value)
  | .call id name position arguments => some (.call id name position arguments)
  | .binary id operator left right position => some (.binary id operator left right position)
  | .unary id operator operand position => some (.unary id operator operand position)
  | .param _ | .declared _ | .typeSpec _ | .empty _ | .used _ | .number _ _ => none

/-- Nodes that are visited when they begin and when they end. -/
def bracketed : Subtree → Bool
  | .program _ | .block _ | .varDecl _ | .procedure _ | .compound _ => true
  | _ => false

/-- The walk over a subtree. -/
def visits : Subtree → List Visit
  | .program node => node.visits
  | .block node => node.visits
  | .varDecl node => node.visits
  | .procedure node => Procedure.visitsOf [node]
  | .param node => node.visits
  | .declared node => [.declared node]
  | .typeSpec node => [.typeSpec node]
  | .compound node => node.visits
  | .assignment id target value => (Statement.assignment id target value).visits
  | .call id name position arguments => (Statement.call id name position arguments).visits
  | .empty id => (Statement.empty id).visits
  | .binary id operator left right position => (Expr.binary id operator left right position).visits
  | .unary id operator operand position => (Expr.unary id operator operand position).visits
  | .used node => (Expr.read node).visits
  | .number id value => (Expr.number id value).visits

end Subtree

/-! ## One node of a walk -/

theorem Expr.visits_subtree (expr : Expr) : expr.subtree.visits = expr.visits := by
  cases expr <;> rfl

theorem Statement.visits_subtree (statement : Statement) :
    statement.subtree.visits = statement.visits := by
  cases statement <;> rfl

theorem Expr.sizeOf_subtree (expr : Expr) : sizeOf expr.subtree = sizeOf expr := by
  cases expr <;> rfl

theorem Expr.sizeOf_pos (expr : Expr) : 0 < sizeOf expr := by
  cases expr <;> simp only [Expr.number.sizeOf_spec, Expr.read.sizeOf_spec, Expr.unary.sizeOf_spec,
    Expr.binary.sizeOf_spec] <;> omega

theorem Statement.sizeOf_subtree_le (statement : Statement) :
    sizeOf statement.subtree ≤ 1 + sizeOf statement := by
  cases statement <;> simp [subtree]

theorem Statement.visitsOf_eq_flatMap (statements : List Statement) :
    Statement.visitsOf statements = statements.flatMap Statement.visits := by
  induction statements with
  | nil => rfl
  | cons first rest ih => rw [Statement.visitsOf, ih, List.flatMap_cons]

theorem Procedure.visitsOf_eq_flatMap (procedures : List Procedure) :
    Procedure.visitsOf procedures
      = procedures.flatMap fun procedure => Procedure.visitsOf [procedure] := by
  induction procedures with
  | nil => rfl
  | cons first rest ih =>
      obtain ⟨id, name, position, params, block⟩ := first
      rw [Procedure.visitsOf, ih, List.flatMap_cons, Procedure.visitsOf, Procedure.visitsOf,
        List.append_nil]

namespace Subtree

theorem flatMap_visits {α : Type} (values : List α) (subtree : α → Subtree) :
    (values.map subtree).flatMap visits = values.flatMap fun value => (subtree value).visits :=
  List.flatMap_map ..

/-- A walk visits a node around the walks over its children. -/
theorem visits_eq (node : Subtree) : node.visits
    = node.before?.toList ++ node.children.flatMap visits ++ node.after?.toList := by
  cases node with
  | program node => simp [visits, before?, after?, children, Program.visits]
  | block node =>
      obtain ⟨id, declarations, procedures, body⟩ := node
      simp [visits, before?, after?, children, Block.visits, flatMap_visits,
        Procedure.visitsOf_eq_flatMap procedures]
  | varDecl node =>
      simp only [children, List.flatMap_append, flatMap_visits]
      simp [visits, before?, after?, VarDecl.visits, List.map_eq_flatMap]
  | procedure node =>
      obtain ⟨id, name, position, params, inner⟩ := node
      simp [visits, before?, after?, children, Procedure.visitsOf, flatMap_visits]
  | compound node =>
      simp only [children, flatMap_visits, Statement.visits_subtree,
        ← Statement.visitsOf_eq_flatMap]
      rfl
  | call id name position arguments =>
      simp only [children, flatMap_visits, Expr.visits_subtree]
      simp [visits, before?, after?, Statement.visits]
  | assignment id target value =>
      simp only [children, List.flatMap_cons, List.flatMap_nil, Expr.visits_subtree]
      simp [visits, before?, after?, Statement.visits, Expr.visits]
  | binary id operator left right position =>
      simp only [children, List.flatMap_cons, List.flatMap_nil, Expr.visits_subtree]
      simp [visits, before?, after?, Expr.visits]
  | unary id operator operand position =>
      simp only [children, List.flatMap_cons, List.flatMap_nil, Expr.visits_subtree]
      simp [visits, before?, after?, Expr.visits]
  | param | declared | typeSpec | empty | used | number => rfl

theorem sizeOf_le_of_mem_map {α : Type} [SizeOf α] {values : List α} {subtree : α → Subtree}
    (bounded : ∀ value, sizeOf (subtree value) ≤ 1 + sizeOf value) {child : Subtree}
    (member : child ∈ values.map subtree) : sizeOf child ≤ sizeOf values := by
  obtain ⟨value, inside, rfl⟩ := List.mem_map.1 member
  have smaller := List.sizeOf_lt_of_mem inside
  have step := bounded value
  omega

theorem sizeOf_lt_of_mem {node child : Subtree} (member : child ∈ node.children) :
    sizeOf child < sizeOf node := by
  cases node with
  | program node =>
      obtain ⟨id, name, inner⟩ := node
      obtain rfl : child = .block inner := by simpa [children] using member
      simp only [program.sizeOf_spec, block.sizeOf_spec, Program.mk.sizeOf_spec]
      omega
  | block node =>
      obtain ⟨id, declarations, procedures, body⟩ := node
      simp only [children, List.mem_append, List.mem_singleton] at member
      simp only [block.sizeOf_spec, Block.mk.sizeOf_spec]
      obtain (inside | inside) | rfl := member
      · have smaller := sizeOf_le_of_mem_map (fun _ => Nat.le_refl _) inside
        omega
      · have smaller := sizeOf_le_of_mem_map (fun _ => Nat.le_refl _) inside
        omega
      · simp only [compound.sizeOf_spec]
        omega
  | varDecl node =>
      obtain ⟨id, names, shared⟩ := node
      simp only [children, List.mem_append, List.mem_singleton] at member
      simp only [varDecl.sizeOf_spec, VarDecl.mk.sizeOf_spec]
      obtain inside | rfl := member
      · have smaller := sizeOf_le_of_mem_map (fun _ => Nat.le_refl _) inside
        omega
      · simp only [typeSpec.sizeOf_spec]
        omega
  | procedure node =>
      obtain ⟨id, name, position, params, inner⟩ := node
      simp only [children, List.mem_append, List.mem_singleton] at member
      simp only [procedure.sizeOf_spec, Procedure.mk.sizeOf_spec]
      obtain inside | rfl := member
      · have smaller := sizeOf_le_of_mem_map (fun _ => Nat.le_refl _) inside
        omega
      · simp only [block.sizeOf_spec]
        omega
  | param node =>
      obtain ⟨id, name, annotation⟩ := node
      simp only [children, List.mem_cons, List.not_mem_nil, or_false] at member
      simp only [param.sizeOf_spec, Param.mk.sizeOf_spec]
      obtain rfl | rfl := member
      · simp only [declared.sizeOf_spec]
        omega
      · simp only [typeSpec.sizeOf_spec]
        omega
  | compound node =>
      obtain ⟨id, statements⟩ := node
      have smaller : sizeOf child ≤ sizeOf statements :=
        sizeOf_le_of_mem_map Statement.sizeOf_subtree_le member
      simp only [compound.sizeOf_spec, Compound.mk.sizeOf_spec]
      omega
  | assignment id target value =>
      simp only [children, List.mem_cons, List.not_mem_nil, or_false] at member
      simp only [assignment.sizeOf_spec]
      obtain rfl | rfl := member
      · have positive := value.sizeOf_pos
        simp only [used.sizeOf_spec]
        omega
      · rw [Expr.sizeOf_subtree]
        omega
  | call id name position arguments =>
      have smaller := sizeOf_le_of_mem_map
        (fun argument => argument.sizeOf_subtree ▸ Nat.le_add_left ..) member
      simp only [call.sizeOf_spec]
      omega
  | binary id operator left right position =>
      simp only [children, List.mem_cons, List.not_mem_nil, or_false] at member
      simp only [binary.sizeOf_spec]
      obtain rfl | rfl := member
      · rw [Expr.sizeOf_subtree]
        omega
      · rw [Expr.sizeOf_subtree]
        omega
  | unary id operator operand position =>
      obtain rfl : child = operand.subtree := by simpa [children] using member
      simp only [unary.sizeOf_spec]
      rw [Expr.sizeOf_subtree]
      omega
  | declared | typeSpec | empty | used | number => simp [children] at member

end Subtree

/-! ## Addresses -/

/-- A visit, with the address of the visited node. -/
structure Stop where
  address : List Nat
  visit : Visit

/-- A stop below the child of this number, seen from the node around the child. -/
def Stop.below (index : Nat) (stop : Stop) : Stop := ⟨index :: stop.address, stop.visit⟩

/-- Where the two addresses part, the first one goes to the earlier child. -/
def LeftOf : List Nat → List Nat → Prop
  | first :: rest, second :: rest' => first < second ∨ first = second ∧ LeftOf rest rest'
  | _, _ => False

theorem nil_not_leftOf (address : List Nat) : ¬ LeftOf [] address := id

theorem not_leftOf_nil (address : List Nat) : ¬ LeftOf address [] := by
  cases address <;> exact id

namespace Subtree

def at? : Subtree → List Nat → Option Subtree
  | node, [] => some node
  | node, index :: rest => node.children[index]?.bind fun child => child.at? rest

/-- The walk visits a node around everything inside it, and nothing else in between. -/
def Spans (walk : List Stop) (address : List Nat) (inner : Subtree) : Prop :=
  ∃ front inside back : List Stop,
    walk = front ++ (inner.before?.toList.map (Stop.mk address) ++ inside
      ++ inner.after?.toList.map (Stop.mk address)) ++ back
    ∧ (∀ stop ∈ inside, address <+: stop.address ∧ stop.address ≠ address)
    ∧ ∀ stop ∈ front ++ back, ¬ address <+: stop.address

/-- Everything inside a child is visited before everything inside the children behind it. -/
def Ordered (walk : List Stop) : Prop :=
  walk.Pairwise fun earlier later => ¬ LeftOf later.address earlier.address

/-- The stops of a walk are where the nodes are. -/
structure Traversed (node : Subtree) (walk : List Stop) : Prop where
  placed : ∀ stop ∈ walk, (node.at? stop.address).isSome
  spans : ∀ {address : List Nat} {inner : Subtree}, node.at? address = some inner →
    Spans walk address inner
  ordered : Ordered walk

/-- Walks over nodes one after the other, as children from this number on. -/
def joined (walkOf : Subtree → List Stop) : Nat → List Subtree → List Stop
  | _, [] => []
  | index, child :: rest =>
    (walkOf child).map (Stop.below index) ++ joined walkOf (index + 1) rest

variable {walkOf : Subtree → List Stop}

theorem map_visit_joined {children : List Subtree}
    (labels : ∀ child ∈ children, (walkOf child).map Stop.visit = child.visits) (start : Nat) :
    (joined walkOf start children).map Stop.visit = children.flatMap visits := by
  induction children generalizing start with
  | nil => rfl
  | cons child rest ih =>
      have here : ((walkOf child).map (Stop.below start)).map Stop.visit = child.visits := by
        rw [← labels child List.mem_cons_self, List.map_map]
        rfl
      rw [joined, List.map_append, here, ih fun child member =>
        labels child (List.mem_cons_of_mem _ member), List.flatMap_cons]

theorem exists_of_mem_joined {children : List Subtree} {start : Nat} {stop : Stop}
    (member : stop ∈ joined walkOf start children) :
    ∃ offset child inner, children[offset]? = some child ∧ inner ∈ walkOf child
      ∧ stop = inner.below (start + offset) := by
  induction children generalizing start with
  | nil => exact absurd member List.not_mem_nil
  | cons child rest ih =>
      obtain here | behind := List.mem_append.1 member
      · obtain ⟨inner, inside, rfl⟩ := List.mem_map.1 here
        exact ⟨0, child, inner, rfl, inside, rfl⟩
      · obtain ⟨offset, child', inner, found, inside, rfl⟩ := ih behind
        exact ⟨offset + 1, child', inner, found, inside, by rw [Nat.add_right_comm]; rfl⟩

/-- The walk over one child stands between those of the children before and behind it. -/
theorem joined_eq_append {children : List Subtree} {offset : Nat} {child : Subtree}
    (found : children[offset]? = some child) (start : Nat) :
    joined walkOf start children = joined walkOf start (children.take offset)
      ++ (walkOf child).map (Stop.below (start + offset))
      ++ joined walkOf (start + offset + 1) (children.drop (offset + 1)) := by
  induction children generalizing offset start with
  | nil => simp at found
  | cons first rest ih =>
      cases offset with
      | zero =>
          obtain rfl : first = child := by simpa using found
          rfl
      | succ offset =>
          rw [joined, ih (by simpa using found) (start + 1), List.take_succ_cons,
            List.drop_succ_cons, joined]
          simp only [List.append_assoc, Nat.add_right_comm start 1 offset, Nat.add_assoc]

theorem ordered_joined {children : List Subtree}
    (ordered : ∀ child ∈ children, Ordered (walkOf child)) (start : Nat) :
    Ordered (joined walkOf start children) := by
  induction children generalizing start with
  | nil => exact .nil
  | cons child rest ih =>
      refine List.pairwise_append.2 ⟨?_, ih (fun child member =>
        ordered child (List.mem_cons_of_mem _ member)) (start + 1), ?_⟩
      · refine List.pairwise_map.2 ((ordered child List.mem_cons_self).imp ?_)
        intro earlier later separate
        rintro (less | ⟨-, left⟩)
        · exact Nat.lt_irrefl _ less
        · exact separate left
      · intro earlier here later behind
        obtain ⟨inner, -, rfl⟩ := List.mem_map.1 here
        obtain ⟨offset, child', inner', -, -, rfl⟩ := exists_of_mem_joined behind
        rintro (less | ⟨same, -⟩) <;> omega

/-! ## The walk over a node from those over its children -/

/-- The visits of a node around walks over its children. -/
def around (walkOf : Subtree → List Stop) (node : Subtree) : List Stop :=
  node.before?.toList.map (Stop.mk []) ++ joined walkOf 0 node.children
    ++ node.after?.toList.map (Stop.mk [])

theorem address_of_mem_own {visit? : Option Visit} {stop : Stop}
    (member : stop ∈ visit?.toList.map (Stop.mk [])) : stop.address = [] := by
  obtain ⟨visit, -, rfl⟩ := List.mem_map.1 member
  rfl

variable {node : Subtree} (below : ∀ child ∈ node.children, child.Traversed (walkOf child))
include below

theorem placed_around {stop : Stop} (member : stop ∈ around walkOf node) :
    (node.at? stop.address).isSome := by
  simp only [around, List.mem_append] at member
  obtain (own | inside) | own := member
  · rw [address_of_mem_own own]
    rfl
  · obtain ⟨index, child, inner, found, visited, rfl⟩ := exists_of_mem_joined inside
    have placed := (below child (List.mem_of_getElem? found)).placed inner visited
    simpa [Stop.below, at?, found] using placed
  · rw [address_of_mem_own own]
    rfl

theorem spans_around {address : List Nat} {inner : Subtree}
    (reached : node.at? address = some inner) : Spans (around walkOf node) address inner := by
  cases address with
  | nil =>
      obtain rfl : node = inner := Option.some.inj reached
      refine ⟨[], joined walkOf 0 node.children, [], by simp [around], ?_, by simp⟩
      intro stop member
      obtain ⟨index, child, inner, -, -, rfl⟩ := exists_of_mem_joined member
      exact ⟨List.nil_prefix, List.cons_ne_nil _ _⟩
  | cons index rest =>
      obtain ⟨child, found, reached⟩ := Option.bind_eq_some_iff.1 reached
      obtain ⟨front, inside, back, walk, within, outside⟩ :=
        (below child (List.mem_of_getElem? found)).spans reached
      -- what is visited beside the child lies below the node itself or below another child
      have beside : ∀ stop ∈ node.before?.toList.map (Stop.mk [])
          ++ joined walkOf 0 (node.children.take index)
          ++ (joined walkOf (index + 1) (node.children.drop (index + 1))
            ++ node.after?.toList.map (Stop.mk [])), ¬ index :: rest <+: stop.address := by
        intro stop member
        simp only [List.mem_append] at member
        obtain (own | earlier) | (later | own) := member
        · simp [address_of_mem_own own]
        · obtain ⟨offset, child', inner', found', -, rfl⟩ := exists_of_mem_joined earlier
          have bounded := (List.getElem?_eq_some_iff.1 found').1
          rw [List.length_take] at bounded
          simp only [Stop.below, List.cons_prefix_cons, not_and]
          omega
        · obtain ⟨offset, child', inner', -, -, rfl⟩ := exists_of_mem_joined later
          simp only [Stop.below, List.cons_prefix_cons, not_and]
          omega
        · simp [address_of_mem_own own]
      refine ⟨node.before?.toList.map (Stop.mk [])
          ++ joined walkOf 0 (node.children.take index) ++ front.map (Stop.below index),
        inside.map (Stop.below index),
        back.map (Stop.below index)
          ++ (joined walkOf (index + 1) (node.children.drop (index + 1))
            ++ node.after?.toList.map (Stop.mk [])), ?_, ?_, ?_⟩
      · rw [around, joined_eq_append found, walk]
        simp [Function.comp_def, Stop.below]
      · intro stop member
        obtain ⟨visited, visitedInside, rfl⟩ := List.mem_map.1 member
        obtain ⟨under, strictly⟩ := within visited visitedInside
        exact ⟨List.cons_prefix_cons.2 ⟨rfl, under⟩, fun same => strictly (List.cons.inj same).2⟩
      · intro stop member
        have lowered : ∀ stop ∈ front ++ back, ¬ index :: rest <+: (stop.below index).address :=
          fun stop member under => outside stop member (List.cons_prefix_cons.1 under).2
        simp only [List.mem_append, List.mem_map] at member beside lowered
        grind

theorem ordered_around : Ordered (around walkOf node) := by
  have inside := ordered_joined (fun child member => (below child member).ordered) 0
  -- a node's own stops have nothing on their left and nothing on their right
  have own : ∀ (visit? : Option Visit) {stop}, stop ∈ visit?.toList.map (Stop.mk []) →
      ∀ other : Stop, ¬ LeftOf other.address stop.address ∧ ¬ LeftOf stop.address other.address := by
    intro visit? stop member other
    rw [address_of_mem_own member]
    exact ⟨not_leftOf_nil _, nil_not_leftOf _⟩
  have ownOrdered : ∀ visit? : Option Visit, Ordered (visit?.toList.map (Stop.mk [])) :=
    fun visit? => List.pairwise_of_forall_mem_list fun _ member later _ => (own visit? member later).1
  refine List.pairwise_append.2 ⟨List.pairwise_append.2 ⟨ownOrdered _, inside, ?_⟩,
    ownOrdered _, ?_⟩
  · exact fun earlier member later _ => (own _ member later).1
  · exact fun earlier _ later member => (own _ member earlier).2

omit below

theorem exists_traversed (node : Subtree) :
    ∃ walk : List Stop, walk.map Stop.visit = node.visits ∧ node.Traversed walk := by
  have below : ∀ child ∈ node.children,
      ∃ walk : List Stop, walk.map Stop.visit = child.visits ∧ child.Traversed walk :=
    fun child member => child.exists_traversed
  -- with a walk over each child, the one over the node is put together
  choose! walkOf labels below using below
  refine ⟨around walkOf node, ?_, fun _ => placed_around below, spans_around below,
    ordered_around below⟩
  rw [visits_eq, around, List.map_append, List.map_append, map_visit_joined labels]
  simp [Function.comp_def]
termination_by sizeOf node
decreasing_by exact sizeOf_lt_of_mem member

/-- What is visited at an address is the node there: before and behind what is inside it. -/
theorem Traversed.visits_at {node inner : Subtree} {walk : List Stop} {address : List Nat}
    (traversed : node.Traversed walk) (reached : node.at? address = some inner) :
    (walk.filter fun stop => stop.address = address).map Stop.visit
      = inner.before?.toList ++ inner.after?.toList := by
  obtain ⟨front, inside, back, rfl, within, outside⟩ := traversed.spans reached
  have noneOutside : ∀ stops : List Stop, (∀ stop ∈ stops, stop ∈ front ++ back) →
      stops.filter (fun stop => stop.address = address) = [] := by
    intro stops member
    refine List.filter_eq_nil_iff.2 fun stop visited same => outside stop (member stop visited) ?_
    exact of_decide_eq_true same ▸ List.prefix_rfl
  have noneInside : inside.filter (fun stop => stop.address = address) = [] :=
    List.filter_eq_nil_iff.2 fun stop visited same =>
      (within stop visited).2 (of_decide_eq_true same)
  have own : ∀ visit? : Option Visit, (visit?.toList.map (Stop.mk address)).filter
      (fun stop => stop.address = address) = visit?.toList.map (Stop.mk address) := by
    rintro (- | visit) <;> simp
  rw [List.filter_append, List.filter_append, List.filter_append, List.filter_append,
    noneOutside front (fun _ => List.mem_append_left _),
    noneOutside back (fun _ => List.mem_append_right _), noneInside, own, own]
  simp [Function.comp_def]

theorem length_visit (node : Subtree) :
    (node.before?.toList ++ node.after?.toList).length = if node.bracketed then 2 else 1 := by
  cases node <;> rfl

end Subtree

/-- A walk over a program visits every node where it stands: twice if it is bracketed, and otherwise
once. A parameter comes before its name and its type, an operator, an assignment or a call behind
everything inside it, and the children of a node come one after the other. -/
theorem Program.visits_traverse (program : Program) :
    ∃ walk : List Stop, walk.map Stop.visit = program.visits
      ∧ (Subtree.program program).Traversed walk
      ∧ ∀ {address : List Nat} {inner : Subtree},
        (Subtree.program program).at? address = some inner →
        (walk.filter fun stop => stop.address = address).length
          = if inner.bracketed then 2 else 1 := by
  obtain ⟨walk, labels, traversed⟩ := (Subtree.program program).exists_traversed
  refine ⟨walk, labels, traversed, fun {address inner} reached => ?_⟩
  rw [← inner.length_visit, ← traversed.visits_at reached, List.length_map]

end MiniPascal
