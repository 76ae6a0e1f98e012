import Mathlib.Data.List.Pairwise
import Mathlib.Logic.Relation
import MiniPascal.Proofs.Program.Numbering
import MiniPascal.Proofs.Run.Isolation

/-! # The call graph

Calls stand in bodies, and the name of a call is resolved in the scope that its body belongs to. So
the text alone says which procedures a body calls and in which order. From a list of names the graph
unfolds to the order in which their bodies end, and it unfolds at all only where no chain of calls
goes on for ever. -/
set_option autoImplicit false
namespace MiniPascal

open Relation

/-- The procedures that statements of a scope call, in the order of the text. -/
def ScopeTree.callees (tree : ScopeTree) (scope : String) (statements : List Statement) :
    List String :=
  (Statement.callsOf statements).filterMap fun call =>
    (tree.findProcedure? scope call.1).map ProcedureHeader.name

namespace ScopeTree

theorem callees_compound (tree : ScopeTree) (scope : String) (id : NodeId)
    (inner rest : List Statement) :
    tree.callees scope (.compound id inner :: rest)
      = tree.callees scope inner ++ tree.callees scope rest :=
  List.filterMap_append

theorem callees_call {tree : ScopeTree} {scope name : String} {header : ProcedureHeader}
    (found : tree.findProcedure? scope name = some header) (id : NodeId) (position : Position)
    (arguments : List Expr) (rest : List Statement) :
    tree.callees scope (.call id name position arguments :: rest)
      = header.name :: tree.callees scope rest := by
  simp [callees, Statement.callsOf, Statement.calls, found]

end ScopeTree

namespace Program

/-- The statements of the scope of a name. -/
def statementsOf (program : Program) (name : String) : List Statement :=
  match program.scopes.find? fun scope => scope.name = name with
  | some scope => scope.statements
  | none => []

/-- The procedures that the body of a scope calls. -/
def callees (program : Program) (tree : ScopeTree) (name : String) : List String :=
  tree.callees name (program.statementsOf name)

/-- One scope calls another. -/
def Calls (program : Program) (tree : ScopeTree) (caller callee : String) : Prop :=
  callee ∈ program.callees tree caller

/-- The expression stands in the body of a scope, or in one that is reached from it by calls. -/
def Evaluates (program : Program) (tree : ScopeTree) (name : String) (id : NodeId) : Prop :=
  ∃ reached, ReflTransGen (program.Calls tree) name reached
    ∧ id ∈ Statement.expressionIds (program.statementsOf reached)

theorem evaluates_iff (program : Program) (tree : ScopeTree) (name : String) (id : NodeId) :
    program.Evaluates tree name id
      ↔ id ∈ Statement.expressionIds (program.statementsOf name)
        ∨ ∃ callee ∈ program.callees tree name, program.Evaluates tree callee id := by
  constructor
  · rintro ⟨reached, reaches, inside⟩
    cases reaches.cases_head with
    | inl same => exact .inl (same ▸ inside)
    | inr onward =>
        obtain ⟨callee, called, rest⟩ := onward
        exact .inr ⟨callee, called, reached, rest, inside⟩
  · intro either
    cases either with
    | inl inside => exact ⟨name, .refl, inside⟩
    | inr further =>
        obtain ⟨callee, called, reached, rest, inside⟩ := further
        exact ⟨reached, .head called rest, inside⟩

end Program

/-- The calls of several bodies in post-order: those of a body come before its own name. -/
inductive Unfolding (callees : String → List String) : List String → List String → Prop where
  | nil : Unfolding callees [] []
  | cons {name : String} {rest inner others : List String} :
    Unfolding callees (callees name) inner → Unfolding callees rest others →
      Unfolding callees (name :: rest) (inner ++ name :: others)

namespace Unfolding

variable {callees : String → List String} {names others unfolded further : List String}

theorem append (first : Unfolding callees names unfolded) :
    Unfolding callees others further →
      Unfolding callees (names ++ others) (unfolded ++ further) := by
  induction first with
  | nil => exact id
  | cons inner _ _ ih =>
      intro second
      rw [List.cons_append, List.append_assoc, List.cons_append]
      exact .cons inner (ih second)

theorem single {name : String} (calls : callees name = names)
    (inside : Unfolding callees names unfolded) : Unfolding callees [name] (unfolded ++ [name]) := by
  subst calls
  exact .cons inside .nil

theorem unique (first : Unfolding callees names unfolded) :
    ∀ {other}, Unfolding callees names other → other = unfolded := by
  induction first with
  | nil =>
      intro other second
      cases second
      rfl
  | cons _ _ inside behind =>
      intro other second
      cases second with
      | cons inner others => rw [inside inner, behind others]

/-- What has an unfolding starts no endless chain of calls. -/
theorem acc (unfolding : Unfolding callees names unfolded) :
    ∀ name ∈ names, Acc (fun callee caller => callee ∈ callees caller) name := by
  induction unfolding with
  | nil => exact fun _ member => absurd member List.not_mem_nil
  | cons _ _ inside behind =>
      intro name member
      rcases List.mem_cons.mp member with rfl | later
      · exact Acc.intro name inside
      · exact behind name later

end Unfolding

/-- Nothing that is reached from where all chains end lies on a cycle. -/
theorem not_transGen_self {α : Type} {calls : α → α → Prop} {start reached : α}
    (ends : Acc (fun callee caller => calls caller callee) start)
    (reaches : ReflTransGen calls start reached) : ¬ TransGen calls reached reached := by
  induction ends generalizing reached with
  | intro start _ ih =>
    intro cycle
    cases reaches.cases_head with
    | inr onward =>
        obtain ⟨next, calls_next, rest⟩ := onward
        exact ih next calls_next rest cycle
    | inl same =>
        -- The cycle passes through a callee of the start, and leads from there to itself.
        subst same
        obtain ⟨next, calls_next, rest⟩ := TransGen.head'_iff.mp cycle
        exact ih next calls_next .refl (TransGen.trans_right rest (.single calls_next))

/-! ## Bodies -/

namespace Program

variable {program : Program} {tree : ScopeTree}

theorem statementsOf_eq (distinct : (program.scopes.map Scope.name).Nodup) {scope : Scope}
    (member : scope ∈ program.scopes) : program.statementsOf scope.name = scope.statements := by
  have found : program.scopes.find? (fun other => other.name = scope.name) = some scope :=
    (find?_eq_some_iff_of_nodup Scope.name distinct _ _).mpr ⟨member, rfl⟩
  rw [statementsOf, found]

theorem mem_allProcedures_of_index (accepted : program.analyse = .ok tree) {name : String}
    {procedure : Procedure} (found : (program.block.index ∅)[name]? = some procedure) :
    procedure ∈ program.block.allProcedures ∧ procedure.name = name := by
  have distinct := nodup_names_of_analyse accepted
  rw [Block.index_eq_foldl, Procedure.getElem?_foldl_insert _ _ _ distinct] at found
  exact (find?_eq_some_iff_of_nodup Procedure.name distinct _ _).mp (by simpa using found)

end Program

namespace Interpreter

/-- The body that a call executes is the body of the scope it names. -/
def FindsBodies (interpreter : Interpreter) : Prop :=
  ∀ scope name count header procedure,
    interpreter.resolve scope name count = .ok (header, procedure) →
      interpreter.program.statementsOf header.name = procedure.block.body.statements

theorem findsBodies_of_analyse {program : Program} {tree : ScopeTree}
    (accepted : program.analyse = .ok tree) : (ofProgram program tree).FindsBodies := by
  intro scope name count header procedure resolved
  obtain ⟨_, indexed, _⟩ := resolve_eq_ok resolved
  obtain ⟨among, named⟩ := Program.mem_allProcedures_of_index accepted indexed
  obtain ⟨listed, member, same, _, statements⟩ :=
    Block.exists_scope_of_mem _ none [] [] program.block procedure among
  have distinct := (program.exists_analyse_iff.mp ⟨tree, accepted⟩).1.scopeNames
  have body := Program.statementsOf_eq distinct member
  rw [same, named, statements] at body
  exact body

end Interpreter

namespace Program

variable {program : Program} {tree : ScopeTree}

theorem exists_scope_of_evaluates {name : String} {id : NodeId}
    (evaluates : program.Evaluates tree name id) :
    ∃ scope ∈ program.scopes, ReflTransGen (program.Calls tree) name scope.name
      ∧ id ∈ Statement.expressionIds scope.statements := by
  obtain ⟨reached, reaches, inside⟩ := evaluates
  rw [statementsOf] at inside
  cases search : program.scopes.find? fun scope => scope.name = reached with
  | none =>
      rw [search] at inside
      exact absurd inside List.not_mem_nil
  | some scope =>
      rw [search] at inside
      have named : scope.name = reached := by simpa using List.find?_some search
      exact ⟨scope, List.mem_of_find?_eq_some search, named ▸ reaches, inside⟩

/-- Where no two nodes share a number, what is evaluated is an expression of a reached body and
nothing else. -/
theorem not_evaluates (tree : ScopeTree) (numbered : program.ids.Nodup) :
    (∀ id ∈ program.otherIds, ¬ program.Evaluates tree program.name id)
      ∧ ∀ scope ∈ program.scopes, ¬ ReflTransGen (program.Calls tree) program.name scope.name →
        ∀ id ∈ Statement.expressionIds scope.statements,
          ¬ program.Evaluates tree program.name id := by
  have apart := List.nodup_append'.mp (program.ids_perm.nodup_iff.mp numbered)
  obtain ⟨_, expressions, disjoint⟩ := apart
  constructor
  · intro id other evaluates
    obtain ⟨scope, member, _, inside⟩ := exists_scope_of_evaluates evaluates
    exact disjoint other (List.mem_flatMap.mpr ⟨scope, member, inside⟩)
  · intro scope member unreached id inside evaluates
    obtain ⟨other, listed, reaches, again⟩ := exists_scope_of_evaluates evaluates
    have different : scope ≠ other := fun same => unreached (same ▸ reaches)
    let ids := fun scope : Scope => Statement.expressionIds scope.statements
    have separate : program.scopes.Pairwise (Function.onFun List.Disjoint ids) :=
      (List.nodup_flatMap.mp expressions).2
    have symmetric : Std.Symm (Function.onFun List.Disjoint ids) :=
      ⟨fun _ _ disjoint _ one other => disjoint other one⟩
    exact separate.forall member listed different inside again

end Program

end MiniPascal
