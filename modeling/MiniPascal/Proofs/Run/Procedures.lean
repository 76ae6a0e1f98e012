import MiniPascal.Proofs.Scope.Analysed
import MiniPascal.Run.Interpreter

/-! # Procedures by name

In a well-formed program every procedure has a name of its own, so the map from names to procedures
that an interpreter keeps loses none of them. Every procedure also is the scope of its name. -/
set_option autoImplicit false
namespace MiniPascal

/-- Where names are distinct, a search by name finds the one entry of that name. -/
theorem find?_eq_some_iff_of_nodup {α : Type} (key : α → String) {entries : List α}
    (distinct : (entries.map key).Nodup) (name : String) (entry : α) :
    entries.find? (fun other => key other = name) = some entry
      ↔ entry ∈ entries ∧ key entry = name := by
  constructor
  · intro search
    exact ⟨List.mem_of_find?_eq_some search, by simpa using List.find?_some search⟩
  · rintro ⟨member, named⟩
    cases search : entries.find? (fun other => key other = name) with
    | none => exact absurd named (by simpa using List.find?_eq_none.mp search entry member)
    | some other =>
        have same : key other = name := by simpa using List.find?_some search
        rw [List.inj_on_of_nodup_map distinct (List.mem_of_find?_eq_some search) member
          (same.trans named.symm)]

mutual

theorem Block.index_eq_foldl : ∀ (block : Block) (found : Std.TreeMap String Procedure),
    block.index found
      = block.allProcedures.foldl (fun found procedure => found.insert procedure.name procedure)
        found
  | ⟨_, _, procedures, _⟩, found => by
    rw [Block.index, Block.allProcedures, Procedure.indexAll_eq_foldl procedures found]

theorem Procedure.indexAll_eq_foldl : ∀ (procedures : List Procedure)
    (found : Std.TreeMap String Procedure),
    Procedure.indexAll found procedures
      = (Procedure.allOf procedures).foldl
        (fun found procedure => found.insert procedure.name procedure) found
  | [], _ => rfl
  | ⟨id, name, position, params, block⟩ :: rest, found => by
    rw [Procedure.indexAll, Procedure.allOf, Block.index_eq_foldl block,
      Procedure.indexAll_eq_foldl rest, List.foldl_cons, List.foldl_append]

end

theorem Procedure.getElem?_foldl_insert : ∀ (procedures : List Procedure)
    (found : Std.TreeMap String Procedure) (name : String),
    (procedures.map Procedure.name).Nodup →
      (procedures.foldl (fun found procedure => found.insert procedure.name procedure) found)[name]?
        = (procedures.find? fun procedure => procedure.name = name).or found[name]? := by
  intro procedures
  induction procedures with
  | nil => intro found name _; simp
  | cons first rest ih =>
      intro found name distinct
      obtain ⟨new, others⟩ := List.nodup_cons.mp distinct
      rw [List.foldl_cons, ih _ name others, Std.TreeMap.getElem?_insert, List.find?_cons]
      simp only [Std.LawfulEqOrd.compare_eq_iff_eq]
      by_cases same : first.name = name
      · have absent : rest.find? (fun procedure => procedure.name = name) = none := by
          rw [List.find?_eq_none]
          intro procedure member named
          have named : procedure.name = name := by simpa using named
          exact new (same.trans named.symm ▸ List.mem_map_of_mem member)
        simp [same, absent]
      · simp [same]

mutual

theorem Block.mem_allProcedures (name : String) (parent : Option String) (params : List Param)
    (inherited : List Procedure) : ∀ (block : Block) (scope : Scope),
      scope ∈ block.scopes name parent params inherited →
      ∀ procedure ∈ scope.procedures, procedure ∈ block.allProcedures
  | ⟨_, _, procedures, _⟩, scope, member, procedure, declared => by
    rcases List.mem_cons.mp member with rfl | member
    · exact Procedure.mem_allOf_self procedures procedure declared
    · exact Procedure.mem_allOf name inherited procedures scope member procedure declared

theorem Procedure.mem_allOf (parent : String) (visible : List Procedure) :
    ∀ (procedures : List Procedure) (scope : Scope),
      scope ∈ Procedure.scopesOf parent visible procedures →
      ∀ procedure ∈ scope.procedures, procedure ∈ Procedure.allOf procedures
  | [], _, member, _, _ => by cases member
  | ⟨id, name, position, params, block⟩ :: rest, scope, member, procedure, declared => by
    refine List.mem_cons_of_mem _ (List.mem_append.mpr ?_)
    rcases List.mem_append.mp member with member | member
    · exact Or.inl (Block.mem_allProcedures name _ _ _ block scope member procedure declared)
    · exact Or.inr (Procedure.mem_allOf parent _ rest scope member procedure declared)

theorem Procedure.mem_allOf_self : ∀ (procedures : List Procedure),
    ∀ procedure ∈ procedures, procedure ∈ Procedure.allOf procedures
  | [], _, member => by cases member
  | ⟨id, name, position, params, block⟩ :: rest, procedure, member => by
    rcases List.mem_cons.mp member with rfl | member
    · exact List.mem_cons_self
    · exact List.mem_cons_of_mem _ (List.mem_append_right _
        (Procedure.mem_allOf_self rest procedure member))

end

mutual

theorem Block.exists_scope_of_mem (name : String) (parent : Option String) (params : List Param)
    (inherited : List Procedure) : ∀ (block : Block), ∀ procedure ∈ block.allProcedures,
      ∃ scope ∈ block.scopes name parent params inherited, scope.name = procedure.name
        ∧ scope.params = procedure.params
        ∧ scope.statements = procedure.block.body.statements
  | ⟨_, _, procedures, _⟩, procedure, member => by
    obtain ⟨scope, listed, same⟩ :=
      Procedure.exists_scope_of_mem name inherited procedures procedure member
    exact ⟨scope, List.mem_cons_of_mem _ listed, same⟩

theorem Procedure.exists_scope_of_mem (parent : String) (visible : List Procedure) :
    ∀ (procedures : List Procedure), ∀ procedure ∈ Procedure.allOf procedures,
      ∃ scope ∈ Procedure.scopesOf parent visible procedures, scope.name = procedure.name
        ∧ scope.params = procedure.params
        ∧ scope.statements = procedure.block.body.statements
  | [], _, member => by cases member
  | ⟨id, name, position, params, block⟩ :: rest, procedure, member => by
    rcases List.mem_cons.mp member with rfl | member
    · obtain ⟨bodyId, declarations, procedures, body⟩ := block
      exact ⟨_, List.mem_append_left _ List.mem_cons_self, rfl, rfl, rfl⟩
    · rcases List.mem_append.mp member with member | member
      · obtain ⟨scope, listed, same⟩ := Block.exists_scope_of_mem name (some parent) params
          (visible ++ [⟨id, name, position, params, block⟩]) block procedure member
        exact ⟨scope, List.mem_append_left _ listed, same⟩
      · obtain ⟨scope, listed, same⟩ := Procedure.exists_scope_of_mem parent
          (visible ++ [⟨id, name, position, params, block⟩]) rest procedure member
        exact ⟨scope, List.mem_append_right _ listed, same⟩

end

namespace Program

variable {program : Program} {tree : ScopeTree}

theorem exists_own_scope (program : Program) :
    ∃ scope ∈ program.scopes, scope.name = program.name
      ∧ scope.statements = program.block.body.statements := by
  obtain ⟨id, name, bodyId, declarations, procedures, body⟩ := program
  exact ⟨_, List.mem_cons_self, rfl, rfl⟩

theorem nodup_names_of_analyse (accepted : program.analyse = .ok tree) :
    (program.block.allProcedures.map Procedure.name).Nodup := by
  have distinct := (program.exists_analyse_iff.mp ⟨tree, accepted⟩).1.scopeNames
  rw [program.map_name_scopes, List.nodup_cons] at distinct
  exact distinct.2

/-- There is one declaration of each procedure name, and the index leads to it. -/
theorem index_of_analyse (accepted : program.analyse = .ok tree) {procedure : Procedure}
    (member : procedure ∈ program.block.allProcedures) :
    (program.block.index ∅)[procedure.name]? = some procedure
      ∧ (program.block.allProcedures.filter fun other => other.name = procedure.name)
        = [procedure] := by
  have distinct := nodup_names_of_analyse accepted
  have unique : ∀ other ∈ program.block.allProcedures,
      other.name = procedure.name → other = procedure :=
    fun other listed same => List.inj_on_of_nodup_map distinct listed member same
  constructor
  · rw [Block.index_eq_foldl, Procedure.getElem?_foldl_insert _ _ _ distinct]
    have found : program.block.allProcedures.find? (fun other => other.name = procedure.name)
        = some procedure :=
      (find?_eq_some_iff_of_nodup Procedure.name distinct _ _).mpr ⟨member, rfl⟩
    rw [found]
    rfl
  · have perm : (program.block.allProcedures.filter fun other => other.name = procedure.name).Perm
        [procedure] := by
      rw [List.perm_ext_iff_of_nodup (distinct.of_map.filter _) (List.nodup_singleton _)]
      intro other
      rw [List.mem_filter, List.mem_singleton]
      constructor
      · rintro ⟨listed, named⟩
        exact unique other listed (by simpa using named)
      · rintro rfl
        exact ⟨member, by simp⟩
    exact List.perm_singleton.mp perm

end Program
end MiniPascal
