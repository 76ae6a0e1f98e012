import MiniPascal.Proofs.Program.Correctness
import MiniPascal.Proofs.Scope.Analysed

/-! # Analysis of parsed programs

Names in a program that has been parsed are identifiers, and the names of the types are none. So the
analysis accepts such a program exactly if it is well formed. -/
set_option autoImplicit false
namespace MiniPascal

mutual

/-- The names declared in a block at any depth. -/
def Block.declaredNames : Block → List String
  | ⟨_, declarations, procedures, _⟩ =>
    declarations.flatMap (fun decl => decl.names.map Variable.name)
      ++ Procedure.declaredNamesOf procedures

/-- The names of procedures, and all that are declared in them. -/
def Procedure.declaredNamesOf : List Procedure → List String
  | [] => []
  | ⟨_, name, _, params, block⟩ :: rest =>
    name :: (params.map (fun param => param.declared.name) ++ block.declaredNames
      ++ Procedure.declaredNamesOf rest)

end

mutual

theorem Block.declaredNames_bare : ∀ block : Block, block.bare.declaredNames = block.declaredNames
  | ⟨_, declarations, procedures, _⟩ => by
    rw [Block.bare, Block.declaredNames, Block.declaredNames,
      Procedure.declaredNamesOf_bareAll procedures, List.flatMap_map]
    simp only [VarDecl.bare, List.map_map]
    rfl

theorem Procedure.declaredNamesOf_bareAll : ∀ procedures : List Procedure,
    Procedure.declaredNamesOf (Procedure.bareAll procedures) = Procedure.declaredNamesOf procedures
  | [] => rfl
  | ⟨_, name, _, params, block⟩ :: rest => by
    rw [Procedure.bareAll, Procedure.declaredNamesOf, Procedure.declaredNamesOf,
      Block.declaredNames_bare block, Procedure.declaredNamesOf_bareAll rest, List.map_map]
    rfl

end

namespace Procedure

theorem name_mem_declaredNamesOf : ∀ {procedures : List Procedure} {procedure : Procedure},
    procedure ∈ procedures → procedure.name ∈ declaredNamesOf procedures := by
  intro procedures
  induction procedures with
  | nil => intro procedure member; cases member
  | cons first rest ih =>
      intro procedure member
      obtain ⟨id, name, position, params, block⟩ := first
      rw [declaredNamesOf]
      rcases List.mem_cons.mp member with rfl | member
      · exact List.mem_cons_self
      · exact List.mem_cons_of_mem _ (List.mem_append_right _ (ih member))

end Procedure

mutual

/-- Whatever a scope declares is declared in its block or as one of its parameters. -/
theorem Block.mem_declaredNames (name : String) (parent : Option String) (params : List Param)
    (inherited : List Procedure) : ∀ (block : Block) (scope : Scope),
      scope ∈ block.scopes name parent params inherited → ∀ entry ∈ scope.symbols,
      entry.1 ∈ params.map (fun param => param.declared.name) ++ block.declaredNames
  | ⟨_, declarations, procedures, body⟩, scope, member, entry, inside => by
    rw [Block.declaredNames]
    rcases List.mem_cons.mp member with rfl | member
    · rcases List.mem_append.mp inside with inside | inside
      · obtain ⟨entry, declared, rfl⟩ := List.mem_map.mp inside
        rcases List.mem_append.mp declared with declared | declared
        · obtain ⟨param, among, rfl⟩ := List.mem_map.mp declared
          exact List.mem_append_left _ (List.mem_map.mpr ⟨param, among, rfl⟩)
        · obtain ⟨decl, among, declared⟩ := List.mem_flatMap.mp declared
          obtain ⟨declaredName, listed, rfl⟩ := List.mem_map.mp declared
          exact List.mem_append_right _ (List.mem_append_left _
            (List.mem_flatMap.mpr ⟨decl, among, List.mem_map.mpr ⟨declaredName, listed, rfl⟩⟩))
      · obtain ⟨procedure, among, rfl⟩ := List.mem_map.mp inside
        exact List.mem_append_right _ (List.mem_append_right _
          (Procedure.name_mem_declaredNamesOf among))
    · exact List.mem_append_right _ (List.mem_append_right _
        (Procedure.mem_declaredNamesOf name inherited procedures scope member entry inside))

theorem Procedure.mem_declaredNamesOf (parent : String) (visible : List Procedure) :
    ∀ (procedures : List Procedure) (scope : Scope),
      scope ∈ Procedure.scopesOf parent visible procedures → ∀ entry ∈ scope.symbols,
      entry.1 ∈ Procedure.declaredNamesOf procedures
  | [], _, member, _, _ => by cases member
  | ⟨id, name, position, params, block⟩ :: rest, scope, member, entry, inside => by
    rw [Procedure.declaredNamesOf]
    refine List.mem_cons_of_mem _ ?_
    rcases List.mem_append.mp member with member | member
    · exact List.mem_append_left _
        (Block.mem_declaredNames name _ params _ block scope member entry inside)
    · exact List.mem_append_right _
        (Procedure.mem_declaredNamesOf parent _ rest scope member entry inside)

end

/-! ## Names that are derived -/

namespace Grammar

/-- An identifier among the tokens is spelled like the name. -/
def Spelled (tokens : List Token) (name : String) : Prop :=
  ∃ token ∈ tokens, token.kind = .identifier ∧ token.text = name

theorem Spelled.of_subset {tokens others : List Token} {name : String}
    (spelled : Spelled tokens name) (among : tokens ⊆ others) : Spelled others name := by
  obtain ⟨token, member, word⟩ := spelled
  exact ⟨token, among member, word⟩

/-- What holds of items and their own tokens holds of all tokens of a list. -/
theorem Separated.forall {α : Type} {separator : TokenKind} {Item Holds : List Token → α → Prop}
    (each : ∀ ⦃tokens : List Token⦄ ⦃item : α⦄, Item tokens item → Holds tokens item)
    (grows : ∀ ⦃tokens others : List Token⦄ ⦃item : α⦄, Holds tokens item → tokens ⊆ others →
      Holds others item) {tokens : List Token} {items : List α}
    (derived : Separated separator Item tokens items) : ∀ item ∈ items, Holds tokens item := by
  induction derived with
  | one item => exact List.forall_mem_singleton.mpr (each item)
  | more item _ _ ih =>
      refine List.forall_mem_cons.mpr ⟨grows (each item) (by simp), fun other member => ?_⟩
      exact grows (ih other member) (by simp)

theorem Variables.spelled {tokens : List Token} {declared : List Variable × DataType}
    (derived : Variables tokens declared) : ∀ name ∈ declared.1, Spelled tokens name.name := by
  have each : ∀ ⦃tokens : List Token⦄ ⦃name : Variable⦄, Name tokens name →
      Spelled tokens name.name := by
    rintro _ _ (@⟨token, kind⟩)
    exact ⟨token, List.mem_singleton_self token, kind, rfl⟩
  cases derived with
  | mk separated _ _ =>
      intro name member
      have spelled := separated.forall each (fun _ _ _ spelled => spelled.of_subset) name member
      exact spelled.of_subset (by simp)

theorem VarDecls.spelled {tokens : List Token} {declarations : List VarDecl}
    (derived : VarDecls tokens declarations) :
    ∀ decl ∈ declarations, ∀ name ∈ decl.names, Spelled tokens name.name := by
  induction derived with
  | one first _ =>
      exact List.forall_mem_singleton.mpr
        fun name member => (first.spelled name member).of_subset (by simp)
  | more first _ _ ih =>
      refine List.forall_mem_cons.mpr ⟨?_, ?_⟩
      · exact fun name member => (first.spelled name member).of_subset (by simp)
      · exact fun decl among name member => (ih decl among name member).of_subset (by simp)

theorem Declarations.spelled {tokens : List Token} {declarations : List VarDecl}
    (derived : Declarations tokens declarations) :
    ∀ decl ∈ declarations, ∀ name ∈ decl.names, Spelled tokens name.name := by
  cases derived with
  | none => intro decl member; cases member
  | some _ declared =>
      exact fun decl among name member => (declared.spelled decl among name member).of_subset (by simp)

theorem ParamGroup.spelled {tokens : List Token} {params : List Param}
    (derived : ParamGroup tokens params) :
    ∀ param ∈ params, Spelled tokens param.declared.name := by
  cases derived with
  | mk declared =>
      intro param member
      obtain ⟨name, among, rfl⟩ := List.mem_map.mp member
      exact declared.spelled name among

theorem Params.spelled {tokens : List Token} {params : List Param}
    (derived : Params tokens params) : ∀ param ∈ params, Spelled tokens param.declared.name := by
  cases derived with
  | none => intro param member; cases member
  | some bracketed =>
      cases bracketed with
      | mk _ separated _ =>
          intro param member
          obtain ⟨group, among, inside⟩ := List.mem_flatten.mp member
          have spelled := separated.forall (fun _ _ group => group.spelled)
            (fun _ _ _ all among param member => (all param member).of_subset among) group among
          exact (spelled param inside).of_subset (by simp)

mutual

theorem Block.spelled : ∀ {before tokens : List Token} {block : MiniPascal.Block},
    Block before tokens block → ∀ name ∈ block.declaredNames, Spelled tokens name
  | _, _, _, .mk declared nested _, name, member => by
    rcases List.mem_append.mp member with member | member
    · obtain ⟨decl, among, inside⟩ := List.mem_flatMap.mp member
      obtain ⟨declaredName, listed, rfl⟩ := List.mem_map.mp inside
      exact (declared.spelled decl among declaredName listed).of_subset (by simp)
    · exact (Procedures.spelled nested name member).of_subset (by simp)

theorem Procedures.spelled : ∀ {before tokens : List Token} {procedures : List Procedure},
    Procedures before tokens procedures →
    ∀ name ∈ Procedure.declaredNamesOf procedures, Spelled tokens name
  | _, _, _, .none, name, member => by cases member
  | _, _, _, .more _ kind listed _ block _ others, name, member => by
    rcases List.mem_cons.mp member with rfl | member
    · exact ⟨_, by simp, kind, rfl⟩
    · rcases List.mem_append.mp member with member | member
      · rcases List.mem_append.mp member with member | member
        · obtain ⟨param, among, rfl⟩ := List.mem_map.mp member
          exact (listed.spelled param among).of_subset fun token inside => by simp [inside]
        · exact (Block.spelled block name member).of_subset fun token inside => by simp [inside]
      · exact (Procedures.spelled others name member).of_subset
          fun token inside => by simp [inside]

end

end Grammar

/-! ## Parsed programs -/

namespace Program

variable {source : String} {program : Program} {session : Session}

/-- The names of the types are reserved, so a parsed program declares none of them. -/
theorem avoidsTypes_of_parse
    (parsed : Parser.parse (Session.ofString source) = .ok program session) :
    program.AvoidsTypes := by
  obtain ⟨used, _, _, words, derived⟩ := Parser.sound_parse parsed
  intro scope member entry inside dataType same
  have declared := Block.mem_declaredNames program.name none [] [] program.block scope member entry
    inside
  rw [List.map_nil, List.nil_append, ← Block.declaredNames_bare] at declared
  have spelled : Grammar.Spelled used entry.1 := by
    generalize bare : program.bare = tree at derived
    cases derived with
    | mk _ _ _ block _ =>
        injection bare with _ _ same
        rw [same] at declared
        exact (block.spelled _ declared).of_subset fun token inside => by simp [inside]
  obtain ⟨token, among, kind, text⟩ := spelled
  have word := words token among kind
  rw [text, ← same] at word
  cases dataType <;> exact absurd word (by decide)

/-- Analysis of a parsed program succeeds exactly if the program is well formed, and then yields the
tree of its scopes: one table for each, below the table of the scope around it, with the types and
all that the scope declares. -/
theorem analyse_iff_wellFormed
    (parsed : Parser.parse (Session.ofString source) = .ok program session) :
    ((∃ tree, program.analyse = .ok tree) ↔ program.WellFormed)
      ∧ ∀ tree, program.analyse = .ok tree → tree.root = program.name
        ∧ (∀ name, (tree.table? name).isSome ↔ ∃ scope ∈ program.scopes, scope.name = name)
        ∧ ∀ scope ∈ program.scopes, tree.parent? scope.name = scope.parent
          ∧ ∃ table, tree.table? scope.name = some table ∧ table.name = scope.name
            ∧ ∀ name meaning, table.find? name = some meaning
              ↔ (∃ dataType : DataType, dataType.name = name ∧ meaning = .typeName dataType)
                ∨ (name, meaning) ∈ scope.symbols := by
  constructor
  · rw [program.exists_analyse_iff]
    exact and_iff_left (avoidsTypes_of_parse parsed)
  · intro tree accepted
    have holds := holds_of_analyse accepted
    refine ⟨holds.outermost, fun name => ?_, fun scope member => ?_⟩
    · rw [holds.scopes, program.isScope_entries]
    · exact ⟨parent_of_analyse accepted member, table_of_analyse accepted member⟩

/-- A text with a nested scope. -/
def nested : String :=
  "PROGRAM p; VAR x: REAL; PROCEDURE q(y: INTEGER); BEGIN y := 1 END; BEGIN q(x) END."

theorem analyse_iff_wellFormed_nested : ∃ program session tree,
    Parser.parse (Session.ofString nested) = .ok program session
      ∧ program.WellFormed ∧ program.analyse = .ok tree ∧ tree.root = program.name := by
  have accepted : (match Parser.parse (Session.ofString nested) with
      | .ok program _ => decide program.WellFormed
      | .error _ _ => false) = true := by decide +kernel
  cases parsed : Parser.parse (Session.ofString nested) with
  | error error session =>
      rw [parsed] at accepted
      cases accepted
  | ok program session =>
      rw [parsed] at accepted
      have wellFormed : program.WellFormed := of_decide_eq_true accepted
      obtain ⟨tree, analysed⟩ := (analyse_iff_wellFormed parsed).1.mpr wellFormed
      exact ⟨program, session, tree, rfl, wellFormed, analysed,
        ((analyse_iff_wellFormed parsed).2 tree analysed).1⟩

end Program
end MiniPascal
