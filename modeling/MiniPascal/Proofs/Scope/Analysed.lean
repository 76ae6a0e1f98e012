import MiniPascal.Proofs.Scope.Stages

/-! # Analysed programs

An analysis accepts a program exactly if it is well formed and declares no name of a type, and the
scope tree that it yields is the list of the program's scopes. -/
set_option autoImplicit false
namespace MiniPascal

namespace Program

variable {program : Program} {tree : ScopeTree}

theorem stage (program : Program) :
    Analysis.Stage program.name [] (Analysis.ofProgram program) program.visits program.entries
      program.scopes [program.name] := by
  have ready : Analysis.Ready program.name [] [program.name] (Analysis.ofProgram program) :=
    ⟨rfl, ScopeTree.holds_ofRoot program.name, WellKept.nil program.name, rfl, rfl, by simp⟩
  have begun := Analysis.Stage.inert ready [.programStart program]
    (by simp [Visit.isCall, Analysis.step])
  have walked := begun.append fun state =>
    Analysis.Block.stage program.name none [] [] [] program.block state (by simp)
      (by simp [Offers])
  have whole := walked.append fun state => Analysis.Stage.inert state [.programEnd program]
    (by simp [Visit.isCall, Analysis.step])
  simpa [Program.visits, Program.entries, Program.scopes] using whole

theorem analyse_eq_ok_iff (program : Program) (tree : ScopeTree) :
    program.analyse = .ok tree
      ↔ (Analysis.run program).diagnoses = [] ∧ (Analysis.run program).scopes = tree := by
  rw [analyse]
  generalize Analysis.run program = final
  obtain ⟨scopes, opened, diagnoses⟩ := final
  cases diagnoses <;> simp

theorem ready_of_analyse (accepted : program.analyse = .ok tree) :
    Analysis.Ready program.name program.entries [program.name] (Analysis.run program)
      ∧ (Analysis.run program).scopes = tree := by
  obtain ⟨clean, same⟩ := (program.analyse_eq_ok_iff tree).mp accepted
  exact ⟨program.stage.ready clean, same⟩

/-- The tree of an analysed program holds its ledger. -/
theorem holds_of_analyse (accepted : program.analyse = .ok tree) :
    tree.Holds program.name program.entries := by
  obtain ⟨ready, same⟩ := ready_of_analyse accepted
  exact same ▸ ready.holds

theorem kept_of_analyse (accepted : program.analyse = .ok tree) :
    WellKept program.name program.entries :=
  (ready_of_analyse accepted).1.kept

/-- No declared name is the name of a type. -/
def AvoidsTypes (program : Program) : Prop :=
  ∀ scope ∈ program.scopes, ∀ entry ∈ scope.symbols, ∀ dataType : DataType,
    dataType.name ≠ entry.1

/-- A program is accepted exactly if it is well formed and its names are none of the types'. -/
theorem exists_analyse_iff (program : Program) :
    (∃ tree, program.analyse = .ok tree) ↔ program.WellFormed ∧ program.AvoidsTypes := by
  have accepted : (∃ tree, program.analyse = .ok tree) ↔ (Analysis.run program).diagnoses = [] := by
    constructor
    · rintro ⟨tree, accepted⟩
      exact ((program.analyse_eq_ok_iff tree).mp accepted).1
    · intro clean
      exact ⟨_, (program.analyse_eq_ok_iff _).mpr ⟨clean, rfl⟩⟩
  rw [accepted]
  refine program.stage.passes.trans ?_
  rw [program.extends_entries_iff]
  constructor
  · rintro ⟨⟨scopeNames, names⟩, references⟩
    exact ⟨⟨scopeNames, fun scope member => (names scope member).1,
      fun scope member => (references scope member).1,
      fun scope member => (references scope member).2⟩,
      fun scope member => (names scope member).2⟩
  · rintro ⟨wellFormed, avoids⟩
    exact ⟨⟨wellFormed.scopeNames,
      fun scope member => ⟨wellFormed.declaredNames scope member, avoids scope member⟩⟩,
      fun scope member => ⟨wellFormed.mentions scope member, wellFormed.calls scope member⟩⟩

/-- The table of a listed scope holds the built-in types and what the scope declares. -/
theorem table_of_analyse (accepted : program.analyse = .ok tree) {scope : Scope}
    (member : scope ∈ program.scopes) :
    ∃ table, tree.table? scope.name = some table ∧ table.name = scope.name
      ∧ ∀ name meaning, table.find? name = some meaning
        ↔ BuiltIn name meaning ∨ (name, meaning) ∈ scope.symbols := by
  have known := (program.isScope_entries scope.name).mpr ⟨scope, member, rfl⟩
  obtain ⟨table, found, held⟩ := (holds_of_analyse accepted).exists_table known
  refine ⟨table, found, held.name, fun name meaning => ?_⟩
  rw [held.find?, program.symbol_mem_entries]
  refine or_congr_right ⟨?_, fun inside => ⟨scope, member, rfl, inside⟩⟩
  rintro ⟨other, listed, same, inside⟩
  have distinct := ((program.extends_entries_iff).mp (kept_of_analyse accepted).fresh).1
  have equal : other = scope := List.inj_on_of_nodup_map distinct listed member same
  exact equal ▸ inside

theorem parent_of_analyse (accepted : program.analyse = .ok tree) {scope : Scope}
    (member : scope ∈ program.scopes) : tree.parent? scope.name = scope.parent := by
  refine Option.ext fun parent => ?_
  rw [(holds_of_analyse accepted).parents,
    program.parent_eq_some_iff (kept_of_analyse accepted) member]

end Program
end MiniPascal
