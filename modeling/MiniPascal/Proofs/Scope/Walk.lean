import MiniPascal.Proofs.Scope.Tables

/-! # Walking over a program without a fault

As long as an analysis has found no fault, its state is known exactly: the tables hold the ledger of
the declarations walked over, the open scopes form a lineage, and the procedures in reach are those
that the listed scope can see. `Stage` says what walking over some visits does: whether a fault is
found depends on the added entries being fresh and the references of the added scopes being good,
and without a fault the state is known again. Stages are put together in the order of the walk. -/
set_option autoImplicit false
namespace MiniPascal

namespace Visit

/-- What is wrong with a reference, in a scope of a tree. -/
def faults (tree : ScopeTree) (scope : String) : Visit → List Diagnosis
  | .call _ name position arguments => tree.checkCall scope name position arguments.length
  | .used name => tree.checkVariable scope name
  | _ => []

/-- Visits of calls. -/
def isCall : Visit → Bool
  | .call _ _ _ _ => true
  | _ => false

/-- Visits that change neither the tables nor the open scopes. -/
def refers : Visit → Bool
  | .varDeclStart _ | .param _ | .procedureStart _ | .procedureEnd _ => false
  | _ => true

end Visit

namespace Analysis

theorem step_of_refers (analysis : Analysis) {visit : Visit} (refers : visit.refers) :
    analysis.step visit
      = analysis.report (visit.faults analysis.scopes analysis.scope) := by
  cases visit <;> simp_all [step, report, Visit.faults, Visit.refers]

/-- Walking over references only adds what is wrong with each of them. -/
theorem foldl_step_of_refers : ∀ (visits : List Visit) (analysis : Analysis),
    (∀ visit ∈ visits, visit.refers) →
      visits.foldl step analysis
        = analysis.report (visits.flatMap (Visit.faults analysis.scopes analysis.scope)) := by
  intro visits
  induction visits with
  | nil => intro analysis _; simp [report]
  | cons visit rest ih =>
      intro analysis refer
      rw [List.foldl_cons, ih _ (fun other member => refer other (List.mem_cons_of_mem _ member)),
        step_of_refers analysis (refer visit List.mem_cons_self)]
      simp [report, scope]

/-- Faults are only ever added. -/
theorem diagnoses_step (analysis : Analysis) (visit : Visit) :
    ∃ more, (analysis.step visit).diagnoses = analysis.diagnoses ++ more := by
  have declared : ∀ (before : Analysis) (names : List String) (dataType : DataType),
      ∃ more, (before.declare names dataType).diagnoses = before.diagnoses ++ more := by
    intro before names dataType
    simp only [declare]
    split
    · exact ⟨[], by simp⟩
    · exact ⟨_, rfl⟩
  have typed : ∀ (before : Analysis) (diagnoses : List Diagnosis) (names : List String)
      (dataType : DataType), ∃ more,
        ((before.report diagnoses).declare names dataType).diagnoses = before.diagnoses ++ more := by
    intro before diagnoses names dataType
    obtain ⟨more, same⟩ := declared (before.report diagnoses) names dataType
    exact ⟨diagnoses ++ more, by rw [same, ← List.append_assoc]; rfl⟩
  cases visit with
  | varDeclStart decl => exact typed _ _ _ _
  | param param => exact typed _ _ _ _
  | procedureStart procedure => exact ⟨_, rfl⟩
  | procedureEnd procedure => exact ⟨[], by simp [step]⟩
  | call id name position arguments => exact ⟨_, rfl⟩
  | used name => exact ⟨_, rfl⟩
  | _ => exact ⟨[], by simp [step]⟩

theorem clean_of_foldl : ∀ (visits : List Visit) (analysis : Analysis),
    (visits.foldl step analysis).diagnoses = [] → analysis.diagnoses = [] := by
  intro visits
  induction visits with
  | nil => intro analysis clean; exact clean
  | cons visit rest ih =>
      intro analysis clean
      obtain ⟨more, same⟩ := analysis.diagnoses_step visit
      have later := ih (analysis.step visit) clean
      rw [same] at later
      exact (List.append_eq_nil_iff.mp later).1

/-- A state without faults: the tables hold the ledger, and these scopes are open. -/
structure Ready (root : String) (ledger : List Entry) (opened : List String)
    (analysis : Analysis) : Prop where
  clean : analysis.diagnoses = []
  holds : analysis.scopes.Holds root ledger
  kept : WellKept root ledger
  open_eq : analysis.opened = opened
  lineage : Lineage root ledger opened
  short : opened.length ≤ ledger.countP Entry.opens + 1

end Analysis

/-- The procedures declared in open scopes are exactly the visible ones. -/
def Offers (ledger : List Entry) (opened : List String) (visible : List Procedure) : Prop :=
  ∀ name header, (∃ place ∈ opened, Entry.symbol place name (.procedure header) ∈ ledger)
    ↔ ∃ procedure ∈ visible, procedure.name = name ∧ procedure.header = header

/-- The names declared in one scope are exactly the listed ones. -/
def Owns (ledger : List Entry) (scope : String) (symbols : List (String × Symbol)) : Prop :=
  ∀ name meaning, Entry.symbol scope name meaning ∈ ledger ↔ (name, meaning) ∈ symbols

namespace Analysis

/-- The state in which the statements of a scope are walked over. What it has declared so far stays
in the final ledger. -/
def InBody (root : String) (final : List Entry) (scope : Scope) (analysis : Analysis) : Prop :=
  ∃ ledger outer, analysis.Ready root ledger (scope.name :: outer)
    ∧ Owns ledger scope.name scope.symbols
    ∧ Offers ledger (scope.name :: outer) scope.visible ∧ ledger <+: final

/-- What walking over some visits does, starting without a fault from the given ledger: `added` are
the declarations met, `scopes` the scopes whose statements lie in these visits, and `opened` the
scopes that are open afterwards. -/
structure Stage (root : String) (ledger : List Entry) (before : Analysis) (visits : List Visit)
    (added : List Entry) (scopes : List Scope) (opened : List String) : Prop where
  passes : (visits.foldl step before).diagnoses = []
    ↔ Extends root ledger added ∧ ∀ scope ∈ scopes, scope.DeclaresMentions ∧ scope.ResolvesCalls
  ready : (visits.foldl step before).diagnoses = [] →
    Ready root (ledger ++ added) opened (visits.foldl step before)
  bodies : (visits.foldl step before).diagnoses = [] → ∀ scope ∈ scopes, ∃ earlier later,
    visits = earlier ++ Statement.visitsOf scope.statements ++ later
      ∧ InBody root (ledger ++ added) scope (earlier.foldl step before)
  calls : (visits.foldl step before).diagnoses = [] → ∀ earlier visit later,
    visits = earlier ++ visit :: later → visit.isCall → ∃ scope ∈ scopes, ∃ start inside rest,
      earlier = start ++ inside ∧ Statement.visitsOf scope.statements = inside ++ visit :: rest
      ∧ InBody root (ledger ++ added) scope (start.foldl step before)

theorem InBody.mono {root : String} {ledger final : List Entry} {scope : Scope}
    {analysis : Analysis} (inBody : InBody root ledger scope analysis) (more : ledger <+: final) :
    InBody root final scope analysis := by
  obtain ⟨known, outer, ready, owns, offers, inside⟩ := inBody
  exact ⟨known, outer, ready, owns, offers, inside.trans more⟩

theorem Stage.append {root : String} {ledger added more : List Entry} {before : Analysis}
    {first second : List Visit} {inner others : List Scope} {between opened : List String}
    (stage : Stage root ledger before first added inner between)
    (next : Ready root (ledger ++ added) between (first.foldl step before) →
      Stage root (ledger ++ added) (first.foldl step before) second more others opened) :
    Stage root ledger before (first ++ second) (added ++ more) (inner ++ others) opened := by
  have clean : ((first ++ second).foldl step before).diagnoses = [] →
      (first.foldl step before).diagnoses = [] := by
    rw [List.foldl_append]
    exact clean_of_foldl second _
  have further : ledger ++ added <+: ledger ++ (added ++ more) := by
    rw [← List.append_assoc]
    exact List.prefix_append _ _
  refine ⟨?_, ?_, ?_, ?_⟩
  · simp only [extends_append, List.forall_mem_append]
    constructor
    · intro done
      have half := clean done
      have later := next (stage.ready half)
      rw [List.foldl_append] at done
      obtain ⟨fresh, good⟩ := stage.passes.mp half
      obtain ⟨fresher, better⟩ := later.passes.mp done
      exact ⟨⟨fresh, fresher⟩, good, better⟩
    · rintro ⟨⟨fresh, fresher⟩, good, better⟩
      have half := stage.passes.mpr ⟨fresh, good⟩
      rw [List.foldl_append]
      exact (next (stage.ready half)).passes.mpr ⟨fresher, better⟩
  · intro done
    have later := next (stage.ready (clean done))
    rw [List.foldl_append] at done ⊢
    rw [← List.append_assoc]
    exact later.ready done
  · intro done scope member
    have half := clean done
    rcases List.mem_append.mp member with member | member
    · obtain ⟨earlier, later, split, state⟩ := stage.bodies half scope member
      exact ⟨earlier, later ++ second, by simp [split], state.mono further⟩
    · have after := next (stage.ready half)
      rw [List.foldl_append] at done
      obtain ⟨earlier, later, split, state⟩ := after.bodies done scope member
      refine ⟨first ++ earlier, later, by simp [split], ?_⟩
      rw [List.foldl_append, ← List.append_assoc]
      exact state
  · intro done earlier visit later split call
    have half := clean done
    have after := next (stage.ready half)
    rw [List.foldl_append] at done
    have within : ∀ start, second = start ++ visit :: later → earlier = first ++ start →
        ∃ scope ∈ inner ++ others, ∃ start inside rest, earlier = start ++ inside
          ∧ Statement.visitsOf scope.statements = inside ++ visit :: rest
          ∧ InBody root (ledger ++ (added ++ more)) scope (start.foldl step before) := by
      intro start rest same
      obtain ⟨scope, member, before', inside, beyond, parts, statements, state⟩ :=
        after.calls done start visit later rest call
      refine ⟨scope, List.mem_append_right _ member, first ++ before', inside, beyond,
        by simp [same, parts], statements, ?_⟩
      rw [List.foldl_append, ← List.append_assoc]
      exact state
    rcases List.append_eq_append_iff.mp split with ⟨start, same, rest⟩ | ⟨tail, same, rest⟩
    · exact within start rest same
    · cases tail with
      | nil => exact within [] (by simpa using rest.symm) (by simpa using same.symm)
      | cons head tail =>
          injection rest with heads tails
          subst heads
          obtain ⟨scope, member, start, inside, beyond, parts, statements, state⟩ :=
            stage.calls half earlier visit tail same call
          exact ⟨scope, List.mem_append_left _ member, start, inside, beyond, parts, statements,
            state.mono further⟩

end Analysis
end MiniPascal
