import MiniPascal.Pipeline

/-! # Depth of calls

The depth that calls may be nested to is no part of what a program means. A run that is not stopped
for it has the same result at every greater depth. -/
set_option autoImplicit false
namespace MiniPascal

namespace Execute

variable {α β : Type}

/-- The second computation does what the first one does, unless the first is stopped for depth. -/
def Deepens (shallow deep : Execute α) : Prop :=
  ∀ machine, (∃ reached, shallow machine = .error .depthExceeded reached)
    ∨ deep machine = shallow machine

namespace Deepens

theorem refl (body : Execute α) : Deepens body body :=
  fun _ => .inr rfl

theorem trans {first second third : Execute α} (one : Deepens first second)
    (other : Deepens second third) : Deepens first third := by
  intro machine
  cases one machine with
  | inl stopped => exact .inl stopped
  | inr same =>
      cases other machine with
      | inl stopped => exact .inl (same ▸ stopped)
      | inr again => exact .inr (again.trans same)

theorem bind {shallow deep : Execute α} {further further' : α → Execute β}
    (first : Deepens shallow deep) (second : ∀ value, Deepens (further value) (further' value)) :
    Deepens (shallow >>= further) (deep >>= further') := by
  intro machine
  simp only [Bind.bind, EStateM.bind]
  cases first machine with
  | inl stopped =>
      obtain ⟨reached, ended⟩ := stopped
      exact .inl ⟨reached, by rw [ended]⟩
  | inr same =>
      rw [same]
      cases shallow machine with
      | ok value reached => exact second value reached
      | error halt reached => exact .inr rfl

theorem framed {shallow deep : Execute Unit} (body : Deepens shallow deep) (frame : Frame) :
    Deepens (Execute.framed frame shallow) (Execute.framed frame deep) := by
  intro machine
  simp only [Execute.framed]
  cases body (machine.push frame) with
  | inl stopped =>
      obtain ⟨reached, ended⟩ := stopped
      exact .inl ⟨reached.pop.2, by rw [ended]⟩
  | inr same => exact .inr (by rw [same])

end Deepens
end Execute

section Statements

variable {shallow deep : String → List Expr → Execute Unit}

open Execute

mutual

theorem Statement.deepens (calls : ∀ name arguments, Deepens (shallow name arguments)
    (deep name arguments)) :
    ∀ statement : Statement, Deepens (statement.execute shallow) (statement.execute deep)
  | .compound id statements => by
    rw [Statement.execute, Statement.execute]
    exact Deepens.bind (.refl _) fun _ => Statement.deepens_all calls statements
  | .assignment id target value => by
    rw [Statement.execute, Statement.execute]
    exact .refl _
  | .call id name position arguments => by
    rw [Statement.execute, Statement.execute]
    exact Deepens.bind (.refl _) fun _ => calls name arguments
  | .empty id => by
    rw [Statement.execute, Statement.execute]
    exact .refl _

theorem Statement.deepens_all (calls : ∀ name arguments, Deepens (shallow name arguments)
    (deep name arguments)) :
    ∀ statements : List Statement,
      Deepens (Statement.executeAll shallow statements) (Statement.executeAll deep statements)
  | [] => by
    rw [Statement.executeAll, Statement.executeAll]
    exact .refl _
  | statement :: rest => by
    rw [Statement.executeAll, Statement.executeAll]
    exact Deepens.bind (Statement.deepens calls statement) fun _ =>
      Statement.deepens_all calls rest

end

end Statements

namespace Interpreter

open Execute

theorem deepens_call (interpreter : Interpreter) {shallow deep : Procedure → Frame → Execute Unit}
    (invokes : ∀ procedure frame, Deepens (shallow procedure frame) (deep procedure frame))
    (name : String) (arguments : List Expr) :
    Deepens (interpreter.call shallow name arguments) (interpreter.call deep name arguments) := by
  rw [call, call]
  apply Deepens.bind (.refl _)
  intro frame
  cases interpreter.scopes.findProcedure? frame.scope name with
  | none => exact .refl _
  | some header =>
      simp only
      cases interpreter.procedures[header.name]? with
      | none => exact .refl _
      | some procedure =>
          simp only
          split
          · exact Deepens.bind (.refl _) fun values => invokes procedure _
          · exact .refl _

theorem deepens_invoke_succ (interpreter : Interpreter) (depth : Nat) :
    ∀ procedure frame, Deepens (interpreter.invoke depth procedure frame)
      (interpreter.invoke (depth + 1) procedure frame) := by
  induction depth with
  | zero =>
      intro procedure frame machine
      exact .inl ⟨machine, rfl⟩
  | succ depth ih =>
      intro procedure frame
      rw [invoke, invoke]
      have body := Statement.deepens_all (interpreter.deepens_call ih)
        procedure.block.body.statements
      exact Deepens.bind (body.framed frame) fun _ => .refl _

theorem deepens_invoke (interpreter : Interpreter) {depth deeper : Nat} (le : depth ≤ deeper) :
    ∀ procedure frame, Deepens (interpreter.invoke depth procedure frame)
      (interpreter.invoke deeper procedure frame) := by
  induction le with
  | refl => exact fun _ _ => .refl _
  | step _ ih =>
      intro procedure frame
      exact (ih procedure frame).trans (interpreter.deepens_invoke_succ _ procedure frame)

theorem deepens_executeProgram (interpreter : Interpreter) {depth deeper : Nat}
    (le : depth ≤ deeper) :
    Deepens (interpreter.executeProgram depth) (interpreter.executeProgram deeper) :=
  Deepens.framed (Statement.deepens_all
    (interpreter.deepens_call (interpreter.deepens_invoke le)) _) _

/-- A run that is not stopped for depth is the run at every greater depth. -/
theorem run_deeper (interpreter : Interpreter) {depth deeper : Nat} (le : depth ≤ deeper)
    (returns : (interpreter.run depth).1 ≠ .error .depthExceeded) :
    interpreter.run deeper = interpreter.run depth := by
  cases interpreter.deepens_executeProgram le
      ⟨interpreter.machine.stack, [.started interpreter.program.name]⟩ with
  | inl stopped =>
      obtain ⟨reached, ended⟩ := stopped
      simp only [run, ended] at returns
      exact absurd rfl returns
  | inr same => simp only [run, same]

/-- Two runs that are not stopped for depth are the same, whatever the depths were. -/
theorem run_eq_run (interpreter : Interpreter) {depth other : Nat}
    (returns : (interpreter.run depth).1 ≠ .error .depthExceeded)
    (returns' : (interpreter.run other).1 ≠ .error .depthExceeded) :
    interpreter.run depth = interpreter.run other := by
  cases Nat.le_total depth other with
  | inl le => exact (interpreter.run_deeper le returns).symm
  | inr le => exact interpreter.run_deeper le returns'

end Interpreter

/-! ## Programs and texts -/

theorem Program.interpret_deeper (program : Program) {depth deeper : Nat} (le : depth ≤ deeper)
    (returns : (program.interpret depth).result ≠ .error (.halted .depthExceeded)) :
    program.interpret deeper = program.interpret depth := by
  rw [interpret, interpret]
  cases analysed : program.analyse with
  | error diagnoses => rfl
  | ok scopes =>
      have ran : ((Interpreter.ofProgram program scopes).run depth).1
          ≠ .error .depthExceeded := by
        intro stopped
        apply returns
        rw [interpret, analysed]
        rcases ended : (Interpreter.ofProgram program scopes).run depth with ⟨result, interpreter⟩
        rw [ended] at stopped
        obtain rfl : result = .error .depthExceeded := stopped
        simp only [ended]
      simp only [(Interpreter.ofProgram program scopes).run_deeper le ran]

/-- What comes of a text, its log included, is the same at every depth that is enough for it. -/
theorem interpretWithin_deeper {source : String} {depth deeper : Nat} (le : depth ≤ deeper)
    (returns : (interpretWithin depth source).result ≠ .error (.halted .depthExceeded)) :
    interpretWithin deeper source = interpretWithin depth source := by
  rw [interpretWithin] at returns
  rw [interpretWithin, interpretWithin]
  cases reading : readProgram source with
  | mk result log =>
      cases result with
      | error failure => rfl
      | ok program =>
          rw [reading] at returns
          simp only [program.interpret_deeper le returns]

end MiniPascal
