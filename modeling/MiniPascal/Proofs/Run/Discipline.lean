import MiniPascal.Proofs.Run.Activations
import MiniPascal.Proofs.Run.Depth
import MiniPascal.Proofs.Run.Safety

/-! # The stack over a whole run

A run is one activation of the program on the stack that it finds. It leaves that stack whether it
succeeds or not, so an interpreter that has run is as good as a new one. What the log says about
entering and leaving scopes is a sequence of brackets. -/
set_option autoImplicit false
namespace MiniPascal

/-- Records of entering and leaving scopes, from inside a given number of scopes. Each record of
entering has its record of leaving the same scope, says how many scopes are open then, and the
records between the two nest in the same way. -/
inductive Bracketed : Nat → List LogRecord → Prop where
  | nil (level : Nat) : Bracketed level []
  | pair {level : Nat} {opened closed : Frame} {inner rest : List LogRecord} :
    closed.scope = opened.scope → Bracketed (level + 1) inner → Bracketed level rest →
      Bracketed level
        (⟨.debug, "Entering scope '" ++ opened.scope ++ "' (depth " ++ (level + 1).repr ++ ")"⟩
          :: (inner ++ ⟨.debug, "Leaving " ++ closed.shown⟩ :: rest))

namespace Event

/-- What a log says at the level of entering and leaving scopes. -/
def brackets (events : List Event) : List LogRecord :=
  (events.filterMap Event.record?).filter fun record => record.level = .debug

theorem brackets_append (first second : List Event) :
    brackets (first ++ second) = brackets first ++ brackets second := by
  simp [brackets]

theorem brackets_executing (stack : List Frame) (statement : Statement) (events : List Event) :
    brackets (.executing stack statement :: events) = brackets events := by
  cases statement <;> rfl

theorem brackets_entered (callee final : Frame) (level : Nat) (inner events : List Event) :
    brackets (.entered callee level :: (inner ++ .left final :: events))
      = ⟨.debug, "Entering scope '" ++ callee.scope ++ "' (depth " ++ level.repr ++ ")"⟩
        :: (brackets inner ++ ⟨.debug, "Leaving " ++ final.shown⟩ :: brackets events) := by
  rw [← List.singleton_append, brackets_append, brackets_append]
  rfl

end Event

theorem Activation.bracketed {below : List Frame} {frame last : Frame} {events : List Event}
    (activation : Activation below frame events last) :
    Bracketed (below.length + 1) (Event.brackets events) := by
  induction activation with
  | idle below frame => exact .nil _
  | executing statement _ ih =>
      rw [Event.brackets_executing]
      exact ih
  | evaluated _ _ _ ih => exact ih
  | assigned _ _ _ ih => exact ih
  | called body _ within behind =>
      rw [Event.brackets_entered]
      exact .pair body.scope_eq within behind

namespace Interpreter

open Execute

/-- A run is an activation of the program on the stack that is there, begun and ended with the
program's own frame. -/
theorem run_eq (interpreter : Interpreter) (depth : Nat) :
    ∃ inner final reached,
      Activation interpreter.machine.stack (Frame.ofScope interpreter.program.name) inner final
        ∧ reached = Machine.noteAll
          ⟨interpreter.machine.stack, [.started interpreter.program.name]⟩
          (.entered (Frame.ofScope interpreter.program.name)
            (interpreter.machine.stack.length + 1) :: (inner ++ [.left final]))
        ∧ interpreter.run depth
          = (match Statement.executeAll (interpreter.call (interpreter.invoke depth))
                interpreter.program.block.body.statements
                (Machine.push ⟨interpreter.machine.stack, [.started interpreter.program.name]⟩
                  (Frame.ofScope interpreter.program.name)) with
              | .ok _ _ => .ok ⟨final, reached.completed, reached.values⟩
              | .error halt _ => .error halt,
            { interpreter with machine := reached }) := by
  obtain ⟨inner, final, activation, done⟩ :=
    (interpreter.acts_body depth interpreter.program.block.body.statements).framed
      (Frame.ofScope interpreter.program.name)
      ⟨interpreter.machine.stack, [.started interpreter.program.name]⟩
  refine ⟨inner, final, _, activation, rfl, ?_⟩
  simp only [run, executeProgram, done]
  cases Statement.executeAll (interpreter.call (interpreter.invoke depth))
    interpreter.program.block.body.statements (Machine.push _ _) <;> rfl

/-- Bodies are executed by the scopes and procedures alone, not by what the machine has done. -/
theorem invoke_eq (interpreter : Interpreter) (machine : Machine) (depth : Nat) :
    ({ interpreter with machine := machine } : Interpreter).invoke depth
      = interpreter.invoke depth := by
  induction depth with
  | zero => rfl
  | succ depth ih =>
      funext procedure frame
      rw [invoke, invoke, ih]
      rfl

/-- An interpreter runs in the same way on every machine with the same stack. -/
theorem run_congr (interpreter : Interpreter) (machine : Machine)
    (same : machine.stack = interpreter.machine.stack) (depth : Nat) :
    ({ interpreter with machine := machine } : Interpreter).run depth = interpreter.run depth := by
  rw [run, run, executeProgram, executeProgram, invoke_eq]
  simp only [same]
  rfl

/-- Runs leave nothing on the stack and change nothing but the record. -/
theorem Started.eq {program : Program} {tree : ScopeTree} {interpreter : Interpreter}
    (started : Started program tree interpreter) :
    ∃ machine : Machine, machine.stack = []
      ∧ interpreter = { ofProgram program tree with machine := machine } := by
  induction started with
  | new => exact ⟨Machine.idle, rfl, rfl⟩
  | again depth _ ih =>
      obtain ⟨machine, empty, rfl⟩ := ih
      obtain ⟨inner, final, reached, _, rfl, done⟩ :=
        run_eq { ofProgram program tree with machine := machine } depth
      refine ⟨_, ?_, congrArg Prod.snd done⟩
      exact empty

theorem Started.run_eq {program : Program} {tree : ScopeTree} {interpreter : Interpreter}
    (started : Started program tree interpreter) (depth : Nat) :
    interpreter.run depth = (ofProgram program tree).run depth := by
  obtain ⟨machine, empty, rfl⟩ := started.eq
  exact run_congr (ofProgram program tree) machine empty depth

/-- Every run leaves an empty stack, however it ends. Each frame that it put on it took off once,
the last one first, which the log shows by brackets that nest and count their depth. And no run
before it makes a difference: its result is that of a new interpreter, also if the two were
allowed to nest calls to different depths. -/
theorem run_disciplined {program : Program} {tree : ScopeTree} {interpreter : Interpreter}
    (started : Started program tree interpreter) (depth : Nat) :
    (interpreter.run depth).2.callDepth = 0
      ∧ (∃ inner last, Activation [] (Frame.ofScope program.name) inner last
        ∧ (interpreter.run depth).2.machine.history
          = .started program.name :: .entered (Frame.ofScope program.name) 1
            :: (inner ++ [.left last]))
      ∧ Bracketed 0 ((interpreter.run depth).2.machine.log.filter
        fun record => record.level = .debug)
      ∧ interpreter.run depth = (ofProgram program tree).run depth
      ∧ ∀ other, (interpreter.run depth).1 ≠ .error .depthExceeded →
        ((ofProgram program tree).run other).1 ≠ .error .depthExceeded →
          interpreter.run depth = (ofProgram program tree).run other := by
  rw [started.run_eq depth]
  obtain ⟨inner, last, reached, activation, same, done⟩ := (ofProgram program tree).run_eq depth
  have happened : reached.history = .started program.name
      :: .entered (Frame.ofScope program.name) 1 :: (inner ++ [.left last]) := by
    rw [same]
    exact Machine.history_noteAll _ _
  rw [done]
  refine ⟨congrArg (fun machine => machine.stack.length) same, ⟨inner, last, activation, happened⟩,
    ?_, rfl, ?_⟩
  · -- The frame of the program is one more pair of brackets around those of the activation.
    have outermost : Bracketed 0 (Event.brackets reached.history) := by
      rw [happened]
      show Bracketed 0 (Event.brackets (.entered _ _ :: (inner ++ [.left last])))
      rw [Event.brackets_entered]
      exact .pair activation.scope_eq activation.bracketed (.nil 0)
    exact outermost
  · intro other returns returns'
    rw [← done] at returns ⊢
    exact run_eq_run _ returns returns'

/-- The interpreter of `descending` behind a run that was given up and one that failed four calls
deep. -/
def used : Interpreter :=
  (((ofProgram descending (Analysis.run descending).scopes).run 2).2.run 4).2

theorem run_disciplined_descending : used.machine.values[5]? = some (.integer 1)
    ∧ (used.run 5).1 = .error (.fault (.divisionByZero ⟨1, 57⟩)) ∧ (used.run 5).2.callDepth = 0
    ∧ used.run 5 = (ofProgram descending (Analysis.run descending).scopes).run 4 := by
  have started : Started descending (Analysis.run descending).scopes used := .again 4 (.again 2 .new)
  obtain ⟨empty, _, _, new, every⟩ := run_disciplined started 5
  have fails : ∀ depth, depth = 4 ∨ depth = 5 →
      ((ofProgram descending (Analysis.run descending).scopes).run depth).1
        = .error (.fault (.divisionByZero ⟨1, 57⟩)) := by
    rintro depth (rfl | rfl) <;> exact eq_error_of_map (f := fun _ => ()) (by decide +kernel)
  have again : (used.run 5).1 = .error (.fault (.divisionByZero ⟨1, 57⟩)) := by
    rw [new, fails 5 (.inr rfl)]
  refine ⟨by decide +kernel, again, empty, every 4 ?_ ?_⟩
  · rw [again]
    exact nofun
  · rw [fails 4 (.inl rfl)]
    exact nofun

end Interpreter
end MiniPascal
