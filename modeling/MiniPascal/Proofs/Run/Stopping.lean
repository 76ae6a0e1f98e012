import MiniPascal.Proofs.Run.Natural

/-! # Execution that ends early, as a relation

`StopsWith` is the other half of `Runs`: which events happen when statements do not come to their
end, and why they do not. The reason is at one statement. Those in front of it run to their end, and
if it is a call then the body may be what ends early. -/
set_option autoImplicit false
namespace MiniPascal

open Interpreter

/-- With the given frames below it, a frame executes statements up to one that ends the run. -/
inductive StopsWith (interpreter : Interpreter) :
    List Frame → Frame → List Statement → List Event → Frame → Halt → Prop where
  | behind {below : List Frame} {frame middle last : Frame} {first others : List Statement}
    {events further : List Event} {halt : Halt} :
    Runs interpreter below frame first events middle →
    StopsWith interpreter below middle others further last halt →
      StopsWith interpreter below frame (first ++ others) (events ++ further) last halt
  | compound {below : List Frame} {frame last : Frame} {inner : List Statement}
    {events : List Event} {halt : Halt} (id : NodeId) (rest : List Statement) :
    StopsWith interpreter below frame inner events last halt →
      StopsWith interpreter below frame (.compound id inner :: rest)
        (.executing (frame :: below) (.compound id inner) :: events) last halt
  | assignment {below : List Frame} {frame : Frame} {value : Expr} {error : RuntimeError}
    (id : NodeId) (target : Variable) (rest : List Statement) :
    value.valueIn frame = .error error →
      StopsWith interpreter below frame (.assignment id target value :: rest)
        (.executing (frame :: below) (.assignment id target value)
          :: Expr.evaluations frame value.parts) frame (.fault error)
  | unresolved {below : List Frame} {frame : Frame} {name : String} {arguments : List Expr}
    {reason : Mismatch} (id : NodeId) (position : Position) (rest : List Statement) :
    interpreter.resolve frame.scope name arguments.length = .error reason →
      StopsWith interpreter below frame (.call id name position arguments :: rest)
        [.executing (frame :: below) (.call id name position arguments)] frame
        (.fault (.mismatch reason))
  | argument {below : List Frame} {frame : Frame} {name : String} {arguments : List Expr}
    {found : ProcedureHeader × Procedure} {error : RuntimeError} (id : NodeId)
    (position : Position) (rest : List Statement) :
    interpreter.resolve frame.scope name arguments.length = .ok found →
    Expr.valuesIn frame arguments = .error error →
      StopsWith interpreter below frame (.call id name position arguments :: rest)
        (.executing (frame :: below) (.call id name position arguments)
          :: Expr.evaluations frame (arguments.flatMap Expr.parts)) frame (.fault error)
  | tooDeep {below : List Frame} {frame : Frame} {name : String} {arguments : List Expr}
    {found : ProcedureHeader × Procedure} {values : List Number} (id : NodeId)
    (position : Position) (rest : List Statement) :
    interpreter.resolve frame.scope name arguments.length = .ok found →
    Expr.valuesIn frame arguments = .ok values →
      StopsWith interpreter below frame (.call id name position arguments :: rest)
        (.executing (frame :: below) (.call id name position arguments)
          :: Expr.evaluations frame (arguments.flatMap Expr.parts)) frame .depthExceeded
  | call {below : List Frame} {frame final : Frame} {name : String} {arguments : List Expr}
    {header : ProcedureHeader} {procedure : Procedure} {values : List Number}
    {inner : List Event} {halt : Halt} (id : NodeId) (position : Position)
    (rest : List Statement) :
    interpreter.resolve frame.scope name arguments.length = .ok (header, procedure) →
    Expr.valuesIn frame arguments = .ok values →
    StopsWith interpreter (frame :: below) (callFrame header values) procedure.block.body.statements
      inner final halt →
      StopsWith interpreter below frame (.call id name position arguments :: rest)
        (.executing (frame :: below) (.call id name position arguments)
          :: (Expr.evaluations frame (arguments.flatMap Expr.parts)
            ++ .entered (callFrame header values) (below.length + 2)
              :: (inner ++ [.left final]))) frame halt

namespace StopsWith

variable {interpreter : Interpreter} {below : List Frame} {frame last : Frame}
  {statements : List Statement} {events : List Event} {halt : Halt}

/-- What stands behind the statement that ends the run makes no difference. -/
theorem append (stops : StopsWith interpreter below frame statements events last halt)
    (others : List Statement) :
    StopsWith interpreter below frame (statements ++ others) events last halt := by
  induction stops with
  | behind runs _ ih =>
      rw [List.append_assoc]
      exact .behind runs ih
  | compound id rest body _ => exact .compound id (rest ++ others) body
  | assignment id target rest failed => exact .assignment id target (rest ++ others) failed
  | unresolved id position rest failed => exact .unresolved id position (rest ++ others) failed
  | argument id position rest resolved failed =>
      exact .argument id position (rest ++ others) resolved failed
  | tooDeep id position rest resolved given =>
      exact .tooDeep id position (rest ++ others) resolved given
  | call id position rest resolved given body _ =>
      exact .call id position (rest ++ others) resolved given body

theorem scope_eq (stops : StopsWith interpreter below frame statements events last halt) :
    last.scope = frame.scope := by
  induction stops with
  | behind runs _ ih => exact ih.trans runs.scope_eq
  | compound _ _ _ ih => exact ih
  | _ => rfl

end StopsWith

namespace Execute

/-- If the computation ends early then it does what the statements do until then. -/
def Halts (interpreter : Interpreter) (statements : List Statement) (body : Execute Unit) : Prop :=
  ∀ (frame : Frame) (below : List Frame) (machine reached : Machine) (halt : Halt),
    machine.stack = frame :: below → body machine = .error halt reached →
      ∃ events last, StopsWith interpreter below frame statements events last halt
        ∧ reached = { machine.noteAll events with stack := last :: below }

theorem Halts.bind {interpreter : Interpreter} {first others : List Statement}
    {body : Execute Unit} {further : Unit → Execute Unit}
    (performs : Performs interpreter first body) (halts : Halts interpreter first body)
    (behind : Halts interpreter others (further ())) :
    Halts interpreter (first ++ others) (body >>= further) := by
  intro frame below machine reached halt stack ended
  simp only [Bind.bind, EStateM.bind] at ended
  cases result : body machine with
  | error early between =>
      rw [result] at ended
      cases ended
      obtain ⟨events, last, stops, same⟩ := halts frame below machine reached halt stack result
      exact ⟨events, last, stops.append others, same⟩
  | ok _ between =>
      rw [result] at ended
      obtain ⟨events, middle, runs, rfl⟩ := performs frame below machine between stack result
      obtain ⟨more, last, rest, rfl⟩ := behind middle below _ reached halt rfl ended
      refine ⟨events ++ more, last, .behind runs rest, ?_⟩
      simp only [Machine.noteAll, List.reverse_append, List.append_assoc]

/-- A body that ends early in a frame of its own stops between that frame and its last state. -/
theorem Halts.framed {interpreter : Interpreter} {statements : List Statement}
    {body : Execute Unit} (halts : Halts interpreter statements body) {frame : Frame}
    {machine reached : Machine} {halt : Halt}
    (ended : Execute.framed frame body machine = .error halt reached) :
    ∃ inner final, StopsWith interpreter machine.stack frame statements inner final halt
      ∧ reached = machine.noteAll
        (.entered frame (machine.stack.length + 1) :: (inner ++ [.left final])) := by
  simp only [Execute.framed] at ended
  cases result : body (machine.push frame) with
  | ok _ early =>
      rw [result] at ended
      cases ended
  | error early between =>
      rw [result] at ended
      obtain ⟨inner, final, stops, rfl⟩ :=
        halts frame machine.stack (machine.push frame) between early
          (machine.stack_push frame) result
      cases ended
      refine ⟨inner, final, stops, ?_⟩
      simp [Machine.pop, Machine.note, Machine.noteAll, Machine.push]

/-- The rule for calls that statements are to be executed with. -/
def CallsHalt (interpreter : Interpreter) (call : String → List Expr → Execute Unit) : Prop :=
  ∀ (id : NodeId) (name : String) (position : Position) (arguments : List Expr),
    Halts interpreter [.call id name position arguments]
      ((Statement.call id name position arguments).execute call)

end Execute

section Statements

variable {interpreter : Interpreter} {call : String → List Expr → Execute Unit}

open Execute

theorem Statement.halts_assignment (id : NodeId) (target : Variable) (value : Expr) :
    Halts interpreter [.assignment id target value]
      ((Statement.assignment id target value).execute call) := by
  intro frame below machine reached halt stack ended
  simp only [Statement.execute, noteStatement, Bind.bind, EStateM.bind] at ended
  rw [value.evaluate_eq (show (machine.note _).stack = frame :: below from stack)] at ended
  cases found : value.valueIn frame with
  | error error =>
      rw [found] at ended
      cases ended
      refine ⟨_, _, .assignment id target [] found, ?_⟩
      simp [Machine.noteAll, Machine.note, stack]
  | ok result =>
      rw [found] at ended
      have kept : ((machine.note (.executing machine.stack (.assignment id target value))).noteAll
        (Expr.evaluations frame value.parts)).stack = frame :: below := stack
      simp only [settled, Execute.note, Execute.assign, Machine.stack_note, kept] at ended
      cases ended

mutual

theorem Statement.halts (performs : CallsPerform interpreter call)
    (halts : CallsHalt interpreter call) :
    ∀ statement : Statement, Halts interpreter [statement] (statement.execute call)
  | .compound id statements => by
    intro frame below machine reached halt stack ended
    rw [Statement.execute] at ended
    obtain ⟨events, last, stops, rfl⟩ :=
      Statement.halts_all performs halts statements frame below (machine.note _) reached halt stack
        ended
    refine ⟨_, last, .compound id [] stops, ?_⟩
    simp [Machine.noteAll, Machine.note, stack]
  | .assignment id target value => Statement.halts_assignment id target value
  | .call id name position arguments => halts id name position arguments
  | .empty id => by
    intro frame below machine reached halt stack ended
    rw [Statement.execute] at ended
    cases ended

theorem Statement.halts_all (performs : CallsPerform interpreter call)
    (halts : CallsHalt interpreter call) :
    ∀ statements : List Statement,
      Halts interpreter statements (Statement.executeAll call statements)
  | [] => by
    intro frame below machine reached halt stack ended
    rw [Statement.executeAll] at ended
    cases ended
  | statement :: rest => by
    rw [Statement.executeAll]
    exact Halts.bind (Statement.performs performs statement)
      (Statement.halts performs halts statement) (Statement.halts_all performs halts rest)

end

end Statements

namespace Interpreter

open Execute

variable {interpreter : Interpreter}

/-- An invocation that ends early has no depth left, or the body of its procedure ends early. -/
theorem stops_of_invoke {depth : Nat} {procedure : Procedure} {callee : Frame}
    {machine reached : Machine} {halt : Halt}
    (halts : ∀ less, less < depth → Halts interpreter procedure.block.body.statements
      (Statement.executeAll (interpreter.call (interpreter.invoke less))
        procedure.block.body.statements))
    (ended : interpreter.invoke depth procedure callee machine = .error halt reached) :
    halt = .depthExceeded ∧ reached = machine
      ∨ ∃ inner final,
        StopsWith interpreter machine.stack callee procedure.block.body.statements inner final halt
          ∧ reached = machine.noteAll
            (.entered callee (machine.stack.length + 1) :: (inner ++ [.left final])) := by
  cases depth with
  | zero =>
      cases ended
      exact .inl ⟨rfl, rfl⟩
  | succ depth =>
      rw [invoke] at ended
      simp only [Bind.bind, EStateM.bind] at ended
      split at ended
      · cases ended
      · rename_i framed
        cases ended
        exact .inr ((halts depth (Nat.lt_succ_self depth)).framed framed)

/-- A call that ends early: its name or one of its arguments has a fault, there is no depth left
for it, or its body ends early in a frame of its own. -/
theorem halts_call (interpreter : Interpreter) (depth : Nat) :
    CallsHalt interpreter (interpreter.call (interpreter.invoke depth)) := by
  induction depth using Nat.strongRecOn with
  | ind depth ih =>
    intro id name position arguments frame below machine reached halt stack ended
    rw [Statement.execute] at ended
    have kept : (machine.note (.executing machine.stack (.call id name position arguments))).stack
        = frame :: below := stack
    change interpreter.call (interpreter.invoke depth) name arguments (machine.note _) = _ at ended
    rw [call_eq kept] at ended
    cases resolved : interpreter.resolve frame.scope name arguments.length with
    | error reason =>
        rw [resolved] at ended
        cases ended
        refine ⟨_, frame, .unresolved id position [] resolved, ?_⟩
        simp [Machine.noteAll, Machine.note, stack]
    | ok found =>
        obtain ⟨header, procedure⟩ := found
        simp only [resolved] at ended
        cases given : Expr.valuesIn frame arguments with
        | error error =>
            rw [given] at ended
            cases ended
            refine ⟨_, frame, .argument id position [] resolved given, ?_⟩
            simp [Machine.noteAll, Machine.note, stack]
        | ok values =>
            simp only [given] at ended
            have body := fun less smaller => Statement.halts_all
              (interpreter.performs_call less) (ih less smaller) procedure.block.body.statements
            rcases stops_of_invoke body ended with ⟨rfl, rfl⟩ | ⟨inner, final, stops, rfl⟩
            · refine ⟨_, frame, .tooDeep id position [] resolved given, ?_⟩
              simp [Machine.noteAll, Machine.note, stack]
            · rw [Machine.stack_noteAll, kept] at stops
              refine ⟨_, frame, .call id position [] resolved given stops, ?_⟩
              simp [Machine.noteAll, Machine.note, stack]

/-- Statements that end early within some depth of calls stop. -/
theorem stops_of_error (interpreter : Interpreter) (depth : Nat) (statements : List Statement) :
    Halts interpreter statements
      (Statement.executeAll (interpreter.call (interpreter.invoke depth)) statements) :=
  Statement.halts_all (interpreter.performs_call depth) (interpreter.halts_call depth) statements

/-- In a run that fails the program's body stops in the program's own frame. -/
theorem run_eq_error {program : Program} {tree : ScopeTree} {depth : Nat} {halt : Halt}
    (fails : ((ofProgram program tree).run depth).1 = .error halt) :
    ∃ inner final, StopsWith (ofProgram program tree) [] (Frame.ofScope program.name)
        program.block.body.statements inner final halt
      ∧ ((ofProgram program tree).run depth).2.machine.history = .started program.name
        :: .entered (Frame.ofScope program.name) 1 :: (inner ++ [.left final]) := by
  have performs := (runs_of_ok (ofProgram program tree) depth program.block.body.statements)
  have halts := (stops_of_error (ofProgram program tree) depth program.block.body.statements)
  rw [run] at fails ⊢
  cases result : (ofProgram program tree).executeProgram depth
      ⟨(ofProgram program tree).machine.stack,
        [.started (ofProgram program tree).program.name]⟩ with
  | ok value reached =>
      obtain ⟨inner, final, _, rfl, _⟩ := performs.framed result
      rw [result] at fails
      cases fails
  | error early reached =>
      obtain ⟨inner, final, stops, same⟩ := halts.framed result
      rw [result] at fails
      cases fails
      refine ⟨inner, final, stops, ?_⟩
      rw [same]
      exact Machine.history_noteAll _ _

end Interpreter
end MiniPascal
