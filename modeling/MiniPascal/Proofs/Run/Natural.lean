import MiniPascal.Proofs.Run.Isolation

/-! # Successful execution as a relation

`Runs` says without a machine and without a bound on calls what statements do that come to their
end: which events happen, and which values the frame has behind them. There is one rule for each
kind of statement, and the rule for calls contains the run of the body. -/
set_option autoImplicit false
namespace MiniPascal

open Interpreter

/-- With the given frames below it, a frame executes statements to their end. -/
inductive Runs (interpreter : Interpreter) :
    List Frame → Frame → List Statement → List Event → Frame → Prop where
  | done (below : List Frame) (frame : Frame) : Runs interpreter below frame [] [] frame
  | compound {below : List Frame} {frame middle last : Frame} {inner rest : List Statement}
    {events further : List Event} (id : NodeId) :
    Runs interpreter below frame inner events middle →
    Runs interpreter below middle rest further last →
      Runs interpreter below frame (.compound id inner :: rest)
        (.executing (frame :: below) (.compound id inner) :: (events ++ further)) last
  | assignment {below : List Frame} {frame last : Frame} {value : Expr} {result : Number}
    {rest : List Statement} {events : List Event} (id : NodeId) (target : Variable) :
    value.valueIn frame = .ok result →
    Runs interpreter below (frame.set target.name result) rest events last →
      Runs interpreter below frame (.assignment id target value :: rest)
        (.executing (frame :: below) (.assignment id target value)
          :: (Expr.evaluations frame value.parts ++ .assigned target.name result :: events)) last
  | call {below : List Frame} {frame final last : Frame} {name : String} {arguments : List Expr}
    {header : ProcedureHeader} {procedure : Procedure} {values : List Number}
    {rest : List Statement} {inner events : List Event} (id : NodeId) (position : Position) :
    interpreter.resolve frame.scope name arguments.length = .ok (header, procedure) →
    Expr.valuesIn frame arguments = .ok values →
    Runs interpreter (frame :: below) (callFrame header values) procedure.block.body.statements
      inner final →
    Runs interpreter below frame rest events last →
      Runs interpreter below frame (.call id name position arguments :: rest)
        (.executing (frame :: below) (.call id name position arguments)
          :: (Expr.evaluations frame (arguments.flatMap Expr.parts)
            ++ .entered (callFrame header values) (below.length + 2)
              :: (inner ++ .left final :: events))) last
  | empty {below : List Frame} {frame last : Frame} {rest : List Statement} {events : List Event}
    (id : NodeId) : Runs interpreter below frame rest events last →
      Runs interpreter below frame (.empty id :: rest)
        (.executing (frame :: below) (.empty id) :: events) last

namespace Runs

variable {interpreter : Interpreter} {below : List Frame} {frame middle last : Frame}
  {statements others : List Statement} {events further : List Event}

theorem append (first : Runs interpreter below frame statements events middle) :
    Runs interpreter below middle others further last →
      Runs interpreter below frame (statements ++ others) (events ++ further) last := by
  induction first with
  | done below frame => exact id
  | @compound below frame middle _ inner _ _ _ id body _ _ ih =>
      intro second
      rw [List.cons_append, List.cons_append, List.append_assoc]
      exact .compound id body (ih second)
  | assignment id target found _ ih =>
      intro second
      rw [List.cons_append, List.cons_append, List.append_assoc, List.cons_append]
      exact .assignment id target found (ih second)
  | call id position resolved given body _ _ ih =>
      intro second
      rw [List.cons_append, List.cons_append, List.append_assoc, List.cons_append,
        List.append_assoc, List.cons_append]
      exact .call id position resolved given body (ih second)
  | empty id _ ih => exact fun second => (ih second).empty id

theorem scope_eq (runs : Runs interpreter below frame statements events last) :
    last.scope = frame.scope := by
  induction runs with
  | done => rfl
  | compound _ _ _ inner outer => exact outer.trans inner
  | assignment _ _ _ _ ih => exact ih
  | call _ _ _ _ _ _ _ ih => exact ih
  | empty _ _ ih => exact ih

end Runs

namespace Execute

variable {α β : Type}

/-- A sequence succeeds only if both of its parts do. -/
theorem bind_eq_ok {body : Execute α} {further : α → Execute β} {machine reached : Machine}
    {value : β} (done : (body >>= further) machine = .ok value reached) :
    ∃ first middle, body machine = .ok first middle ∧ further first middle = .ok value reached := by
  simp only [Bind.bind, EStateM.bind] at done
  cases result : body machine with
  | ok first middle =>
      rw [result] at done
      exact ⟨first, middle, rfl, done⟩
  | error halt middle =>
      rw [result] at done
      cases done

/-- If the computation succeeds then it does what the statements do. -/
def Performs (interpreter : Interpreter) (statements : List Statement) (body : Execute Unit) :
    Prop :=
  ∀ (frame : Frame) (below : List Frame) (machine reached : Machine),
    machine.stack = frame :: below → body machine = .ok () reached →
      ∃ events last, Runs interpreter below frame statements events last
        ∧ reached = { machine.noteAll events with stack := last :: below }

theorem Performs.bind {interpreter : Interpreter} {first others : List Statement}
    {body : Execute Unit} {further : Unit → Execute Unit}
    (performs : Performs interpreter first body)
    (behind : Performs interpreter others (further ())) :
    Performs interpreter (first ++ others) (body >>= further) := by
  intro frame below machine reached stack done
  obtain ⟨_, between, begun, ended⟩ := bind_eq_ok done
  obtain ⟨events, middle, runs, rfl⟩ := performs frame below machine between stack begun
  obtain ⟨more, last, rest, rfl⟩ := behind middle below _ reached rfl ended
  refine ⟨events ++ more, last, runs.append rest, ?_⟩
  simp only [Machine.noteAll, List.reverse_append, List.append_assoc]

/-- A body that succeeds in a frame of its own runs between that frame and its last state. -/
theorem Performs.framed {interpreter : Interpreter} {statements : List Statement}
    {body : Execute Unit} (performs : Performs interpreter statements body) {frame : Frame}
    {machine reached : Machine} {value : Option Frame}
    (done : Execute.framed frame body machine = .ok value reached) :
    ∃ inner final, Runs interpreter machine.stack frame statements inner final
      ∧ value = some final
      ∧ reached = machine.noteAll
        (.entered frame (machine.stack.length + 1) :: (inner ++ [.left final])) := by
  simp only [Execute.framed] at done
  cases result : body (machine.push frame) with
  | error halt ended =>
      rw [result] at done
      cases done
  | ok _ ended =>
      rw [result] at done
      obtain ⟨inner, final, runs, rfl⟩ :=
        performs frame machine.stack (machine.push frame) ended (machine.stack_push frame) result
      cases done
      refine ⟨inner, final, runs, rfl, ?_⟩
      simp [Machine.pop, Machine.note, Machine.noteAll, Machine.push]

end Execute

section Statements

variable {interpreter : Interpreter} {call : String → List Expr → Execute Unit}

open Execute

/-- The rule for calls that statements are to be executed with. -/
def Execute.CallsPerform (interpreter : Interpreter)
    (call : String → List Expr → Execute Unit) : Prop :=
  ∀ (id : NodeId) (name : String) (position : Position) (arguments : List Expr),
    Performs interpreter [.call id name position arguments]
      ((Statement.call id name position arguments).execute call)

theorem Statement.performs_assignment (id : NodeId) (target : Variable) (value : Expr) :
    Performs interpreter [.assignment id target value]
      ((Statement.assignment id target value).execute call) := by
  intro frame below machine reached stack done
  simp only [Statement.execute, noteStatement, Bind.bind, EStateM.bind] at done
  rw [value.evaluate_eq (show (machine.note _).stack = frame :: below from stack)] at done
  cases found : value.valueIn frame with
  | error error =>
      rw [found] at done
      cases done
  | ok result =>
      rw [found] at done
      have kept : ((machine.note (.executing machine.stack (.assignment id target value))).noteAll
        (Expr.evaluations frame value.parts)).stack = frame :: below := stack
      simp only [settled, Execute.note, Execute.assign, Machine.stack_note, kept] at done
      cases done
      refine ⟨_, _, .assignment id target found (.done _ _), ?_⟩
      simp [Machine.noteAll, Machine.note, stack]

mutual

theorem Statement.performs (calls : CallsPerform interpreter call) :
    ∀ statement : Statement, Performs interpreter [statement] (statement.execute call)
  | .compound id statements => by
    intro frame below machine reached stack done
    rw [Statement.execute] at done
    obtain ⟨_, noted, begun, ended⟩ := bind_eq_ok done
    cases begun
    obtain ⟨events, last, runs, rfl⟩ :=
      Statement.performs_all calls statements frame below (machine.note _) reached stack ended
    refine ⟨_, last, .compound id runs (.done below last), ?_⟩
    simp [Machine.noteAll, Machine.note, stack]
  | .assignment id target value => Statement.performs_assignment id target value
  | .call id name position arguments => calls id name position arguments
  | .empty id => by
    intro frame below machine reached stack done
    rw [Statement.execute] at done
    cases done
    refine ⟨_, frame, .empty id (.done below frame), ?_⟩
    simp [Machine.noteAll, Machine.note, stack]

theorem Statement.performs_all (calls : CallsPerform interpreter call) :
    ∀ statements : List Statement,
      Performs interpreter statements (Statement.executeAll call statements)
  | [] => by
    intro frame below machine reached stack done
    rw [Statement.executeAll] at done
    cases done
    refine ⟨[], frame, .done below frame, ?_⟩
    rw [← stack]
    rfl
  | statement :: rest => by
    rw [Statement.executeAll]
    exact (Statement.performs calls statement).bind (Statement.performs_all calls rest)

end

end Statements

namespace Interpreter

open Execute

variable {interpreter : Interpreter}

/-- An invocation that succeeds runs the body of its procedure. -/
theorem runs_of_invoke {depth : Nat} {procedure : Procedure} {callee : Frame}
    {machine reached : Machine}
    (performs : ∀ less, less < depth → Performs interpreter procedure.block.body.statements
      (Statement.executeAll (interpreter.call (interpreter.invoke less))
        procedure.block.body.statements))
    (done : interpreter.invoke depth procedure callee machine = .ok () reached) :
    ∃ inner final, Runs interpreter machine.stack callee procedure.block.body.statements inner final
      ∧ reached = machine.noteAll
        (.entered callee (machine.stack.length + 1) :: (inner ++ [.left final])) := by
  cases depth with
  | zero => cases done
  | succ depth =>
      rw [invoke] at done
      obtain ⟨_, ended, framed, returned⟩ := bind_eq_ok done
      cases returned
      obtain ⟨inner, final, runs, _, same⟩ :=
        (performs depth (Nat.lt_succ_self depth)).framed framed
      exact ⟨inner, final, runs, same⟩

/-- A call that succeeds within some depth: its arguments have values, and the body of its
procedure runs to its end in a frame of its own. -/
theorem performs_call (interpreter : Interpreter) (depth : Nat) :
    CallsPerform interpreter (interpreter.call (interpreter.invoke depth)) := by
  induction depth using Nat.strongRecOn with
  | ind depth ih =>
    intro id name position arguments frame below machine reached stack done
    rw [Statement.execute] at done
    obtain ⟨_, noted, begun, called⟩ := bind_eq_ok done
    cases begun
    have kept : (machine.note (.executing machine.stack (.call id name position arguments))).stack
        = frame :: below := stack
    rw [call_eq kept] at called
    cases resolved : interpreter.resolve frame.scope name arguments.length with
    | error reason =>
        rw [resolved] at called
        cases called
    | ok found =>
        obtain ⟨header, procedure⟩ := found
        simp only [resolved] at called
        cases given : Expr.valuesIn frame arguments with
        | error error =>
            rw [given] at called
            cases called
        | ok values =>
            simp only [given] at called
            -- The body is executed with less depth, where calls already perform.
            obtain ⟨inner, final, runs, rfl⟩ :=
              runs_of_invoke (fun less smaller => Statement.performs_all (ih less smaller) _) called
            rw [Machine.stack_noteAll, kept] at runs
            refine ⟨_, frame, .call id position resolved given runs (.done below frame), ?_⟩
            simp [Machine.noteAll, Machine.note, stack]

/-- Statements that succeed within some depth of calls run to their end. -/
theorem runs_of_ok (interpreter : Interpreter) (depth : Nat) (statements : List Statement) :
    Performs interpreter statements
      (Statement.executeAll (interpreter.call (interpreter.invoke depth)) statements) :=
  Statement.performs_all (interpreter.performs_call depth) statements

/-- In a run that succeeds the program's body runs to its end in the program's own frame. -/
theorem run_eq_ok {program : Program} {tree : ScopeTree} {depth : Nat} {outcome : Outcome}
    (succeeds : ((ofProgram program tree).run depth).1 = .ok outcome) :
    ∃ inner final reached, Runs (ofProgram program tree) [] (Frame.ofScope program.name)
        program.block.body.statements inner final
      ∧ ((ofProgram program tree).run depth).2.machine = reached
      ∧ reached.history = .started program.name :: .entered (Frame.ofScope program.name) 1
        :: (inner ++ [.left final])
      ∧ outcome = ⟨final, reached.completed, reached.values⟩ := by
  have performs := (runs_of_ok (ofProgram program tree) depth program.block.body.statements)
  rw [run] at succeeds ⊢
  cases result : (ofProgram program tree).executeProgram depth
      ⟨(ofProgram program tree).machine.stack,
        [.started (ofProgram program tree).program.name]⟩ with
  | error halt reached =>
      rw [result] at succeeds
      cases succeeds
  | ok value reached =>
      obtain ⟨inner, final, runs, rfl, same⟩ := performs.framed result
      rw [result] at succeeds
      cases succeeds
      refine ⟨inner, final, reached, runs, rfl, ?_, rfl⟩
      rw [same]
      exact Machine.history_noteAll _ _

end Interpreter
end MiniPascal
