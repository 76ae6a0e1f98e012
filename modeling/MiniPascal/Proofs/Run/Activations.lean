import MiniPascal.Proofs.Run.Values
import MiniPascal.Run.Interpreter

/-! # Activations

What happens while a frame is the innermost one is an activation of it: it executes statements,
evaluates expressions and sets its own variables, and the calls it makes are activations of their
own, between a frame put on and the same frame taken off. The frames below never change. Every
computation of the interpreter is such an activation, however it ends. -/
set_option autoImplicit false
namespace MiniPascal

/-- Events that lead from one state of a frame to a later one, with the given frames below it. -/
inductive Activation : List Frame → Frame → List Event → Frame → Prop where
  | idle (below : List Frame) (frame : Frame) : Activation below frame [] frame
  | executing {below : List Frame} {frame last : Frame} {events : List Event}
    (statement : Statement) : Activation below frame events last →
      Activation below frame (.executing (frame :: below) statement :: events) last
  | evaluated {below : List Frame} {frame last : Frame} {events : List Event} (id : NodeId)
    (value : Number) : Activation below frame events last →
      Activation below frame (.evaluated id value :: events) last
  | assigned {below : List Frame} {frame last : Frame} {events : List Event} (name : String)
    (value : Number) : Activation below (frame.set name value) events last →
      Activation below frame (.assigned name value :: events) last
  | called {below : List Frame} {frame callee final last : Frame} {inner events : List Event} :
    Activation (frame :: below) callee inner final → Activation below frame events last →
      Activation below frame
        (.entered callee (below.length + 2) :: (inner ++ .left final :: events)) last

namespace Activation

variable {below : List Frame} {frame middle last : Frame} {events further : List Event}

theorem append (first : Activation below frame events middle) :
    Activation below middle further last → Activation below frame (events ++ further) last := by
  induction first with
  | idle below frame => exact id
  | executing statement _ ih => exact fun second => (ih second).executing statement
  | evaluated id value _ ih => exact fun second => (ih second).evaluated id value
  | assigned name value _ ih => exact fun second => (ih second).assigned name value
  | called inner _ _ ih =>
      intro second
      rw [List.cons_append, List.append_assoc, List.cons_append]
      exact called inner (ih second)

theorem scope_eq (activation : Activation below frame events last) : last.scope = frame.scope := by
  induction activation with
  | idle below frame => rfl
  | executing _ _ ih => exact ih
  | evaluated _ _ _ ih => exact ih
  | assigned _ _ _ ih => exact ih
  | called _ _ _ ih => exact ih

theorem evaluations (below : List Frame) (frame : Frame) (parts : List Expr) :
    Activation below frame (Expr.evaluations frame parts) frame := by
  induction parts with
  | nil => exact idle below frame
  | cons part rest ih =>
      rw [Expr.evaluations]
      cases part.valueIn frame with
      | ok value => exact ih.evaluated part.id value
      | error _ => exact idle below frame

/-- A call from a frame: the callee's frame is put on, and it is taken off again. -/
theorem call {callee final : Frame} {inner : List Event}
    (body : Activation (frame :: below) callee inner final) :
    Activation below frame (.entered callee (below.length + 2) :: (inner ++ [.left final])) frame :=
  called body (idle below frame)

end Activation

namespace Execute

variable {α β : Type}

/-- The machine that a computation ends with, whether it fails or not. -/
def after : EStateM.Result Halt Machine α → Machine
  | .ok _ machine => machine
  | .error _ machine => machine

/-- The same end on another machine. -/
def onto (machine : Machine) : EStateM.Result Halt Machine α → EStateM.Result Halt Machine α
  | .ok value _ => .ok value machine
  | .error halt _ => .error halt machine

theorem after_onto (machine : Machine) (result : EStateM.Result Halt Machine α) :
    after (onto machine result) = machine := by
  cases result <;> rfl

/-- However the computation ends, the frame it began in is still the innermost one, and what
happened is a part of its activation. -/
def Acts (body : Execute α) : Prop :=
  ∀ (frame : Frame) (below : List Frame) (machine : Machine), machine.stack = frame :: below →
    ∃ events last, Activation below frame events last
      ∧ after (body machine) = { machine.noteAll events with stack := last :: below }

namespace Acts

/-- A computation that only adds to the record of its frame. -/
theorem of_noteAll {body : Execute α}
    (adds : ∀ (frame : Frame) (below : List Frame) (machine : Machine),
      machine.stack = frame :: below →
        ∃ events, Activation below frame events frame
          ∧ after (body machine) = machine.noteAll events) : Acts body := by
  intro frame below machine stack
  obtain ⟨events, activation, same⟩ := adds frame below machine stack
  refine ⟨events, frame, activation, ?_⟩
  rw [same, ← stack]
  rfl

theorem settled {body : Execute α} {events : Frame → List Event}
    {result : Frame → Except RuntimeError α}
    (activation : ∀ below frame, Activation below frame (events frame) frame)
    (same : ∀ {frame : Frame} {below : List Frame} {machine : Machine},
      machine.stack = frame :: below →
        body machine = Execute.settled (machine.noteAll (events frame)) (result frame)) :
    Acts body := by
  apply of_noteAll
  intro frame below machine stack
  refine ⟨events frame, activation below frame, ?_⟩
  rw [same stack]
  cases result frame <;> rfl

theorem pure (value : α) : Acts (Pure.pure value) :=
  of_noteAll fun _ _ _ _ => ⟨[], .idle _ _, rfl⟩

theorem fail (error : RuntimeError) : Acts (Execute.fail error : Execute α) :=
  of_noteAll fun _ _ _ _ => ⟨[], .idle _ _, rfl⟩

theorem bind {body : Execute α} {further : α → Execute β} (first : Acts body)
    (second : ∀ value, Acts (further value)) : Acts (body >>= further) := by
  intro frame below machine stack
  obtain ⟨events, middle, activation, done⟩ := first frame below machine stack
  simp only [Bind.bind, EStateM.bind]
  cases result : body machine with
  | error halt reached =>
      rw [result] at done
      exact ⟨events, middle, activation, done⟩
  | ok value reached =>
      rw [result] at done
      have reached_stack : reached.stack = middle :: below := congrArg Machine.stack done
      obtain ⟨more, last, rest, ended⟩ := second value middle below reached reached_stack
      refine ⟨events ++ more, last, activation.append rest, ?_⟩
      have reached_events : reached.events = events.reverse ++ machine.events :=
        congrArg Machine.events done
      simp only [ended, Machine.noteAll, reached_events, List.reverse_append, List.append_assoc]

theorem noteStatement (statement : Statement) : Acts (Execute.noteStatement statement) := by
  apply of_noteAll
  intro frame below machine stack
  refine ⟨[.executing (frame :: below) statement], (Activation.idle _ _).executing statement, ?_⟩
  rw [← stack]
  rfl

theorem evaluate (expr : Expr) : Acts expr.evaluate :=
  settled (fun below frame => Activation.evaluations below frame expr.parts) expr.evaluate_eq

/-- Setting a variable, with the note of it. -/
theorem assign (name : String) (value : Number) : Acts (do
    Execute.note (.assigned name value)
    Execute.assign name value) := by
  intro frame below machine stack
  refine ⟨[.assigned name value], frame.set name value, (Activation.idle _ _).assigned name value,
    ?_⟩
  simp only [Bind.bind, EStateM.bind, Execute.note, Execute.assign, Machine.stack_note, stack]
  rfl

/-- A body in a frame of its own: the frame is put on the stack that was there before, and when it
is taken off that very stack is left. -/
theorem framed {body : Execute Unit} (acts : Acts body) (frame : Frame) (machine : Machine) :
    ∃ inner final, Activation machine.stack frame inner final
      ∧ Execute.framed frame body machine
        = match body (machine.push frame) with
          | .ok _ _ => .ok (some final) (machine.noteAll
              (.entered frame (machine.stack.length + 1) :: (inner ++ [.left final])))
          | .error halt _ => .error halt (machine.noteAll
              (.entered frame (machine.stack.length + 1) :: (inner ++ [.left final]))) := by
  obtain ⟨inner, final, activation, done⟩ :=
    acts frame machine.stack (machine.push frame) (machine.stack_push frame)
  refine ⟨inner, final, activation, ?_⟩
  -- Both ends of the body pop the machine that `done` describes.
  have popped : (after (body (machine.push frame))).pop = (some final, machine.noteAll
      (.entered frame (machine.stack.length + 1) :: (inner ++ [.left final]))) := by
    rw [done]
    simp [Machine.pop, Machine.note, Machine.noteAll, Machine.push]
  simp only [Execute.framed]
  cases result : body (machine.push frame) with
  | ok value reached =>
      rw [result] at popped
      simp only [after] at popped
      simp only [popped]
  | error halt reached =>
      rw [result] at popped
      simp only [after] at popped
      simp only [popped]

end Acts
end Execute

section Statements

variable {call : String → List Expr → Execute Unit}

open Execute

mutual

theorem Statement.acts (calls : ∀ name arguments, Acts (call name arguments)) :
    ∀ statement : Statement, Acts (statement.execute call)
  | .compound id statements => by
    rw [Statement.execute]
    exact Acts.bind (Acts.noteStatement _) fun _ => Statement.acts_all calls statements
  | .assignment id target value => by
    rw [Statement.execute]
    apply Acts.bind (Acts.noteStatement _)
    intro _
    exact Acts.bind (Acts.evaluate value) fun result => Acts.assign target.name result
  | .call id name position arguments => by
    rw [Statement.execute]
    exact Acts.bind (Acts.noteStatement _) fun _ => calls name arguments
  | .empty id => by
    rw [Statement.execute]
    exact Acts.noteStatement _

theorem Statement.acts_all (calls : ∀ name arguments, Acts (call name arguments)) :
    ∀ statements : List Statement, Acts (Statement.executeAll call statements)
  | [] => by
    rw [Statement.executeAll]
    exact Acts.pure ()
  | statement :: rest => by
    rw [Statement.executeAll]
    exact Acts.bind (Statement.acts calls statement) fun _ => Statement.acts_all calls rest

end

end Statements

namespace Interpreter

open Execute

variable {interpreter : Interpreter} {invoked : Procedure → Frame → Execute Unit}

/-- What the name of a call stands for in a scope: the header, the declaration of that name, and
as many arguments as parameters. -/
def resolve (interpreter : Interpreter) (scope name : String) (count : Nat) :
    Except Mismatch (ProcedureHeader × Procedure) :=
  match interpreter.scopes.findProcedure? scope name with
  | none => .error (.procedureNotFound name)
  | some header =>
    match interpreter.procedures[header.name]? with
    | none => .error (.declarationMissing header.name)
    | some procedure =>
      if header.parameters.length = count then
        .ok (header, procedure)
      else
        .error (.argumentCount header.name count header.parameters.length)

/-- A resolved call evaluates its arguments in the frame of the caller and then invokes the
procedure; a call that does not resolve, or has an argument without a value, invokes nothing. -/
theorem call_eq {frame : Frame} {below : List Frame} {machine : Machine}
    (stack : machine.stack = frame :: below) (name : String) (arguments : List Expr) :
    interpreter.call invoked name arguments machine
      = match interpreter.resolve frame.scope name arguments.length with
        | .error reason => .error (.fault (.mismatch reason)) machine
        | .ok (header, procedure) =>
          let evaluated :=
            machine.noteAll (Expr.evaluations frame (arguments.flatMap Expr.parts))
          match Expr.valuesIn frame arguments with
          | .error error => .error (.fault error) evaluated
          | .ok values => invoked procedure (callFrame header values) evaluated := by
  simp only [call, bind, EStateM.bind, innermost, stack, resolve]
  cases interpreter.scopes.findProcedure? frame.scope name with
  | none => rfl
  | some header =>
      simp only
      cases interpreter.procedures[header.name]? with
      | none => rfl
      | some procedure =>
          simp only
          split
          · simp only [EStateM.bind, Expr.evaluateAll_eq arguments stack]
            cases Expr.valuesIn frame arguments <;> rfl
          · rfl

theorem acts_call (acts : ∀ procedure frame, Acts (invoked procedure frame)) (name : String)
    (arguments : List Expr) : Acts (interpreter.call invoked name arguments) := by
  intro frame below machine stack
  rw [call_eq stack]
  have unchanged : machine = { machine.noteAll [] with stack := frame :: below } := by
    rw [← stack]
    rfl
  cases interpreter.resolve frame.scope name arguments.length with
  | error reason => exact ⟨[], frame, .idle below frame, unchanged⟩
  | ok found =>
      obtain ⟨header, procedure⟩ := found
      have evaluated :=
        Activation.evaluations below frame (arguments.flatMap Expr.parts)
      simp only
      cases Expr.valuesIn frame arguments with
      | error error => exact ⟨_, frame, evaluated, by rw [← stack]; rfl⟩
      | ok values =>
          obtain ⟨events, last, activation, done⟩ :=
            acts procedure (callFrame header values) frame below (machine.noteAll _) stack
          refine ⟨_, last, evaluated.append activation, ?_⟩
          rw [done, ← Machine.noteAll_append]

/-- Invoking a procedure with some depth of calls left puts the given frame on, acts in it, and
takes it off again. It ends as the body of the procedure does. -/
theorem invoke_succ (depth : Nat) (procedure : Procedure) (frame : Frame) (machine : Machine)
    (acts : ∀ procedure frame, Acts (interpreter.invoke depth procedure frame)) :
    ∃ inner final, Activation machine.stack frame inner final
      ∧ interpreter.invoke (depth + 1) procedure frame machine
        = onto (machine.noteAll
            (.entered frame (machine.stack.length + 1) :: (inner ++ [.left final])))
          (Statement.executeAll (interpreter.call (interpreter.invoke depth))
            procedure.block.body.statements (machine.push frame)) := by
  have body : Acts (Statement.executeAll (interpreter.call (interpreter.invoke depth))
      procedure.block.body.statements) := Statement.acts_all (acts_call acts) _
  obtain ⟨inner, final, activation, done⟩ := body.framed frame machine
  refine ⟨inner, final, activation, ?_⟩
  simp only [invoke, bind, EStateM.bind, done]
  cases Statement.executeAll (interpreter.call (interpreter.invoke depth))
    procedure.block.body.statements (machine.push frame) <;> rfl

theorem acts_invoke (interpreter : Interpreter) (depth : Nat) :
    ∀ procedure frame, Acts (interpreter.invoke depth procedure frame) := by
  induction depth with
  | zero =>
      intro procedure callee
      exact Acts.of_noteAll fun _ _ _ _ => ⟨[], .idle _ _, rfl⟩
  | succ depth ih =>
      intro procedure callee
      apply Acts.of_noteAll
      intro frame below machine stack
      obtain ⟨inner, final, activation, done⟩ := invoke_succ depth procedure callee machine ih
      rw [stack] at activation done
      exact ⟨_, activation.call, (congrArg after done).trans (after_onto _ _)⟩

/-- Statements of a body act within one activation, with calls nested to any depth. -/
theorem acts_body (interpreter : Interpreter) (depth : Nat) (statements : List Statement) :
    Acts (Statement.executeAll (interpreter.call (interpreter.invoke depth)) statements) :=
  Statement.acts_all (acts_call (interpreter.acts_invoke depth)) statements

end Interpreter
end MiniPascal
