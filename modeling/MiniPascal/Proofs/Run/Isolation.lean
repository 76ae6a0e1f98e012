import MiniPascal.Proofs.Run.Activations
import MiniPascal.Proofs.Run.Rules

/-! # Isolation of frames

The frame of a call starts with the arguments and nothing else, and the call leaves every frame of
its callers as it was. This holds on any machine, for any scopes and procedures, and for calls
nested to any depth. -/
set_option autoImplicit false
namespace MiniPascal

namespace Frame

theorem get?_set (frame : Frame) (name other : String) (value : Number) :
    (frame.set name value).get? other = if other == name then some value else frame.get? other := by
  rw [Frame.get?, Frame.set, Std.TreeMap.getElem?_insert]
  simp only [Std.LawfulEqOrd.compare_eq_iff_eq, beq_iff_eq, eq_comm (a := other)]
  rfl

/-- Variables that are set one after the other have the last of their values. -/
theorem get?_setAll (name : String) (values : List (String × Number)) : ∀ frame : Frame,
    (frame.setAll values).get? name = (values.reverse.lookup name).or (frame.get? name) := by
  induction values with
  | nil => intro frame; rfl
  | cons entry rest ih =>
      intro frame
      have step : (frame.setAll (entry :: rest)) = (frame.set entry.1 entry.2).setAll rest := rfl
      rw [step, ih, get?_set, List.reverse_cons, List.lookup_append, Option.or_assoc]
      congr 1
      have single : [entry].lookup name = if name == entry.1 then some entry.2 else none := by
        show (match name == entry.1 with | true => some entry.2 | false => none) = _
        cases name == entry.1 <;> rfl
      rw [single]
      cases name == entry.1 <;> rfl

end Frame

namespace Expr

variable {frame : Frame}

/-- Evaluation puts no frame on the stack. -/
theorem entered_notMem_evaluations (callee : Frame) (depth : Nat) (parts : List Expr) :
    Event.entered callee depth ∉ Expr.evaluations frame parts := by
  intro member
  obtain ⟨_, _, impossible⟩ := Expr.evaluated_of_mem parts member
  cases impossible

end Expr

namespace Interpreter

open Execute

variable {interpreter : Interpreter}

theorem scope_callFrame (header : ProcedureHeader) (values : List Number) :
    (callFrame header values).scope = header.name :=
  Frame.scope_setAll _ _

/-- Every parameter has its argument, the last one if the name is repeated, and nothing else has a
value. -/
theorem get?_callFrame (header : ProcedureHeader) (values : List Number) (name : String) :
    (callFrame header values).get? name
      = ((header.parameters.map FormalParameter.name).zip values).reverse.lookup name := by
  rw [callFrame, Frame.get?_setAll]
  simp [Frame.ofScope, Frame.get?]

theorem resolve_eq_ok {scope name : String} {count : Nat} {header : ProcedureHeader}
    {procedure : Procedure}
    (resolved : interpreter.resolve scope name count = .ok (header, procedure)) :
    interpreter.scopes.findProcedure? scope name = some header
      ∧ interpreter.procedures[header.name]? = some procedure
      ∧ header.parameters.length = count := by
  rw [resolve] at resolved
  cases found : interpreter.scopes.findProcedure? scope name with
  | none => rw [found] at resolved; cases resolved
  | some known =>
      simp only [found] at resolved
      cases declared : interpreter.procedures[known.name]? with
      | none => rw [declared] at resolved; cases resolved
      | some body =>
          simp only [declared] at resolved
          split at resolved
          · cases resolved
            exact ⟨rfl, declared, ‹_›⟩
          · cases resolved

/-- A call leaves the stack that it met, however it ends. Its name is resolved in the scope of the
caller's frame and its arguments are evaluated in this frame, from the left; the first of them that
has a fault ends the call before there is a frame for it. If all of them have values, and calls may
be nested so deeply, then the body acts in a frame that starts with these values alone, and the call
ends as the body does. -/
theorem call_isolated (interpreter : Interpreter) (depth : Nat) (id : NodeId) (name : String)
    (position : Position) (arguments : List Expr) {machine : Machine} {frame : Frame}
    {below : List Frame} (stack : machine.stack = frame :: below) :
    let statement := Statement.call id name position arguments
    let ended := statement.execute (interpreter.call (interpreter.invoke depth)) machine
    let noted := machine.noteAll [.executing machine.stack statement]
    let evaluated := noted.noteAll (Expr.evaluations frame (arguments.flatMap Expr.parts))
    (after ended).stack = machine.stack
      ∧ match interpreter.resolve frame.scope name arguments.length with
        | .error reason => ended = .error (.fault (.mismatch reason)) noted
        | .ok (header, procedure) =>
          interpreter.scopes.findProcedure? frame.scope name = some header
            ∧ interpreter.procedures[header.name]? = some procedure
            ∧ match Expr.valuesIn frame arguments with
              | .error error => ended = .error (.fault error) evaluated
                ∧ (∃ earlier first later values, arguments = earlier ++ first :: later
                  ∧ List.Forall₂ (fun expr value => expr.valueIn frame = .ok value) earlier values
                  ∧ first.valueIn frame = .error error)
                ∧ ∀ callee level,
                  .entered callee level ∉ Expr.evaluations frame (arguments.flatMap Expr.parts)
              | .ok values =>
                let callee := callFrame header values
                List.Forall₂ (fun expr value => expr.valueIn frame = .ok value) arguments values
                  ∧ header.parameters.length = values.length
                  ∧ callee.scope = header.name
                  ∧ (∀ other, callee.get? other
                    = ((header.parameters.map FormalParameter.name).zip values).reverse.lookup other)
                  ∧ match depth with
                    | 0 => ended = .error .depthExceeded evaluated
                    | less + 1 => ∃ inner final, Activation machine.stack callee inner final
                      ∧ ended = onto (evaluated.noteAll (.entered callee (machine.stack.length + 1)
                          :: (inner ++ [.left final])))
                        (Statement.executeAll (interpreter.call (interpreter.invoke less))
                          procedure.block.body.statements (evaluated.push callee)) := by
  intro statement ended noted evaluated
  have called : ended = interpreter.call (interpreter.invoke depth) name arguments noted := by
    simp only [ended, statement, Statement.execute]
    rfl
  rw [call_eq (show noted.stack = frame :: below from stack)] at called
  cases resolved : interpreter.resolve frame.scope name arguments.length with
  | error reason =>
      rw [resolved] at called
      exact ⟨by rw [called]; rfl, called⟩
  | ok found =>
      obtain ⟨header, procedure⟩ := found
      obtain ⟨visible, indexed, count⟩ := resolve_eq_ok resolved
      simp only [resolved] at called
      cases given : Expr.valuesIn frame arguments with
      | error error =>
          rw [given] at called
          refine ⟨by rw [called]; rfl, visible, indexed, called,
            Expr.exists_of_valuesIn_error arguments given, fun callee level => ?_⟩
          exact Expr.entered_notMem_evaluations callee level _
      | ok values =>
          simp only [given] at called
          have each := (Expr.valuesIn_eq_ok_iff arguments values).mp given
          cases depth with
          | zero =>
              exact ⟨by rw [called]; rfl, visible, indexed, each, count.trans each.length_eq,
                scope_callFrame header values, get?_callFrame header values, called⟩
          | succ less =>
              obtain ⟨inner, final, activation, done⟩ :=
                invoke_succ less procedure (callFrame header values) evaluated
                  (interpreter.acts_invoke less)
              rw [done] at called
              exact ⟨by rw [called, after_onto]; rfl, visible, indexed, each,
                count.trans each.length_eq, scope_callFrame header values,
                get?_callFrame header values, inner, final, activation, called⟩

/-- The arguments `a + 1` and `a`. -/
def sumFirst : List Expr :=
  [.binary 20 .plus (.read ⟨18, "a", Position.start⟩) (.number 19 (.integer 1)) Position.start,
    .read ⟨21, "a", Position.start⟩]

/-- `PROGRAM main; VAR a: INTEGER; PROCEDURE second(a: INTEGER; b: INTEGER); BEGIN a := b END;
BEGIN a := 1; second(a + 1, a) END.` -/
def overwriting : Program :=
  ⟨25, "main", ⟨24, [⟨2, [⟨0, "a", Position.start⟩], ⟨1, .integer, Position.start⟩⟩],
    [⟨14, "second", Position.start,
      [⟨5, ⟨3, "a", Position.start⟩, ⟨4, .integer, Position.start⟩⟩,
        ⟨8, ⟨6, "b", Position.start⟩, ⟨7, .integer, Position.start⟩⟩],
      ⟨13, [], [],
        ⟨12, [.assignment 11 ⟨9, "a", Position.start⟩ (.read ⟨10, "b", Position.start⟩)]⟩⟩⟩],
    ⟨23, [.assignment 17 ⟨15, "a", Position.start⟩ (.number 16 (.integer 1)),
      .call 22 "second" Position.start sumFirst]⟩⟩⟩

theorem call_isolated_overwriting :
    let interpreter := ofProgram overwriting (Analysis.run overwriting).scopes
    let caller := (Frame.ofScope "main").set "a" (.integer 1)
    let callee := callFrame ⟨"second", [⟨"a", .integer⟩, ⟨"b", .integer⟩]⟩ [.integer 2, .integer 1]
    let call := Statement.call 22 "second" Position.start sumFirst
    ∃ reached inner final,
      call.execute (interpreter.call (interpreter.invoke 1)) ⟨[caller], []⟩ = .ok () reached
        ∧ reached.stack = [caller] ∧ Activation [caller] callee inner final
        ∧ reached.history = [.executing [caller] call]
          ++ Expr.evaluations caller (sumFirst.flatMap Expr.parts)
          ++ .entered callee 2 :: (inner ++ [.left final]) := by
  intro interpreter caller callee call
  have completes : EStateM.run' (call.execute (interpreter.call (interpreter.invoke 1)))
      ⟨[caller], []⟩ = some () := by decide +kernel
  have visible : interpreter.scopes.findProcedure? caller.scope "second"
      = some ⟨"second", [⟨"a", .integer⟩, ⟨"b", .integer⟩]⟩ := by decide +kernel
  have given : Expr.valuesIn caller sumFirst = .ok [.integer 2, .integer 1] := by decide +kernel
  obtain ⟨kept, goes⟩ := call_isolated interpreter 1 22 "second" Position.start sumFirst
    (show (Machine.mk [caller] []).stack = caller :: [] from rfl)
  cases ended : call.execute (interpreter.call (interpreter.invoke 1)) ⟨[caller], []⟩ with
  | error halt reached =>
      delta EStateM.run' EStateM.run at completes
      rw [ended] at completes
      cases completes
  | ok value reached =>
      rw [ended] at kept goes
      split at goes
      · cases goes
      · obtain ⟨found, _, goes⟩ := goes
        cases visible.symm.trans found
        rw [given] at goes
        obtain ⟨_, _, _, _, inner, final, activation, ends⟩ := goes
        refine ⟨reached, inner, final, rfl, kept, activation, ?_⟩
        have same : reached = _ := (congrArg after ends).trans (after_onto _ _)
        rw [same, Machine.history_noteAll, Machine.history_noteAll, Machine.history_noteAll]
        rfl

end Interpreter
end MiniPascal
