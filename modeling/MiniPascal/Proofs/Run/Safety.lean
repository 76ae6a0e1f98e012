import MiniPascal.Proofs.Run.Rules

/-! # Runs of analysed programs

A program that the analysis accepts never gets into a state for which its scopes make no provision.
The main statement says so for every run of an interpreter for the program, also one that has run
before, and with calls nested to any depth. -/
set_option autoImplicit false
namespace MiniPascal

namespace Interpreter

open Execute

/-- The interpreter of an analysed program, with only frames on its stack that fit. -/
structure Sound (interpreter : Interpreter) : Prop where
  accepted : interpreter.program.analyse = .ok interpreter.scopes
  indexed : interpreter.procedures = interpreter.program.block.index ∅
  frames : ∀ frame ∈ interpreter.machine.stack, frame.Fits interpreter.scopes

/-- The rule that bodies are invoked with. -/
def InvokesKeep (interpreter : Interpreter) (invoke : Procedure → Frame → Execute Unit) : Prop :=
  ∀ procedure ∈ interpreter.program.block.allProcedures, ∀ frame : Frame,
    frame.scope = procedure.name → frame.Fits interpreter.scopes →
      ∀ scope rest, Keeps interpreter scope rest (fun _ => True) (invoke procedure frame)

namespace Sound

variable {interpreter : Interpreter} {invoked : Procedure → Frame → Execute Unit}

/-- Every call in the statements of a scope resolves. -/
theorem resolves (sound : interpreter.Sound) {scope : Scope}
    (member : scope ∈ interpreter.program.scopes) {id : NodeId} {name : String}
    {position : Position} {arguments : List Expr}
    (inside : .call id name position arguments ∈ Statement.visitsOf scope.statements) :
    interpreter.Resolves scope.name id name position arguments := by
  have site := Program.site_of_mem sound.accepted member inside
  obtain ⟨earlier, later, split, here⟩ := site
  obtain ⟨header, _, final, count, place, declared⟩ := Program.call_resolves sound.accepted split
  rw [here] at final
  obtain ⟨procedure, among, same⟩ := interpreter.program.exists_procedure declared
  have named : procedure.name = header.name := congrArg ProcedureHeader.name same
  obtain ⟨found, unique⟩ := Program.index_of_analyse sound.accepted among
  rw [named] at found unique
  refine ⟨⟨earlier, later, split, here⟩, header, procedure, final, ?_, sound.indexed ▸ found, same,
    unique, count⟩
  intro before after other
  obtain ⟨known, resolved, _, _, around, again⟩ := Program.call_resolves sound.accepted other
  rw [resolved, Program.header_unique sound.accepted again declared]

theorem fits_ofScope (sound : interpreter.Sound) {scope : Scope}
    (member : scope ∈ interpreter.program.scopes) :
    (Frame.ofScope scope.name).Fits interpreter.scopes := by
  obtain ⟨table, found, _⟩ := Program.table_of_analyse sound.accepted member
  refine Frame.fits_ofScope ?_
  rw [found]
  rfl

/-- The frame of a call has values only for the parameters of the procedure. -/
theorem fits_callFrame (sound : interpreter.Sound) {procedure : Procedure}
    (among : procedure ∈ interpreter.program.block.allProcedures) (values : List Number) :
    (callFrame procedure.header values).Fits interpreter.scopes := by
  obtain ⟨scope, member, named, params, _⟩ :=
    Block.exists_scope_of_mem _ none [] [] interpreter.program.block procedure among
  have fits := sound.fits_ofScope member
  rw [named] at fits
  refine Frame.fits_setAll _ _ fits fun entry inside => ?_
  have parameter := (List.of_mem_zip inside).1
  obtain ⟨formal, listed, same⟩ := List.mem_map.mp parameter
  obtain ⟨param, declared, rfl⟩ := List.mem_map.mp listed
  have known : entry.1 ∈ scope.typedNames.map Prod.fst := by
    rw [Scope.typedNames, List.map_append, List.map_map]
    exact List.mem_append_left _ (List.mem_map.mpr ⟨param, params ▸ declared, same⟩)
  have held := Program.hasVariable_of_mem sound.accepted member known
  rw [named] at held
  exact held

theorem keeps_call (sound : interpreter.Sound) (invokes : interpreter.InvokesKeep invoked)
    (scope : String) (rest : List Frame) :
    CallsKeep interpreter scope rest (interpreter.call invoked) := by
  intro id name position arguments resolves declared
  obtain ⟨_, header, procedure, found, _, indexed, same, unique, count⟩ := resolves
  have among : procedure ∈ interpreter.program.block.allProcedures :=
    List.mem_of_mem_filter (unique ▸ List.mem_singleton_self procedure)
  refine Keeps.bind Keeps.innermost fun frame here => ?_
  simp only [here, found, indexed, if_pos count]
  refine Keeps.bind (Keeps.evaluateAll arguments declared) fun values _ => ?_
  subst same
  exact invokes procedure among _ (Frame.scope_setAll _ _) (sound.fits_callFrame among values)
    scope rest

theorem keeps_body (sound : interpreter.Sound) (invokes : interpreter.InvokesKeep invoked)
    {scope : Scope} (member : scope ∈ interpreter.program.scopes) (rest : List Frame) :
    Keeps interpreter scope.name rest (fun _ => True)
      (Statement.executeAll (interpreter.call invoked) scope.statements) := by
  have wellFormed :=
    (interpreter.program.exists_analyse_iff.mp ⟨interpreter.scopes, sound.accepted⟩).1
  refine Statement.keepsAll (sound.keeps_call invokes scope.name rest) scope.statements ?_ ?_
  · intro used mentioned
    exact Program.hasVariable_of_mem sound.accepted member
      (wellFormed.mentions scope member used mentioned)
  · intro id name position arguments inside
    exact sound.resolves member inside

/-- Invoking a procedure keeps every scope, whatever depth of calls is allowed for. -/
theorem keeps_invoke (sound : interpreter.Sound) : ∀ depth : Nat,
    interpreter.InvokesKeep (interpreter.invoke depth) := by
  intro depth
  induction depth with
  | zero =>
      intro procedure _ frame _ _ scope rest machine here
      exact ⟨trivial, here⟩
  | succ depth ih =>
      intro procedure among frame same fits scope rest machine here
      obtain ⟨inner, member, named, _, statements⟩ :=
        Block.exists_scope_of_mem _ none [] [] interpreter.program.block procedure among
      have body := sound.keeps_body ih member machine.stack
      rw [named, statements, ← same] at body
      have framed := Keeps.framed here.toAgrees fits body
      simp only [Interpreter.invoke, Bind.bind, EStateM.bind]
      cases result : Execute.framed frame (Statement.executeAll
          (interpreter.call (interpreter.invoke depth)) procedure.block.body.statements) machine with
      | ok last after =>
          rw [result] at framed
          obtain ⟨_, stack, agrees⟩ := framed
          exact ⟨trivial, agrees, stack ▸ here.innermost⟩
      | error halt after =>
          rw [result] at framed
          obtain ⟨expected, stack, agrees⟩ := framed
          exact ⟨expected, agrees, stack ▸ here.innermost⟩

end Sound

/-- Interpreters of a program with its scopes: new ones, and those that have run. -/
inductive Started (program : Program) (tree : ScopeTree) : Interpreter → Prop where
  | new : Started program tree (ofProgram program tree)
  | again {interpreter : Interpreter} (depth : Nat) :
    Started program tree interpreter → Started program tree (interpreter.run depth).2

/-- What a run of an analysed program comes to. -/
def Result (interpreter : Interpreter) : Except Halt Outcome → Prop
  | .ok outcome => outcome.frame.scope = interpreter.program.name
    ∧ outcome.frame.Fits interpreter.scopes
    ∧ ∀ frame ∈ outcome.completed, frame.Fits interpreter.scopes
  | .error halt => halt.Expected interpreter.scopes

theorem executeProgram_keeps {interpreter : Interpreter} (sound : interpreter.Sound) (depth : Nat)
    {machine : Machine} (agrees : machine.Agrees interpreter) :
    match interpreter.executeProgram depth machine with
    | .ok last after => (∃ final, last = some final ∧ final.scope = interpreter.program.name
        ∧ final.Fits interpreter.scopes)
      ∧ after.stack = machine.stack ∧ after.Agrees interpreter
    | .error halt after => halt.Expected interpreter.scopes
      ∧ after.stack = machine.stack ∧ after.Agrees interpreter := by
  obtain ⟨scope, member, named, statements⟩ := interpreter.program.exists_own_scope
  have fits := sound.fits_ofScope member
  have body := sound.keeps_body (sound.keeps_invoke depth) member machine.stack
  rw [named] at fits
  rw [named, statements] at body
  exact Keeps.framed agrees fits body

/-- One run: what it comes to, what has happened in it, and what it leaves. -/
theorem Sound.run {interpreter : Interpreter} (sound : interpreter.Sound) (depth : Nat) :
    interpreter.Result (interpreter.run depth).1
      ∧ (interpreter.run depth).2.Sound
      ∧ ∀ event ∈ (interpreter.run depth).2.machine.history, event.Agrees interpreter := by
  have cleared : Machine.Agrees interpreter
      ⟨interpreter.machine.stack, [.started interpreter.program.name]⟩ := by
    refine ⟨sound.frames, ?_⟩
    intro event member
    rw [List.mem_singleton.mp member]
    exact trivial
  have done := executeProgram_keeps sound depth cleared
  have ready : ∀ {after : Machine}, after.stack = interpreter.machine.stack →
      Sound { interpreter with machine := after } :=
    fun same => ⟨sound.accepted, sound.indexed, same ▸ sound.frames⟩
  have happened : ∀ {after : Machine}, after.Agrees interpreter →
      ∀ event ∈ after.history, event.Agrees interpreter :=
    fun agrees event member => agrees.events event (List.mem_reverse.mp member)
  rw [Interpreter.run]
  cases result : interpreter.executeProgram depth
      ⟨interpreter.machine.stack, [.started interpreter.program.name]⟩ with
  | ok last after =>
      rw [result] at done
      obtain ⟨⟨final, rfl, named, fits⟩, stack, agrees⟩ := done
      refine ⟨⟨named, fits, fun frame member => ?_⟩, ready stack, happened agrees⟩
      obtain ⟨event, inside, left⟩ := List.mem_filterMap.mp member
      cases event <;> cases left
      exact happened agrees _ inside
  | error halt after =>
      rw [result] at done
      obtain ⟨expected, stack, agrees⟩ := done
      exact ⟨expected, ready stack, happened agrees⟩

theorem run_fields (interpreter : Interpreter) (depth : Nat) :
    (interpreter.run depth).2.program = interpreter.program
      ∧ (interpreter.run depth).2.scopes = interpreter.scopes := by
  rw [Interpreter.run]
  cases result : interpreter.executeProgram depth
      ⟨interpreter.machine.stack, [.started interpreter.program.name]⟩ with
  | ok last after => cases last <;> exact ⟨rfl, rfl⟩
  | error halt after => exact ⟨rfl, rfl⟩

theorem Started.sound {program : Program} {tree : ScopeTree}
    (accepted : program.analyse = .ok tree) {interpreter : Interpreter}
    (started : Started program tree interpreter) :
    interpreter.Sound ∧ interpreter.program = program ∧ interpreter.scopes = tree := by
  induction started with
  | new => exact ⟨⟨accepted, rfl, by simp [ofProgram, Machine.idle]⟩, rfl, rfl⟩
  | @again interpreter depth _ ih =>
      obtain ⟨sound, programs, trees⟩ := ih
      obtain ⟨same, still⟩ := interpreter.run_fields depth
      exact ⟨(sound.run depth).2.1, same.trans programs, still.trans trees⟩

/-- Analysis is sound for execution. In every run of an analysed program the frames fit its scopes,
every call resolves to the header that the analysis found at its site and to the one declaration of
that name, and no run ends with an internal error. -/
theorem run_agrees {program : Program} {tree : ScopeTree} (accepted : program.analyse = .ok tree)
    {interpreter : Interpreter} (started : Started program tree interpreter) (depth : Nat) :
    interpreter.program = program ∧ interpreter.scopes = tree
      ∧ (∀ event ∈ (interpreter.run depth).2.machine.history, event.Agrees interpreter)
      ∧ (∀ frame ∈ (interpreter.run depth).2.machine.stack, frame.Fits tree)
      ∧ interpreter.Result (interpreter.run depth).1 := by
  obtain ⟨sound, programs, trees⟩ := started.sound accepted
  obtain ⟨result, further, happened⟩ := sound.run depth
  refine ⟨programs, trees, happened, ?_, result⟩
  have fits := further.frames
  rw [(interpreter.run_fields depth).2, trees] at fits
  exact fits

/-- `PROGRAM main; PROCEDURE step(n: INTEGER); BEGIN step(6 DIV n - 1) END; BEGIN step(3) END.` -/
def descending : Program :=
  ⟨16, "main", ⟨15, [],
    [⟨11, "step", Position.start, [⟨2, ⟨0, "n", Position.start⟩, ⟨1, .integer, Position.start⟩⟩],
      ⟨10, [], [], ⟨9, [.call 8 "step" Position.start
        [.binary 7 .minus
          (.binary 5 .integerDivide (.number 3 (.integer 6)) (.read ⟨4, "n", Position.start⟩)
            ⟨1, 57⟩)
          (.number 6 (.integer 1)) Position.start]]⟩⟩⟩],
    ⟨14, [.call 13 "step" Position.start [.number 12 (.integer 3)]]⟩⟩⟩

theorem analyse_descending : descending.analyse = .ok (Analysis.run descending).scopes :=
  (descending.analyse_eq_ok_iff _).mpr ⟨by decide +kernel, rfl⟩

theorem run_agrees_descending : ∃ tree, descending.analyse = .ok tree ∧ ∀ depth,
    (∀ event ∈ ((ofProgram descending tree).run depth).2.machine.history,
        event.Agrees (ofProgram descending tree))
      ∧ (∀ frame ∈ ((ofProgram descending tree).run depth).2.machine.stack, frame.Fits tree)
      ∧ (ofProgram descending tree).Result ((ofProgram descending tree).run depth).1 :=
  ⟨_, analyse_descending, fun depth => (run_agrees analyse_descending .new depth).2.2⟩

end Interpreter
end MiniPascal
