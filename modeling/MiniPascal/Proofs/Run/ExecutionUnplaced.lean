import MiniPascal.Proofs.Program.Unplaced
import MiniPascal.Run.Interpreter
import Std.Data.TreeMap.Lemmas

/-! # Execution without positions

A run reads a position only to put it into the fault that ends the run. Without positions a program
therefore does the same steps: the frames and the values are equal, and a run that ends early ends
for the same reason, but for its position. -/
set_option autoImplicit false
namespace MiniPascal

def RuntimeError.unplaced : RuntimeError → RuntimeError
  | .divisionByZero _ => .divisionByZero Position.start
  | .uninitialized name scope _ => .uninitialized name scope Position.start
  | .overflow _ => .overflow Position.start
  | .mismatch reason => .mismatch reason

def Halt.unplaced : Halt → Halt
  | .fault error => .fault error.unplaced
  | .depthExceeded => .depthExceeded

/-- Only the statements that are executed have positions in them. -/
def Event.unplaced : Event → Event
  | .executing stack statement => .executing stack statement.unplaced
  | event => event

def Machine.unplaced (machine : Machine) : Machine :=
  { machine with events := machine.events.map Event.unplaced }

namespace Machine

variable (machine : Machine)

theorem push_unplaced (frame : Frame) :
    machine.unplaced.push frame = (machine.push frame).unplaced :=
  rfl

theorem pop_unplaced : machine.unplaced.pop = (machine.pop.1, machine.pop.2.unplaced) := by
  obtain ⟨stack, events⟩ := machine
  cases stack <;> rfl

theorem completed_unplaced : machine.unplaced.completed = machine.completed := by
  have same : ∀ event : Event, event.unplaced.leftFrame? = event.leftFrame? := by
    intro event
    cases event <;> rfl
  have erased : Event.leftFrame? ∘ Event.unplaced = Event.leftFrame? := funext same
  simp only [completed, history, unplaced, ← List.map_reverse, List.filterMap_map, erased]

theorem values_unplaced : machine.unplaced.values = machine.values := by
  have same : ∀ (values : Std.TreeMap NodeId Number) (event : Event),
      event.unplaced.updateValues values = event.updateValues values := by
    intro values event
    cases event <;> rfl
  simp only [values, history, unplaced, ← List.map_reverse, List.foldl_map, same]

end Machine

/-! ## Steps of a machine -/

/-- On the machine without positions the second computation has the outcome of the first, but for
positions. -/
abbrev Execute.Mirrors {α : Type} (first second : Execute α) : Prop :=
  MiniPascal.Mirrors Halt.unplaced Machine.unplaced id first second

namespace Execute.Mirrors

theorem fail {α : Type} (error : RuntimeError) :
    Mirrors (Execute.fail error : Execute α) (Execute.fail error.unplaced) :=
  fun _ => rfl

theorem note (event : Event) : Mirrors (Execute.note event) (Execute.note event.unplaced) :=
  fun _ => rfl

theorem innermost : Mirrors Execute.innermost Execute.innermost := by
  rintro ⟨stack, events⟩
  cases stack <;> rfl

theorem assign (name : String) (value : Number) :
    Mirrors (Execute.assign name value) (Execute.assign name value) := by
  rintro ⟨stack, events⟩
  cases stack <;> rfl

theorem noteStatement (statement : Statement) :
    Mirrors (Execute.noteStatement statement) (Execute.noteStatement statement.unplaced) :=
  fun _ => rfl

theorem framed (frame : Frame) {body body' : Execute Unit} (bodies : Mirrors body body') :
    Mirrors (Execute.framed frame body) (Execute.framed frame body') := by
  intro machine
  have same := bodies (machine.push frame)
  rw [← Machine.push_unplaced] at same
  rw [Execute.framed, Execute.framed, same]
  cases body (machine.push frame) <;> simp only [mapOutcome, Machine.pop_unplaced, id]

theorem arithmetic (position : Position) (result : Except ArithmeticFault Number) :
    Mirrors (Execute.arithmetic position result) (Execute.arithmetic Position.start result) := by
  cases result with
  | ok value => exact MiniPascal.Mirrors.pure
  | error fault => cases fault <;> exact fail _

end Execute.Mirrors

/-! ## Expressions and statements -/

theorem Expr.mirrors_evaluate (expr : Expr) :
    Execute.Mirrors expr.evaluate expr.unplaced.evaluate := by
  induction expr with
  | number id value =>
      rw [unplaced, evaluate]
      exact (Execute.Mirrors.note (.evaluated id value)).bind fun _ => .pure
  | read source =>
      rw [unplaced, evaluate, evaluate]
      apply Execute.Mirrors.innermost.bind
      intro frame
      simp only [Variable.unplaced, id_eq]
      cases frame.get? source.name with
      | none => exact Execute.Mirrors.fail _
      | some value => exact (Execute.Mirrors.note (.evaluated source.id value)).bind fun _ => .pure
  | unary id operator operand position ih =>
      rw [unplaced, evaluate, evaluate]
      apply ih.bind
      intro inner
      apply (Execute.Mirrors.arithmetic position (operator.apply inner)).bind
      intro value
      exact (Execute.Mirrors.note (.evaluated id value)).bind fun _ => .pure
  | binary id operator left right position ihl ihr =>
      rw [unplaced, evaluate, evaluate]
      apply ihl.bind
      intro first
      apply ihr.bind
      intro second
      apply (Execute.Mirrors.arithmetic position (operator.apply first second)).bind
      intro value
      exact (Execute.Mirrors.note (.evaluated id value)).bind fun _ => .pure

theorem Expr.mirrors_evaluateAll (exprs : List Expr) :
    Execute.Mirrors (Expr.evaluateAll exprs) (Expr.evaluateAll (exprs.map Expr.unplaced)) := by
  induction exprs with
  | nil => exact .pure
  | cons first rest ih =>
      rw [List.map_cons, evaluateAll, evaluateAll]
      apply first.mirrors_evaluate.bind
      intro value
      exact ih.bind fun values => .pure

namespace Statement

variable {call call' : String → List Expr → Execute Unit}

mutual

theorem mirrors_execute
    (calls : ∀ name arguments, Execute.Mirrors (call name arguments)
      (call' name (arguments.map Expr.unplaced))) :
    ∀ statement : Statement,
      Execute.Mirrors (statement.execute call) (statement.unplaced.execute call')
  | .compound id statements => by
      rw [unplaced, execute, execute]
      exact (Execute.Mirrors.noteStatement (.compound id statements)).bind fun _ =>
        mirrors_executeAll calls statements
  | .assignment id target value => by
      rw [unplaced, execute, execute]
      apply (Execute.Mirrors.noteStatement (.assignment id target value)).bind
      intro _
      apply value.mirrors_evaluate.bind
      intro result
      apply (Execute.Mirrors.note (.assigned target.name result)).bind
      exact fun _ => Execute.Mirrors.assign target.name result
  | .call id name position arguments => by
      rw [unplaced, execute, execute]
      exact (Execute.Mirrors.noteStatement (.call id name position arguments)).bind fun _ =>
        calls name arguments
  | .empty id => Execute.Mirrors.noteStatement (.empty id)

theorem mirrors_executeAll
    (calls : ∀ name arguments, Execute.Mirrors (call name arguments)
      (call' name (arguments.map Expr.unplaced))) :
    ∀ statements : List Statement,
      Execute.Mirrors (executeAll call statements) (executeAll call' (unplacedAll statements))
  | [] => .pure
  | statement :: rest => by
      rw [unplacedAll, executeAll, executeAll]
      exact (mirrors_execute calls statement).bind fun _ => mirrors_executeAll calls rest

end

end Statement

/-! ## Calls -/

/-- The second table has the procedures of the first without their positions. -/
def IndexMirrors (first second : Std.TreeMap String Procedure) : Prop :=
  ∀ name : String, second[name]? = first[name]?.map Procedure.unplaced

theorem IndexMirrors.insert {first second : Std.TreeMap String Procedure}
    (mirrors : IndexMirrors first second) (procedure : Procedure) :
    IndexMirrors (first.insert procedure.name procedure)
      (second.insert procedure.name procedure.unplaced) := by
  intro name
  rw [Std.TreeMap.getElem?_insert, Std.TreeMap.getElem?_insert, mirrors name]
  split <;> rfl

mutual

theorem Block.indexMirrors : ∀ (block : Block) {first second : Std.TreeMap String Procedure},
    IndexMirrors first second → IndexMirrors (block.index first) (block.unplaced.index second)
  | ⟨id, declarations, procedures, body⟩, first, second, mirrors => by
      rw [Block.unplaced, Block.index, Block.index]
      exact Procedure.indexMirrors procedures mirrors

theorem Procedure.indexMirrors :
    ∀ (procedures : List Procedure) {first second : Std.TreeMap String Procedure},
      IndexMirrors first second → IndexMirrors (Procedure.indexAll first procedures)
        (Procedure.indexAll second (Procedure.unplacedAll procedures))
  | [], first, second, mirrors => by
      rw [Procedure.unplacedAll, Procedure.indexAll, Procedure.indexAll]
      exact mirrors
  | ⟨id, name, position, params, block⟩ :: rest, first, second, mirrors => by
      rw [Procedure.unplacedAll, Procedure.indexAll, Procedure.indexAll]
      exact Procedure.indexMirrors rest (Block.indexMirrors block
        (mirrors.insert ⟨id, name, position, params, block⟩))

end

namespace Interpreter

variable {first second : Interpreter}

theorem mirrors_call (scopes : second.scopes = first.scopes)
    (procedures : IndexMirrors first.procedures second.procedures)
    {invoke invoke' : Procedure → Frame → Execute Unit}
    (invokes : ∀ procedure frame, Execute.Mirrors (invoke procedure frame)
      (invoke' procedure.unplaced frame)) (name : String) (arguments : List Expr) :
    Execute.Mirrors (first.call invoke name arguments)
      (second.call invoke' name (arguments.map Expr.unplaced)) := by
  rw [call, call, scopes]
  apply Execute.Mirrors.innermost.bind
  intro frame
  simp only [id_eq]
  cases first.scopes.findProcedure? frame.scope name with
  | none => exact Execute.Mirrors.fail _
  | some header =>
      simp only [procedures header.name, List.length_map]
      cases first.procedures[header.name]? with
      | none => exact Execute.Mirrors.fail _
      | some procedure =>
          simp only [Option.map_some]
          split
          · apply (Expr.mirrors_evaluateAll arguments).bind
            exact fun values => invokes procedure (callFrame header values)
          · exact Execute.Mirrors.fail _

theorem mirrors_invoke (scopes : second.scopes = first.scopes)
    (procedures : IndexMirrors first.procedures second.procedures) (depth : Nat) :
    ∀ (procedure : Procedure) (frame : Frame),
      Execute.Mirrors (first.invoke depth procedure frame)
        (second.invoke depth procedure.unplaced frame) := by
  induction depth with
  | zero => exact fun procedure frame => MiniPascal.Mirrors.throw
  | succ depth ih =>
      intro procedure frame
      obtain ⟨id, name, position, params, ⟨block, declarations, nested, body⟩⟩ := procedure
      rw [invoke, invoke]
      have bodies := Statement.mirrors_executeAll (mirrors_call scopes procedures ih)
        body.statements
      exact (Execute.Mirrors.framed frame bodies).bind fun _ => .pure

end Interpreter

theorem Interpreter.mirrors_executeProgram (program : Program) (scopes : ScopeTree) (depth : Nat) :
    Execute.Mirrors ((ofProgram program scopes).executeProgram depth)
      ((ofProgram program.unplaced scopes).executeProgram depth) := by
  obtain ⟨id, name, ⟨blockId, declarations, procedures, body⟩⟩ := program
  let first := ofProgram ⟨id, name, ⟨blockId, declarations, procedures, body⟩⟩ scopes
  let second := ofProgram
    (Program.unplaced ⟨id, name, ⟨blockId, declarations, procedures, body⟩⟩) scopes
  have nothing : IndexMirrors ∅ ∅ := by
    intro name
    rw [Std.TreeMap.getElem?_emptyc]
    rfl
  have index : IndexMirrors first.procedures second.procedures := Block.indexMirrors _ nothing
  have same : second.scopes = first.scopes := rfl
  have calls := mirrors_call same index (mirrors_invoke same index depth)
  exact .framed (Frame.ofScope name) (Statement.mirrors_executeAll calls body.statements)

/-- Without positions a run has the same outcome, or ends early for the same reason but for its
position. -/
theorem Program.run_unplaced (program : Program) (scopes : ScopeTree) (depth : Nat) :
    ((Interpreter.ofProgram program.unplaced scopes).run depth).1
      = ((Interpreter.ofProgram program scopes).run depth).1.mapError Halt.unplaced := by
  have same := Interpreter.mirrors_executeProgram program scopes depth ⟨[], [.started program.name]⟩
  have stack : (Interpreter.ofProgram program.unplaced scopes).machine.stack = [] := rfl
  have stack' : (Interpreter.ofProgram program scopes).machine.stack = [] := rfl
  have name : (Interpreter.ofProgram program.unplaced scopes).program.name = program.name := rfl
  have name' : (Interpreter.ofProgram program scopes).program.name = program.name := rfl
  have cleared : Machine.unplaced ⟨[], [.started program.name]⟩ = ⟨[], [.started program.name]⟩ :=
    rfl
  rw [cleared] at same
  simp only [Interpreter.run, stack, stack', name, name', same]
  cases (Interpreter.ofProgram program scopes).executeProgram depth
      ⟨[], [.started program.name]⟩ with
  | ok left machine =>
      cases left with
      | some frame =>
          simp only [mapOutcome, id_eq, machine.completed_unplaced, machine.values_unplaced]
          rfl
      | none => rfl
  | error halt machine => rfl

end MiniPascal
