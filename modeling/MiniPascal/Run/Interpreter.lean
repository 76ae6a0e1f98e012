import MiniPascal.Run.Execution

/-! # The interpreter

An interpreter runs a program with the scopes that go with it. Every call puts a frame of its own
on the stack that holds nothing but the arguments, and takes it off again. A run may be repeated:
it forgets the record of the run before and leaves the stack as it found it. -/
set_option autoImplicit false
namespace MiniPascal

mutual

/-- The procedures of a block by name, at every depth. A later or deeper one replaces an earlier
one of the same name. -/
def Block.index (found : Std.TreeMap String Procedure) : Block → Std.TreeMap String Procedure
  | ⟨_, _, procedures, _⟩ => Procedure.indexAll found procedures

/-- The given procedures and those inside them, behind the ones found already. -/
def Procedure.indexAll (found : Std.TreeMap String Procedure) :
    List Procedure → Std.TreeMap String Procedure
  | [] => found
  | ⟨id, name, position, params, block⟩ :: rest =>
    Procedure.indexAll
      (Block.index (found.insert name ⟨id, name, position, params, block⟩) block) rest

end

/-- A program, its scopes and procedures, and the machine it runs on. -/
structure Interpreter where
  program : Program
  scopes : ScopeTree
  procedures : Std.TreeMap String Procedure
  machine : Machine

/-- What a successful run leaves: the program's own frame, all frames in the order in which they
were left, and the latest value of every expression. -/
structure Outcome where
  frame : Frame
  completed : List Frame
  values : Std.TreeMap NodeId Number

namespace Interpreter

def ofProgram (program : Program) (scopes : ScopeTree) : Interpreter :=
  ⟨program, scopes, program.block.index ∅, Machine.idle⟩

/-- The frame of a call: every parameter with its argument. -/
def callFrame (header : ProcedureHeader) (values : List Number) : Frame :=
  (Frame.ofScope header.name).setAll ((header.parameters.map FormalParameter.name).zip values)

/-- Executes a call from the innermost frame, where `invoke` executes a body in a frame. The
arguments are evaluated before the new frame is there. -/
def call (interpreter : Interpreter) (invoke : Procedure → Frame → Execute Unit) (name : String)
    (arguments : List Expr) : Execute Unit := do
  let frame ← Execute.innermost
  match interpreter.scopes.findProcedure? frame.scope name with
  | none => Execute.fail (.mismatch (.procedureNotFound name))
  | some header =>
    match interpreter.procedures[header.name]? with
    | none => Execute.fail (.mismatch (.declarationMissing header.name))
    | some procedure =>
      if header.parameters.length = arguments.length then
        let values ← Expr.evaluateAll arguments
        invoke procedure (callFrame header values)
      else
        Execute.fail (.mismatch
          (.argumentCount header.name arguments.length header.parameters.length))

/-- Executes the body of a procedure in a frame, with calls nested up to the given depth. -/
def invoke (interpreter : Interpreter) : Nat → Procedure → Frame → Execute Unit
  | 0, _, _ => throw .depthExceeded
  | depth + 1, procedure, frame => do
    let _ ← Execute.framed frame
      (Statement.executeAll (interpreter.call (interpreter.invoke depth))
        procedure.block.body.statements)

def executeProgram (interpreter : Interpreter) (depth : Nat) : Execute (Option Frame) :=
  Execute.framed (Frame.ofScope interpreter.program.name)
    (Statement.executeAll (interpreter.call (interpreter.invoke depth))
      interpreter.program.block.body.statements)

/-- Runs the program with calls nested up to the given depth. -/
def run (interpreter : Interpreter) (depth : Nat) : Except Halt Outcome × Interpreter :=
  let cleared : Machine := ⟨interpreter.machine.stack, [.started interpreter.program.name]⟩
  match interpreter.executeProgram depth cleared with
  | .ok (some frame) machine =>
    (.ok ⟨frame, machine.completed, machine.values⟩, { interpreter with machine := machine })
  | .ok none machine =>
    (.error (.fault (.mismatch .programFrameMissing)), { interpreter with machine := machine })
  | .error halt machine => (.error halt, { interpreter with machine := machine })

def callDepth (interpreter : Interpreter) : Nat :=
  interpreter.machine.stack.length

end Interpreter
end MiniPascal
