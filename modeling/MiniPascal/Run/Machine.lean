import MiniPascal.Program.Printer
import MiniPascal.Report.Log
import MiniPascal.Run.Frame
import MiniPascal.Scope.Symbol

/-! # The machine

A machine is a stack of frames and the record of everything that has happened. Frames that were
left, the latest value of every expression and the log are views of that record. The main
statements say what each operation adds to the history, and that taking a frame off undoes putting
it on. -/
set_option autoImplicit false
namespace MiniPascal

inductive Event where
  /-- A run of a program begins. -/
  | started (program : String)
  /-- A frame is put on the stack, which then has the given depth. -/
  | entered (frame : Frame) (depth : Nat)
  /-- A frame is taken off the stack. -/
  | left (frame : Frame)
  /-- A statement is about to be executed on the given stack. -/
  | executing (stack : List Frame) (statement : Statement)
  /-- An expression has a value. -/
  | evaluated (id : NodeId) (value : Number)
  /-- A variable is about to get a value. -/
  | assigned (name : String) (value : Number)

namespace Event

def leftFrame? : Event → Option Frame
  | .left frame => some frame
  | _ => none

def updateValues (values : Std.TreeMap NodeId Number) : Event → Std.TreeMap NodeId Number
  | .evaluated id value => values.insert id value
  | _ => values

/-- What the log says about an event. Brackets and empty statements do nothing by themselves, so
the log does not mention them. -/
def record? : Event → Option LogRecord
  | .started program => some ⟨.info, "Running program '" ++ program ++ "'"⟩
  | .entered frame depth =>
    some ⟨.debug, "Entering scope '" ++ frame.scope ++ "' (depth " ++ depth.repr ++ ")"⟩
  | .left frame => some ⟨.debug, "Leaving " ++ frame.shown⟩
  | .executing _ (.compound _ _) => none
  | .executing _ (.empty _) => none
  | .executing _ statement => some ⟨.trace, "Executing " ++ statement.shown⟩
  | .evaluated _ _ => none
  | .assigned name value =>
    some ⟨.trace, name ++ " := " ++ value.shown ++ " (" ++ value.dataType.name ++ ")"⟩

end Event

/-- A stack of frames, the innermost first, and the events so far, the latest first. -/
structure Machine where
  stack : List Frame
  events : List Event

namespace Machine

def idle : Machine :=
  ⟨[], []⟩

def note (machine : Machine) (event : Event) : Machine :=
  { machine with events := event :: machine.events }

def push (machine : Machine) (frame : Frame) : Machine :=
  { machine.note (.entered frame (machine.stack.length + 1)) with
    stack := frame :: machine.stack }

/-- Takes the innermost frame off the stack. An empty stack stays as it is. -/
def pop (machine : Machine) : Option Frame × Machine :=
  match machine.stack with
  | [] => (none, machine)
  | frame :: rest => (some frame, { machine.note (.left frame) with stack := rest })

/-- The events in the order in which they happened. -/
def history (machine : Machine) : List Event :=
  machine.events.reverse

def completed (machine : Machine) : List Frame :=
  machine.history.filterMap Event.leftFrame?

/-- The latest value of every expression that was evaluated. -/
def values (machine : Machine) : Std.TreeMap NodeId Number :=
  machine.history.foldl Event.updateValues ∅

def log (machine : Machine) : List LogRecord :=
  machine.history.filterMap Event.record?

/-! ## What the operations do to the stack and the history -/

theorem stack_note (machine : Machine) (event : Event) :
    (machine.note event).stack = machine.stack :=
  rfl

theorem history_note (machine : Machine) (event : Event) :
    (machine.note event).history = machine.history ++ [event] :=
  List.reverse_cons

theorem stack_push (machine : Machine) (frame : Frame) :
    (machine.push frame).stack = frame :: machine.stack :=
  rfl

end Machine
end MiniPascal
