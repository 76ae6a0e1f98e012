import MiniPascal.Number.Basic
import Std.Data.TreeMap.Basic

/-! # Frames

A frame holds the values of the variables of one activation of a procedure, or of the program
itself. A variable without a value is not in the frame. -/
set_option autoImplicit false
namespace MiniPascal

/-- The scope that is executed and the values its variables have. -/
structure Frame where
  scope : String
  bindings : Std.TreeMap String Number

namespace Frame

def ofScope (scope : String) : Frame :=
  ⟨scope, ∅⟩

def get? (frame : Frame) (name : String) : Option Number :=
  frame.bindings[name]?

/-- The frame with a value for a variable in place of any it had. -/
def set (frame : Frame) (name : String) (value : Number) : Frame :=
  { frame with bindings := frame.bindings.insert name value }

/-- Sets variables one after the other, so the last value of a name counts. -/
def setAll (frame : Frame) (values : List (String × Number)) : Frame :=
  values.foldl (fun frame entry => frame.set entry.1 entry.2) frame

def toList (frame : Frame) : List (String × Number) :=
  frame.bindings.toList

def shown (frame : Frame) : String :=
  "StackFrame(" ++ frame.scope ++ ")\n"
    ++ String.join (frame.toList.map fun entry =>
      "  " ++ entry.1 ++ " = " ++ entry.2.shown ++ "\n")

end Frame
end MiniPascal
