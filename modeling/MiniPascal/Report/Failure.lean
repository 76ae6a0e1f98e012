import MiniPascal.Program.Session
import MiniPascal.Run.Execution
import MiniPascal.Scope.Analysis

/-! # Failures

Whatever keeps a program from running to its end: its text, its faults, its run, or the file that
should hold it. -/
set_option autoImplicit false
namespace MiniPascal

inductive FileError where
  | missing
  | notText
  | unreadable (reason : String)
deriving DecidableEq

def FileError.message : FileError → String
  | .missing => "No such file or directory (os error 2)"
  | .notText => "stream did not contain valid UTF-8"
  | .unreadable reason => reason

inductive Failure where
  | unreadable (error : FileError)
  | noProgram (error : ParseError)
  | faulty (diagnoses : List Diagnosis)
  | halted (halt : Halt)
deriving DecidableEq

/-- The message about a failure on the given text. Faults of a program have a line each. -/
def Failure.message (source : String) : Failure → String
  | .unreadable error => error.message
  | .noProgram error => error.message source
  | .faulty diagnoses => "\n".intercalate (diagnoses.map Diagnosis.message)
  | .halted halt => halt.message

end MiniPascal
