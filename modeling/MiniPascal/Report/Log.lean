/-! # Log records

A log is a list of records, each a message with a level. Nothing is written while a program is
read or run: the records are computed from what happened, and a log at some level is the part of
them that is at least as grave. -/
set_option autoImplicit false
namespace MiniPascal

/-- How grave a record is, the gravest first. -/
inductive LogLevel where
  | error | warn | info | debug | trace
deriving DecidableEq

namespace LogLevel

def name : LogLevel → String
  | .error => "ERROR"
  | .warn => "WARN"
  | .info => "INFO"
  | .debug => "DEBUG"
  | .trace => "TRACE"

def rank : LogLevel → Nat
  | .error => 1
  | .warn => 2
  | .info => 3
  | .debug => 4
  | .trace => 5

end LogLevel

structure LogRecord where
  level : LogLevel
  message : String
deriving DecidableEq

namespace LogRecord

def shown (record : LogRecord) : String :=
  record.level.name ++ " " ++ record.message

/-- The records that a log up to the given level keeps; no level keeps none. -/
def upTo (level : Option LogLevel) (records : List LogRecord) : List LogRecord :=
  match level with
  | none => []
  | some level => records.filter fun record => decide (record.level.rank ≤ level.rank)

end LogRecord
end MiniPascal
