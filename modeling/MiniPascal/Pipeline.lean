import MiniPascal.Program.Diagram
import MiniPascal.Program.Parser
import MiniPascal.Report.Failure
import MiniPascal.Run.Interpreter

/-! # From a text to a finished run

The stages in a row: a text is parsed, its program analysed and run. A stage begins only if the
one before had nothing to object to. Every stage hands its log records on together with its
result. How deeply calls may be nested is left to the caller, and a run that is not given up for it
comes to the same at every greater depth. -/
set_option autoImplicit false
namespace MiniPascal

/-- A result, or a failure, with the log of how it came about. -/
structure Logged (α : Type) where
  result : Except Failure α
  log : List LogRecord

def Token.record (token : Token) : LogRecord :=
  ⟨.trace, token.start.shown ++ " " ++ token.kind.logName ++ " " ++ token.shown⟩

def Session.log (session : Session) : List LogRecord :=
  session.stream.taken.reverse.map Token.record

/-- Reads the program of a text. What follows its last dot is not part of it, and the log only
warns about it. -/
def readProgram (source : String) : Logged Program :=
  match Parser.parse (Session.ofString source) with
  | .error error session => ⟨.error (.noProgram error), session.log⟩
  | .ok program session =>
    let parsed : LogRecord :=
      ⟨.debug, "Parsed program '" ++ program.name ++ "' (" ++ session.nextId.repr ++ " nodes)"⟩
    match Parser.expectEnd session with
    | .ok _ session => ⟨.ok program, session.log ++ [parsed]⟩
    | .error error session =>
      let warning : LogRecord :=
        ⟨.warn, "Ignoring input after the end of the program: " ++ error.message source⟩
      ⟨.ok program, session.log ++ [warning, parsed]⟩

structure Finished where
  outcome : Outcome
  scopes : ScopeTree

/-- Analyses a program and runs it with calls nested up to the given depth. -/
def Program.interpret (program : Program) (depth : Nat) : Logged Finished :=
  match program.analyse with
  | .error diagnoses => ⟨.error (.faulty diagnoses), Analysis.log program⟩
  | .ok scopes =>
    let analysed : LogRecord :=
      ⟨.debug, "Analysed " ++ scopes.tables.size.repr ++ " scope(s)"⟩
    let log := Analysis.log program ++ [analysed]
    match (Interpreter.ofProgram program scopes).run depth with
    | (.error halt, interpreter) =>
      ⟨.error (.halted halt), log ++ interpreter.machine.log⟩
    | (.ok outcome, interpreter) =>
      ⟨.ok ⟨outcome, scopes⟩, log ++ interpreter.machine.log
        ++ [⟨.info, "Program '" ++ program.name ++ "' finished"⟩]⟩

def interpretWithin (depth : Nat) (source : String) : Logged Finished :=
  match readProgram source with
  | ⟨.error failure, log⟩ => ⟨.error failure, log⟩
  | ⟨.ok program, log⟩ =>
    let run := program.interpret depth
    ⟨run.result, log ++ run.log⟩

/-! ## Results without their logs -/

/-- The result of reading is that of the parser, whatever follows the last dot. -/
theorem result_readProgram (source : String) : (readProgram source).result
    = match Parser.parse (Session.ofString source) with
      | .ok program _ => .ok program
      | .error error _ => .error (.noProgram error) := by
  rw [readProgram]
  cases Parser.parse (Session.ofString source) with
  | error error session => rfl
  | ok program session =>
      simp only
      cases Parser.expectEnd session <;> rfl

theorem result_interpretWithin (depth : Nat) (source : String) :
    (interpretWithin depth source).result
      = match Parser.parse (Session.ofString source) with
        | .ok program _ => (program.interpret depth).result
        | .error error _ => .error (.noProgram error) := by
  have read := result_readProgram source
  rw [interpretWithin]
  cases reading : readProgram source with
  | mk result log =>
      rw [reading] at read
      obtain rfl : result = _ := read
      cases Parser.parse (Session.ofString source) <;> rfl

end MiniPascal
