import Mathlib.Data.List.Basic
import MiniPascal.Pipeline
import MiniPascal.Proofs.Program.ParsingUnplaced
import MiniPascal.Proofs.Run.ExecutionUnplaced
import MiniPascal.Proofs.Scope.AnalysisUnplaced

/-! # Layout has no meaning

Two texts of the same words may be laid out differently, with other blanks, line breaks and comments
between their tokens. All stages come to the same results for both, but for positions: each of them
mirrors itself without positions, and without positions the two texts are the same stream of
tokens. -/
set_option autoImplicit false
namespace MiniPascal

/-- The texts have no unknown characters and their tokens agree in kind and text, wherever they
stand. -/
def SameWords (first second : String) : Prop :=
  ∃ tokens others : List Token, Lexer.outcomes first = tokens.map Except.ok
    ∧ Lexer.outcomes second = others.map Except.ok
    ∧ tokens.map (fun token => (token.kind, token.text))
      = others.map (fun token => (token.kind, token.text))

/-- A failure without the positions in it. -/
def Failure.unplaced : Failure → Failure
  | .unreadable error => .unreadable error
  | .noProgram error => .noProgram error.unplaced
  | .faulty diagnoses => .faulty (diagnoses.map Diagnosis.unplaced)
  | .halted halt => .halted halt.unplaced

theorem Session.unplaced_ofString {first second : String} (same : SameWords first second) :
    (ofString first).unplaced = (ofString second).unplaced := by
  obtain ⟨tokens, others, lexed, lexed', words⟩ := same
  have unplaced : ∀ tokens : List Token, (tokens.map Except.ok).map unplacedOutcome
      = (tokens.map fun token => (token.kind, token.text)).map fun word =>
        Except.ok ⟨word.1, word.2, Position.start⟩ := by
    intro tokens
    rw [List.map_map, List.map_map]
    rfl
  have pending : (Lexer.outcomes first).map unplacedOutcome
      = (Lexer.outcomes second).map unplacedOutcome := by
    rw [lexed, lexed', unplaced, unplaced, words]
  simp only [Session.unplaced, ofString, TokenStream.unplaced, TokenStream.ofString, pending]

variable {first second : String}

/-- Both texts are parsed or neither is. -/
theorem parse_unplaced_of_sameWords (same : SameWords first second) :
    mapOutcome ParseError.unplaced Session.unplaced Program.unplaced
        (Parser.parse (Session.ofString first))
      = mapOutcome ParseError.unplaced Session.unplaced Program.unplaced
        (Parser.parse (Session.ofString second)) := by
  rw [← Parser.mirrors_parse (Session.ofString first),
    ← Parser.mirrors_parse (Session.ofString second), Session.unplaced_ofString same]

theorem Program.result_interpret_unplaced (program : Program) (depth : Nat) :
    (program.unplaced.interpret depth).result
      = (program.interpret depth).result.mapError Failure.unplaced := by
  rw [interpret, interpret, analyse_unplaced]
  cases program.analyse with
  | error diagnoses => rfl
  | ok scopes =>
      have same := program.run_unplaced scopes depth
      simp only [Except.mapError]
      rcases ran : (Interpreter.ofProgram program.unplaced scopes).run depth with ⟨left, _⟩
      rcases ran' : (Interpreter.ofProgram program scopes).run depth with ⟨right, _⟩
      rw [ran, ran'] at same
      obtain rfl : left = right.mapError Halt.unplaced := same
      cases right <;> rfl

/-- Texts of the same words are parsed to programs that differ only in positions, or both fail with
errors that do. The programs have the same scopes or the same faults, in the same order, and they
run to the same outcome or end early for the same reason, in both cases but for positions. So have
the texts as a whole the same result, however deeply calls may be nested. -/
theorem results_eq_of_sameWords (same : SameWords first second) :
    mapOutcome ParseError.unplaced Session.unplaced Program.unplaced
        (Parser.parse (Session.ofString first))
      = mapOutcome ParseError.unplaced Session.unplaced Program.unplaced
        (Parser.parse (Session.ofString second))
    ∧ (∀ program after other later, Parser.parse (Session.ofString first) = .ok program after →
      Parser.parse (Session.ofString second) = .ok other later →
        program.unplaced = other.unplaced ∧ after.nextId = later.nextId
          ∧ program.analyse.mapError (List.map Diagnosis.unplaced)
            = other.analyse.mapError (List.map Diagnosis.unplaced)
          ∧ ∀ scopes depth,
            ((Interpreter.ofProgram program scopes).run depth).1.mapError Halt.unplaced
              = ((Interpreter.ofProgram other scopes).run depth).1.mapError Halt.unplaced)
    ∧ ∀ depth, (interpretWithin depth first).result.mapError Failure.unplaced
      = (interpretWithin depth second).result.mapError Failure.unplaced := by
  have parses := parse_unplaced_of_sameWords same
  refine ⟨parses, ?_, ?_⟩
  · intro program after other later parsed parsed'
    rw [parsed, parsed'] at parses
    injection parses with programs sessions
    have numbers : after.unplaced.nextId = later.unplaced.nextId :=
      congrArg Session.nextId sessions
    refine ⟨programs, numbers, ?_, fun scopes depth => ?_⟩
    · rw [← program.analyse_unplaced, ← other.analyse_unplaced, programs]
    · rw [← program.run_unplaced, ← other.run_unplaced, programs]
  · intro depth
    rw [result_interpretWithin, result_interpretWithin]
    cases parsed : Parser.parse (Session.ofString first) with
    | ok program after =>
        cases parsed' : Parser.parse (Session.ofString second) with
        | ok other later =>
            rw [parsed, parsed'] at parses
            injection parses with programs _
            show (program.interpret depth).result.mapError Failure.unplaced
              = (other.interpret depth).result.mapError Failure.unplaced
            rw [← program.result_interpret_unplaced, ← other.result_interpret_unplaced, programs]
        | error error later =>
            rw [parsed, parsed'] at parses
            cases parses
    | error error after =>
        cases parsed' : Parser.parse (Session.ofString second) with
        | ok other later =>
            rw [parsed, parsed'] at parses
            cases parses
        | error error' later =>
            rw [parsed, parsed'] at parses
            injection parses with errors _
            exact congrArg (fun error => Except.error (Failure.noProgram error)) errors

/-- A division by zero in two layouts. -/
def divided : String × String :=
  ("PROGRAM p; VAR x : INTEGER; BEGIN x := 1 DIV 0 END.",
    "PROGRAM p;\x7b nothing\n\x7dVAR\n x:INTEGER;BEGIN\n\n x:=1 DIV\x7b\x7d0 END.\x7b")

theorem results_eq_of_sameWords_divided : SameWords divided.1 divided.2
    ∧ ∀ depth, (interpretWithin depth divided.1).result.mapError Failure.unplaced
      = (interpretWithin depth divided.2).result.mapError Failure.unplaced := by
  have same : SameWords divided.1 divided.2 := by
    refine ⟨(Lexer.outcomes divided.1).filterMap Except.toOption,
      (Lexer.outcomes divided.2).filterMap Except.toOption, ?_, ?_, ?_⟩
    · decide +kernel
    · decide +kernel
    · decide +kernel
  exact ⟨same, (results_eq_of_sameWords same).2.2⟩

end MiniPascal
