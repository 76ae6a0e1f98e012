import MiniPascal.Pipeline
import MiniPascal.Proofs.Program.Origins
import MiniPascal.Proofs.Run.Causes
import MiniPascal.Proofs.Run.Safety
import MiniPascal.Proofs.Scope.Causes
import MiniPascal.Proofs.Token.Places

/-! # What the positions of failures point at

Every position in a failure was once that of a token or of an unknown character, and has been
carried through the tree, the analysis or the run. Reading the text at the position gives what the
failure is about: the token that was not expected, the name that has no meaning or no value, the
operator that has no result. -/
set_option autoImplicit false
namespace MiniPascal

open Grammar

/-! ## Pointing -/

/-- A token stands where the text has it, and the end where nothing is left. -/
def ParseError.Points (source : String) : ParseError → Prop
  | .lexical error => Unknown error.character
    ∧ ∃ rest, error.position.read? source = some (error.character :: rest)
  | .unexpectedToken _ got =>
    if got.kind = .endOfFile then got.text = "" ∧ got.start.read? source = some []
    else Shows source got.start got.kind got.text
  | .invalidLiteral literal => Shows source literal.start .integerConst literal.text

/-- Faults with a position point at a name, or at the name of a type. A procedure whose scope is
there already is pointed at behind its keyword. -/
def Diagnosis.Points (source : String) : Diagnosis → Prop
  | .duplicateScope name position => Shows source position .identifier name
    ∧ Token.Heads source ⟨.identifier, name, position⟩
  | .alreadyDefined _ _ => True
  | .unknownType name position =>
    Shows source position .integer name ∨ Shows source position .real name
  | .undefinedVariable name _ position | .notAVariable name position
  | .undefinedProcedure name position | .argumentCount name _ _ position =>
    Shows source position .identifier name

/-- The program applies the operator to two operands, and the text has it at this position. -/
def BinaryOperator.StandsAt (source : String) (visits : List Visit) (position : Position)
    (operator : BinaryOperator) : Prop :=
  (∃ id left right, .binary id operator left right position ∈ visits)
    ∧ ∃ kind, Shows source position kind operator.symbol

/-- The program applies the operator to one operand, and the text has it at this position. -/
def UnaryOperator.StandsAt (source : String) (visits : List Visit) (position : Position)
    (operator : UnaryOperator) : Prop :=
  (∃ id operand, .unary id operator operand position ∈ visits)
    ∧ ∃ kind, Shows source position kind operator.symbol

/-- Faults of a run point at an operator or a name; an internal error, which has no position, is
none of them. -/
def RuntimeError.Points (source : String) (visits : List Visit) : RuntimeError → Prop
  | .divisionByZero position =>
    ∃ operator ∈ BinaryOperator.dividing, operator.StandsAt source visits position
  | .uninitialized name _ position => Shows source position .identifier name
  | .overflow position =>
    (∃ operator ∈ BinaryOperator.exact, operator.StandsAt source visits position)
      ∨ UnaryOperator.minus.StandsAt source visits position
  | .mismatch _ => False

/-- Every position in the failure points at what it is about. A run that was given up has no
position to point with, and neither has a file. -/
def Failure.Points (source : String) : Failure → Prop
  | .unreadable _ | .halted .depthExceeded => False
  | .noProgram error => error.Points source
  | .faulty diagnoses => ∀ diagnosis ∈ diagnoses, diagnosis.Points source
  | .halted (.fault error) => ∃ program after,
    Parser.parse (Session.ofString source) = .ok program after ∧ error.Points source program.visits

/-! ## Tokens that were met -/

namespace Grammar

theorem TypeName.spelling {kind : TokenKind} {dataType : DataType}
    (typeName : TypeName kind dataType) :
    (kind = .integer ∨ kind = .real) ∧ kind.spelling? = some dataType.name := by
  cases typeName
  · exact ⟨.inl rfl, rfl⟩
  · exact ⟨.inr rfl, rfl⟩

theorem spelling_of_binary {kind : TokenKind} {operator : BinaryOperator}
    (written : Adding kind operator ∨ Multiplying kind operator) :
    kind.spelling? = some operator.symbol := by
  rcases written with adding | multiplying
  · cases adding <;> rfl
  · cases multiplying <;> rfl

theorem Sign.spelling {kind : TokenKind} {operator : UnaryOperator} (sign : Sign kind operator) :
    kind.spelling? = some operator.symbol := by
  cases sign <;> rfl

end Grammar

section

variable {source : String} (short : source.toList.length < 2 ^ 31 - 1)

include short

theorem Position.read?_afterAll {before rest : List Char}
    (split : source.toList = before ++ rest) :
    (start.afterAll before).read? source = some rest := by
  refine read?_of_behind split (behind_afterAll before ?_)
  rw [split, List.length_append] at short
  exact Nat.lt_of_le_of_lt (Nat.le_add_right _ _) short

theorem Token.LexemeOf.shows {token : Token} (lexemeOf : token.LexemeOf source) :
    Shows source token.start token.kind token.text := by
  obtain ⟨before, text, rest, split, lexeme, same, place⟩ := lexemeOf
  rw [List.append_assoc] at split
  rw [same, place]
  refine ⟨rest, ?_, ?_⟩
  · rw [String.toList_ofList]
    exact Position.read?_afterAll short split
  · rwa [String.toList_ofList]

theorem shows_of_mem {token : Token} (member : .ok token ∈ Lexer.outcomes source)
    (more : token.kind ≠ .endOfFile) : Shows source token.start token.kind token.text := by
  rcases Lexer.lexemeOf_of_mem member with lexemeOf | rfl
  · exact lexemeOf.shows short
  · exact absurd rfl more

theorem shows_of_names {name : String} {position : Position}
    (names : (Session.Invariant.ofSource source).Names name position) :
    Shows source position .identifier name :=
  shows_of_mem short names nofun

/-- A token of a kind with one spelling shows just that. -/
theorem shows_of_spelling {kind : TokenKind} {text word : String} {position : Position}
    (member : .ok ⟨kind, text, position⟩ ∈ Lexer.outcomes source)
    (fixed : kind.spelling? = some word) : Shows source position kind word := by
  have more : kind ≠ .endOfFile := by
    rintro rfl
    cases fixed
  obtain ⟨rest, read, lexeme⟩ := shows_of_mem short member more
  obtain rfl : text = word := by
    rw [← lexeme.eq_of_spelling fixed, String.ofList_toList]
  exact ⟨rest, read, lexeme⟩

theorem shows_of_types {typeSpec : TypeSpec}
    (types : (Session.Invariant.ofSource source).Types typeSpec) :
    Shows source typeSpec.position .integer typeSpec.dataType.name
      ∨ Shows source typeSpec.position .real typeSpec.dataType.name := by
  obtain ⟨kind, text, typeName, met⟩ := types
  obtain ⟨rfl | rfl, spelling⟩ := typeName.spelling
  · exact .inl (shows_of_spelling short met spelling)
  · exact .inr (shows_of_spelling short met spelling)

/-! ## Failures of the stages -/

theorem ParseError.points_of_explains {error : ParseError}
    (explains : (Session.Invariant.ofSource source).Explains error) : error.Points source := by
  cases error with
  | lexical error =>
      obtain ⟨before, rest, split, unknown, place⟩ := Lexer.unknownIn_of_mem explains
      refine ⟨unknown, rest, ?_⟩
      rw [place]
      exact Position.read?_afterAll short split
  | unexpectedToken expected got =>
      rw [Points]
      split
      · rename_i ended
        rcases Lexer.lexemeOf_of_mem explains with lexemeOf | rfl
        · obtain ⟨_, _, _, _, lexeme, _⟩ := lexemeOf
          exact absurd ended lexeme.kind_ne
        · exact ⟨rfl, Position.read?_afterAll short (List.append_nil _).symm⟩
      · rename_i more
        exact shows_of_mem short explains more
  | invalidLiteral literal =>
      obtain ⟨member, kind⟩ := explains
      have shows := shows_of_mem short member (by rw [kind]; decide)
      rwa [kind] at shows

theorem Diagnosis.points_of_about {diagnosis : Diagnosis} {visit : Visit}
    (makes : (Session.Invariant.ofSource source).Makes visit) (about : diagnosis.About visit) :
    diagnosis.Points source := by
  cases about with
  | duplicateScope => exact ⟨shows_of_names short makes.1, makes.2⟩
  | alreadyDefined => trivial
  | unknownType => exact shows_of_types short makes
  | unknownParamType => exact shows_of_types short makes
  | undefinedVariable => exact shows_of_names short makes
  | notAVariable => exact shows_of_names short makes
  | undefinedProcedure => exact shows_of_names short makes
  | argumentCount => exact shows_of_names short makes

theorem RuntimeError.points_of_about {error : RuntimeError} {visit : Visit} {visits : List Visit}
    (makes : (Session.Invariant.ofSource source).Makes visit) (about : error.About visit)
    (member : visit ∈ visits) : error.Points source visits := by
  cases about with
  | @divisionByZero id operator left right position divides =>
      obtain ⟨kind, text, written, met⟩ := makes
      have shows := shows_of_spelling short met (spelling_of_binary written)
      exact ⟨operator, divides, ⟨id, left, right, member⟩, kind, shows⟩
  | @overflow id operator left right position stays =>
      obtain ⟨kind, text, written, met⟩ := makes
      have shows := shows_of_spelling short met (spelling_of_binary written)
      exact .inl ⟨operator, stays, ⟨id, left, right, member⟩, kind, shows⟩
  | @negation id operand position =>
      obtain ⟨kind, text, sign, met⟩ := makes
      exact .inr ⟨⟨id, operand, member⟩, kind, shows_of_spelling short met sign.spelling⟩
  | uninitialized => exact shows_of_names short makes

theorem Program.points_of_result {program : Program} {after : Session} {depth : Nat}
    {failure : Failure} (parsed : Parser.parse (Session.ofString source) = .ok program after)
    (made : (Session.Invariant.ofSource source).MakesAll program.visits)
    (failed : (program.interpret depth).result = .error failure)
    (ended : failure ≠ .halted .depthExceeded) : failure.Points source := by
  rw [interpret] at failed
  cases analysed : program.analyse with
  | error diagnoses =>
      rw [analysed] at failed
      cases failed
      intro diagnosis member
      obtain ⟨visit, among, about⟩ := program.about_of_analyse analysed diagnosis member
      exact Diagnosis.points_of_about short (made visit among) about
  | ok scopes =>
      simp only [analysed] at failed
      split at failed <;> cases failed
      rename_i halt interpreter stopped
      have stems := Interpreter.stemsFrom_of_run analysed (congrArg Prod.fst stopped)
      have expected := ((Interpreter.Started.sound analysed .new).1.run depth).1
      rw [stopped] at expected
      cases halt with
      | depthExceeded => exact ended rfl
      | fault error =>
          refine ⟨program, after, parsed, ?_⟩
          cases error with
          | mismatch reason => exact expected.elim
          -- every other fault has the position of a visit, which the parser took from a token
          | _ =>
              obtain ⟨visit, among, about⟩ := stems
              exact RuntimeError.points_of_about short (made visit among) about among

end

/-- Every position that a failure reports points at the text that the failure is about, however
deeply calls were nested when it arose. -/
theorem points_of_interpretWithin {source : String} {depth : Nat} {failure : Failure}
    (short : source.toList.length < 2 ^ 31 - 1)
    (failed : (interpretWithin depth source).result = .error failure)
    (ended : failure ≠ .halted .depthExceeded) : failure.Points source := by
  rw [result_interpretWithin] at failed
  have rests : (Session.Invariant.ofSource source).Rests (Session.ofString source) :=
    .ofString source
  have allowed := Parser.allows_parse rests
  cases parsed : Parser.parse (Session.ofString source) with
  | error error after =>
      rw [parsed] at failed allowed
      cases failed
      exact ParseError.points_of_explains short allowed.2
  | ok program after =>
      rw [parsed] at failed allowed
      exact Program.points_of_result short parsed allowed.2 failed ended

/-- A division by zero that only the last of four nested calls comes to. -/
def dividedInside : String :=
  "PROGRAM p;\n  PROCEDURE q(n: INTEGER);\n  BEGIN q(6 DIV n - 1) END;\nBEGIN q(3) END."

theorem points_of_interpretWithin_dividedInside :
    (interpretWithin 4 dividedInside).result
        = .error (.halted (.fault (.divisionByZero ⟨3, 13⟩)))
      ∧ (Failure.halted (.fault (.divisionByZero ⟨3, 13⟩))).Points dividedInside := by
  have failed : (interpretWithin 4 dividedInside).result
      = .error (.halted (.fault (.divisionByZero ⟨3, 13⟩))) :=
    eq_error_of_map (f := fun _ => ()) (by decide +kernel)
  exact ⟨failed, points_of_interpretWithin (by decide) failed nofun⟩

end MiniPascal
