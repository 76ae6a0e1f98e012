import MiniPascal.Proofs.Program.Arranging
import MiniPascal.Proofs.Program.FirstError
import MiniPascal.Proofs.Program.Origins
import MiniPascal.Proofs.Source.Excerpts

/-! # Markers under parse errors

An error of the parser is about a part of the text or about its end. The excerpt that goes with it
marks the place, with one exception: where the end of the text was not expected and the text is
empty or ends in a line feed, there is no line that could be shown, and no marker. -/
set_option autoImplicit false
namespace MiniPascal

namespace ParseError

/-- The text has ended where something was expected. -/
def AtEnd : ParseError → Prop
  | .unexpectedToken _ got => got.kind = .endOfFile
  | _ => False

theorem message_eq (source : String) (error : ParseError) :
    ∃ head, error.message source = head ++ excerpt source error.position := by
  cases error <;> exact ⟨_, rfl⟩

variable {source : String} {error : ParseError}

theorem place_of_lexemeOf {token : Token} (lexemeOf : token.LexemeOf source) :
    token.kind ≠ .endOfFile ∧ ∃ before rest, source.toList = before ++ rest ∧ rest ≠ []
      ∧ token.start = Position.start.afterAll before := by
  obtain ⟨before, text, rest, split, lexeme, _, place⟩ := lexemeOf
  obtain ⟨c, others, rfl, _⟩ := lexeme.exists_cons
  exact ⟨lexeme.kind_ne, before, (c :: others) ++ rest, by rw [split, List.append_assoc],
    List.cons_ne_nil _ _, place⟩

/-- An error stands in front of some part of the text, or it has met the end. -/
theorem exists_place (explains : (Session.Invariant.ofSource source).Explains error) :
    ∃ before rest, source.toList = before ++ rest
      ∧ error.position = Position.start.afterAll before ∧ (error.AtEnd ↔ rest = []) := by
  have token : ∀ {token : Token}, .ok token ∈ Lexer.outcomes source →
      ∃ before rest, source.toList = before ++ rest
        ∧ token.start = Position.start.afterAll before ∧ (token.kind = .endOfFile ↔ rest = []) := by
    intro token member
    rcases Lexer.lexemeOf_of_mem member with lexemeOf | rfl
    · obtain ⟨other, before, rest, split, more, place⟩ := place_of_lexemeOf lexemeOf
      exact ⟨before, rest, split, place, iff_of_false other more⟩
    · exact ⟨source.toList, [], (List.append_nil _).symm, rfl, iff_of_true rfl rfl⟩
  cases error with
  | lexical error =>
      obtain ⟨before, rest, split, _, place⟩ := Lexer.unknownIn_of_mem explains
      exact ⟨before, _, split, place, iff_of_false id (List.cons_ne_nil _ _)⟩
  | unexpectedToken expected got => exact token explains
  | invalidLiteral literal =>
      obtain ⟨member, kind⟩ := explains
      obtain ⟨before, rest, split, place, ends⟩ := token member
      refine ⟨before, rest, split, place, iff_of_false id fun none => ?_⟩
      rw [kind] at ends
      exact absurd (ends.mpr none) (by decide)

end ParseError

/-- In front of the last line break of a text, or in its last line, there is a line. -/
theorem count_lt_textLines_iff {source : String} {before rest : List Char}
    (split : source.toList = before ++ rest) :
    before.count '\n' < (textLines source).length ↔ ¬ (rest = [] ∧ EndsLine source.toList) := by
  have total : source.toList.count '\n' = before.count '\n' + rest.count '\n' := by
    rw [split, List.count_append]
  rw [textLines_length, total]
  by_cases ends : EndsLine source.toList
  · rw [if_pos ends, Nat.add_zero, Nat.lt_add_right_iff_pos, List.count_pos_iff]
    cases rest using List.reverseRecOn with
    | nil => exact iff_of_false List.not_mem_nil fun none => none ⟨rfl, ends⟩
    | append_singleton rest last =>
        -- the last character of the text is the last one behind the place
        have closed : last = '\n' := by simpa [EndsLine, split] using ends
        exact iff_of_true (by simp [closed]) fun both => by simp at both
  · rw [if_neg ends]
    exact iff_of_true (Nat.lt_succ_of_le (Nat.le_add_right _ _)) fun both => ends both.2

namespace Parser

/-- A failed parse shows the excerpt for its error. The excerpt has its one marker, under the line
of the error, unless the text ends where it must not, and ends without an open line: then it has
none. -/
theorem marksOnce_iff_of_parse {source : String} {session after : Session} {error : ParseError}
    (reaches : (Session.ofString source).Reaches session)
    (few : source.toList.count '\n' < 2 ^ 32 - 1)
    (failed : parse session = .error error after) :
    (∃ head, error.message source = head ++ excerpt source error.position)
      ∧ (MarksOnce source error.position ↔ ¬ (error.AtEnd ∧ EndsLine source.toList))
      ∧ (error.AtEnd ∧ EndsLine source.toList →
        ∀ row ∈ (excerptLines source error.position).map ExcerptLine.row, ¬ IsMarker row) := by
  have rests : (Session.Invariant.ofSource source).Rests session :=
    reaches.rests (.ofString source)
  have allowed := allows_parse rests
  rw [failed] at allowed
  obtain ⟨before, rest, split, place, atEnd⟩ := ParseError.exists_place allowed.2
  have line : error.position.line = lineNumber (before.count '\n') := by
    rw [place, Position.line_afterAll]
  -- with few line feeds no two lines have the same word as their number
  have small : before.count '\n' + 1 < 2 ^ 32 := by
    rw [split, List.count_append] at few
    omega
  have lines : (textLines source).length < 2 ^ 32 := by
    rw [textLines_length]
    split <;> omega
  have present := count_lt_textLines_iff split
  rw [← atEnd] at present
  refine ⟨error.message_eq source, (marksOnce_iff lines small line).trans present, fun both => ?_⟩
  exact not_isMarker_of_length_le small line (Nat.le_of_not_lt fun found => present.mp found both)

/-- The text ends in an open line, behind a statement that has begun. -/
def unfinished : String :=
  "PROGRAM p;\nBEGIN\n  a := 2 + "

theorem marksOnce_iff_of_parse_unfinished :
    FailsWith unfinished (.unexpectedToken .expression ⟨.endOfFile, "", ⟨3, 12⟩⟩)
      ∧ unfinished.toList.count '\n' < 2 ^ 32 - 1
      ∧ MarksOnce unfinished ⟨3, 12⟩ := by
  have fails : FailsWith unfinished (.unexpectedToken .expression ⟨.endOfFile, "", ⟨3, 12⟩⟩) := by
    decide +kernel
  have few : unfinished.toList.count '\n' < 2 ^ 32 - 1 := by decide
  obtain ⟨after, failed⟩ := fails
  refine ⟨⟨after, failed⟩, few, (marksOnce_iff_of_parse .refl few failed).2.1.mpr ?_⟩
  exact fun both => absurd both.2 (by decide)

/-- The text ends behind a line feed, where its block has still to begin. -/
def headerOnly : String :=
  "PROGRAM p;\n"

theorem not_marksOnce_headerOnly :
    FailsWith headerOnly (.unexpectedToken (.token .begin) ⟨.endOfFile, "", ⟨2, 1⟩⟩)
      ∧ ¬ MarksOnce headerOnly ⟨2, 1⟩
      ∧ ∀ row ∈ (excerptLines headerOnly ⟨2, 1⟩).map ExcerptLine.row, ¬ IsMarker row := by
  have line : (⟨2, 1⟩ : Position).line = lineNumber 1 := rfl
  have absent : (textLines headerOnly).length = 1 := by decide
  refine ⟨by decide +kernel, fun marks => ?_,
    not_isMarker_of_length_le (by decide) line (Nat.le_of_eq absent)⟩
  have found := (marksOnce_iff (by rw [absent]; decide) (by decide) line).mp marks
  exact absurd found (by rw [absent]; decide)

end Parser
end MiniPascal
