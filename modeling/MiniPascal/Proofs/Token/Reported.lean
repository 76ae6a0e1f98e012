import Mathlib.Data.List.Induction
import MiniPascal.Proofs.Source.Excerpts
import MiniPascal.Proofs.Token.Tiling

/-! # The excerpt for an unknown character

The lexer counts lines and columns character by character, and an excerpt splits the text into lines
on its own, without their endings. Both agree about a character that is neither a line feed nor a
carriage return, and a reported character is no blank. So an excerpt for it shows the character, with
the caret under it. -/
set_option autoImplicit false
namespace MiniPascal

/-! ## The line of a character -/

/-- A line that has been begun goes on with the text. Only a carriage return at its end can be taken
off, which is not the given character. -/
theorem exists_linesFrom {c : Char} (other : c ≠ '\r') (line rest : List Char) :
    ∀ read : List Char, ∃ more lines, linesFrom (read ++ c :: line) rest
      = (line.reverse ++ c :: more) :: lines := by
  induction rest with
  | nil =>
      intro read
      refine ⟨read.reverse, [], ?_⟩
      rw [linesFrom, if_neg (by simp)]
      simp
  | cons d rest ih =>
      intro read
      rw [linesFrom]
      split
      · cases read with
        | nil =>
            refine ⟨[], linesFrom [] rest, ?_⟩
            rw [List.nil_append, endedLine]
            · simp
            · exact fun _ same => other (List.cons.inj same).1
        | cons e read =>
            by_cases ending : e = '\r'
            · subst ending
              exact ⟨read.reverse, linesFrom [] rest, by simp [endedLine]⟩
            · refine ⟨(e :: read).reverse, linesFrom [] rest, ?_⟩
              rw [List.cons_append, endedLine]
              · simp
              · exact fun _ same => ending (List.cons.inj same).1
      · exact ih (d :: read)

/-- In front of a place lie as many ended lines as line feeds, and the characters behind the last
line feed have been read of a line that is open there. -/
theorem exists_linesFrom_append (before : List Char) :
    ∃ lines, lines.length = before.count '\n' ∧ ∀ rest, linesFrom [] (before ++ rest)
      = lines ++ linesFrom (before.reverse.takeWhile fun c => c != '\n') rest := by
  induction before using List.reverseRecOn with
  | nil => exact ⟨[], rfl, fun _ => rfl⟩
  | append_singleton before c ih =>
      obtain ⟨lines, count, same⟩ := ih
      by_cases newline : c = '\n'
      · subst newline
        refine ⟨lines ++ [endedLine (before.reverse.takeWhile fun c => c != '\n')], ?_, ?_⟩
        · simp [count]
        · intro rest
          rw [List.append_assoc, List.singleton_append, same, linesFrom]
          simp
      · refine ⟨lines, ?_, fun rest => ?_⟩
        · simp [count, newline]
        · rw [List.append_assoc, List.singleton_append, same, linesFrom]
          simp [newline]

/-- Counting line feeds, and characters behind the last one, leads to a character in the lines of
the text. -/
theorem textLines_of_split {source : String} {before rest : List Char} {c : Char}
    (split : source.toList = before ++ c :: rest) (newline : c ≠ '\n') (ending : c ≠ '\r') :
    ∃ text, (textLines source)[before.count '\n']? = some text
      ∧ text[(before.reverse.takeWhile fun c => c != '\n').length]? = some c := by
  obtain ⟨lines, count, same⟩ := exists_linesFrom_append before
  generalize before.reverse.takeWhile (fun c => c != '\n') = begun at same ⊢
  obtain ⟨more, others, goesOn⟩ := exists_linesFrom ending begun rest []
  rw [List.nil_append] at goesOn
  refine ⟨begun.reverse ++ c :: more, ?_, ?_⟩
  · rw [textLines, split, same, linesFrom, if_neg newline, goesOn, ← count,
      List.getElem?_append_right (Nat.le_refl _), Nat.sub_self, List.getElem?_cons_zero]
  · rw [← List.length_reverse, List.getElem?_append_right (Nat.le_refl _), Nat.sub_self,
      List.getElem?_cons_zero]

/-! ## Reported characters -/

namespace Lexer

/-- The position of an error counts from one the lines of the text and the characters of the line,
and the character that is found there is the reported one. The excerpt shows this line, with its
number, and right below it the only marker, whose caret stands under the character. -/
theorem marks_unknown {source : String} (short : source.toList.length < 2 ^ 31 - 1) {steps : Nat}
    {error : LexError} {after : Lexer}
    (failed : ((ofString source).afterSteps steps).advance = (.error error, after)) :
    ∃ (index offset : Nat) (text : List Char) (above below : List (List Char)),
      error.position.line.toInt = 1 + index ∧ error.position.column.toInt = 1 + offset
        ∧ (textLines source)[index]? = some text ∧ text[offset]? = some error.character
        ∧ (∃ head, error.message source = head ++ excerpt source error.position)
        ∧ Rows (excerpt source error.position)
          (above ++ [(ExcerptLine.numbered error.position.line text).row,
            List.replicate (7 + offset) '-' ++ ['^']] ++ below)
        ∧ ∀ row ∈ above ++ below, ¬ IsMarker row := by
  obtain ⟨_, before, split, place⟩ := exists_place failed
  obtain ⟨_, blank, _⟩ := advance_failed failed
  have size := congrArg List.length split
  rw [List.length_append, List.length_cons] at size
  have behind := Position.behind_afterAll before (by omega)
  have number := Position.line_afterAll before
  rw [← place] at behind number
  have notBlank : ∀ c, Alphabet.isBlank c = true → error.character ≠ c := by
    rintro _ isBlank rfl
    rw [blank] at isBlank
    cases isBlank
  obtain ⟨text, found, shown⟩ :=
    textLines_of_split split (notBlank '\n' (by decide)) (notBlank '\r' (by decide))
  have few : (textLines source).length < 2 ^ 32 := by
    have lines : source.toList.count '\n' ≤ source.toList.length := List.count_le_length
    rw [textLines_length]
    split <;> omega
  have present := (List.getElem?_eq_some_iff.mp found).1
  obtain ⟨index, marked, above, below, among, same, rows, single⟩ :=
    marksOnce_of_lt few number present
  obtain rfl : index = before.count '\n' := by
    have other := (List.getElem?_eq_some_iff.mp among).1
    exact lineNumber_inj (by omega) (by omega) (same.trans number)
  obtain rfl : marked = text := Option.some.inj (among.symm.trans found)
  rw [ExcerptLine.row_marker behind.column] at rows
  exact ⟨_, _, _, above, below, behind.line, behind.column, found, shown, ⟨_, rfl⟩, rows, single⟩

/-- A text with line ends of both kinds, a carriage return inside of a line, and a comment that
goes on in the next line. -/
def scattered : String :=
  "a $\r\n\x7b é\n\x7d\tb\r# c"

theorem marks_unknown_scattered :
    scattered.toList.length < 2 ^ 31 - 1
      ∧ ((ofString scattered).afterSteps 1).advance.1 = .error ⟨⟨1, 3⟩, '$'⟩
      ∧ ((ofString scattered).afterSteps 3).advance.1 = .error ⟨⟨3, 5⟩, '#'⟩
      ∧ ∃ (index offset : Nat) (text : List Char), (3 : Int) = 1 + index ∧ (5 : Int) = 1 + offset
        ∧ (textLines scattered)[index]? = some text ∧ text[offset]? = some '#' := by
  have short : scattered.toList.length < 2 ^ 31 - 1 := by decide
  have failed : ((ofString scattered).afterSteps 3).advance.1 = .error ⟨⟨3, 5⟩, '#'⟩ := by
    decide +kernel
  obtain ⟨index, offset, text, _, _, number, column, found, shown, _⟩ :=
    marks_unknown short (Prod.ext failed rfl)
  exact ⟨short, by decide +kernel, failed, index, offset, text, number, column, found, shown⟩

end Lexer
end MiniPascal
