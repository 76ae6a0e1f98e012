import MiniPascal.Proofs.Token.Tiling

/-! # Reading a text at a position

A position leads back into its text: line after line up to the line that is meant, and then
character after character. In a text that positions can count, the position of a place leads to
exactly what stands behind the place. -/
set_option autoImplicit false
namespace MiniPascal

namespace Position

/-- What stands behind the given number of line feeds. -/
def skipLines : Nat → List Char → Option (List Char)
  | 0, text => some text
  | _ + 1, [] => none
  | lines + 1, c :: rest => skipLines (if c = '\n' then lines else lines + 1) rest

/-- What stands behind the given number of characters of one line. -/
def skipColumns : Nat → List Char → Option (List Char)
  | 0, text => some text
  | _ + 1, [] => none
  | columns + 1, c :: rest => if c = '\n' then none else skipColumns columns rest

/-- The text from a line and a column on, both counted from zero. -/
def skip (lines columns : Nat) (text : List Char) : Option (List Char) :=
  (skipLines lines text).bind (skipColumns columns)

/-- The text from a position on, if the text has this line and the line has this column. -/
def read? (source : String) (position : Position) : Option (List Char) :=
  if 1 ≤ position.line ∧ 1 ≤ position.column then
    skip (position.line.toInt - 1).toNat (position.column.toInt - 1).toNat source.toList
  else none

variable {text rest : List Char} {lines columns : Nat} {c : Char}

@[simp]
theorem skipLines_zero (text : List Char) : skipLines 0 text = some text := by
  cases text <;> rfl

@[simp]
theorem skip_zero (text : List Char) : skip 0 0 text = some text := by
  simp [skip, skipColumns]

theorem skipLines_succ (found : skipLines lines text = some rest) :
    skipLines (lines + 1) text = skipLines 1 rest := by
  induction text generalizing lines with
  | nil =>
      cases lines with
      | zero => cases found; rfl
      | succ lines => cases found
  | cons d others ih =>
      cases lines with
      | zero => cases found; rfl
      | succ lines =>
          rw [skipLines] at found ⊢
          split at found
          · rename_i newline
            rw [if_pos newline]
            exact ih found
          · rename_i other
            rw [if_neg other]
            exact ih found

theorem skipColumns_succ (found : skipColumns columns text = some (c :: rest)) (other : c ≠ '\n') :
    skipColumns (columns + 1) text = some rest := by
  induction text generalizing columns with
  | nil => cases columns <;> cases found
  | cons d others ih =>
      cases columns with
      | zero =>
          cases found
          rw [skipColumns, if_neg other, skipColumns]
      | succ columns =>
          rw [skipColumns] at found ⊢
          split at found
          · cases found
          · rename_i inside
            rw [if_neg inside]
            exact ih found

/-- The line feed that is reached in a line is the next one. -/
theorem skipLines_one (found : skipColumns columns text = some ('\n' :: rest)) :
    skipLines 1 text = some rest := by
  induction text generalizing columns with
  | nil => cases columns <;> cases found
  | cons d others ih =>
      cases columns with
      | zero => cases found; exact skipLines_zero _
      | succ columns =>
          rw [skipColumns] at found
          split at found
          · cases found
          · rename_i inside
            rw [skipLines, if_neg inside]
            exact ih found

/-- Skipping goes on as positions do. -/
theorem skip_after (found : skip lines columns text = some (c :: rest)) :
    (if c = '\n' then skip (lines + 1) 0 text else skip lines (columns + 1) text) = some rest := by
  obtain ⟨line, here, there⟩ := Option.bind_eq_some_iff.mp found
  split
  · rename_i newline
    subst newline
    rw [skip, skipLines_succ here, skipLines_one there]
    rfl
  · rename_i other
    rw [skip, here]
    exact skipColumns_succ there other

/-- Behind a text stands what is left when its lines and the characters of its last line have been
skipped. -/
theorem skip_append (before : List Char) : ∀ rest : List Char,
    skip (before.count '\n') (before.reverse.takeWhile fun c => c != '\n').length (before ++ rest)
      = some rest := by
  induction before using List.reverseRecOn with
  | nil => exact fun rest => skip_zero rest
  | append_singleton before c ih =>
      -- the place in front of the last character leads to it, and one more step behind it
      intro rest
      have next := skip_after (ih (c :: rest))
      rw [List.append_assoc, List.singleton_append]
      by_cases newline : c = '\n'
      · rw [if_pos newline] at next
        simpa [newline] using next
      · rw [if_neg newline] at next
        simpa [newline, List.count_singleton] using next

/-- The position of a place leads to what stands behind it. -/
theorem read?_of_behind {source : String} {position : Position} {before rest : List Char}
    (split : source.toList = before ++ rest) (behind : position.Behind before) :
    position.read? source = some rest := by
  obtain ⟨line, column⟩ := behind
  have counted : 1 ≤ position.line ∧ 1 ≤ position.column := by
    rw [Int32.le_iff_toInt_le, Int32.le_iff_toInt_le, line, column]
    exact ⟨Int.le_add_of_nonneg_right (Int.natCast_nonneg _),
      Int.le_add_of_nonneg_right (Int.natCast_nonneg _)⟩
  have offset : ∀ count : Nat, ((1 + count : Int) - 1).toNat = count := fun count => by omega
  rw [read?, if_pos counted, line, column, offset, offset, split]
  exact skip_append before rest

end Position

/-! ## Tokens at positions -/

/-- The text of a kind that has only one. -/
def TokenKind.spelling? : TokenKind → Option String
  | .parenthesisLeft => some "("
  | .parenthesisRight => some ")"
  | .dot => some "."
  | .comma => some ","
  | .semicolon => some ";"
  | .colon => some ":"
  | .assign => some ":="
  | .plus => some "+"
  | .minus => some "-"
  | .multiply => some "*"
  | .integerDivide => some "DIV"
  | .realDivide => some "/"
  | .program => some "PROGRAM"
  | .var => some "VAR"
  | .procedure => some "PROCEDURE"
  | .begin => some "BEGIN"
  | .finish => some "END"
  | .integer => some "INTEGER"
  | .real => some "REAL"
  | .identifier | .integerConst | .realConst | .endOfFile => none

theorem Lexeme.eq_of_spelling {text rest : List Char} {kind : TokenKind} {word : String}
    (lexeme : Lexeme text kind rest) (fixed : kind.spelling? = some word) :
    String.ofList text = word := by
  cases lexeme with
  | @symbol c _ _ symbol =>
      unfold TokenKind.ofSymbol? at symbol
      split at symbol <;> cases symbol <;> cases fixed <;> rfl
  | assign => cases fixed; rfl
  | colon => cases fixed; rfl
  | integer => cases fixed
  | real => cases fixed
  | @word first others _ letter =>
      rcases TokenKind.ofWord_cases (String.ofList (first :: others)) with identifier | reserved
      · rw [identifier] at fixed
        cases fixed
      · have listed : ∀ entry ∈ TokenKind.reservedWords, entry.2.spelling? = some entry.1 := by
          decide
        exact Option.some.inj ((listed _ reserved).symm.trans fixed)

/-- Reading the text at the position gives exactly this token. -/
def Shows (source : String) (position : Position) (kind : TokenKind) (text : String) : Prop :=
  ∃ rest, position.read? source = some (text.toList ++ rest) ∧ Lexeme text.toList kind rest

end MiniPascal
