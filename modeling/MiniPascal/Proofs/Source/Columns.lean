import MiniPascal.Proofs.Source.Window

/-! # Columns of an excerpt

The dashes in front of a caret are counted for a gutter of seven characters. The gutter of a line is
that wide as long as its number has at most six digits, so a caret stands under its column in the
first 999999 lines of a text and left of it in all lines behind. -/
set_option autoImplicit false
namespace MiniPascal

/-! ## Gutters -/

/-- What stands in front of a shown line: its number, set to the right, and a bar. -/
def gutter (number : Int32) : List Char :=
  (padLeft 6 number.toInt.repr ++ "|").toList

theorem length_padLeft (width : Nat) (text : String) :
    (padLeft width text).length = max width text.length := by
  rw [padLeft, String.length_append, String.length_ofList, List.length_replicate]
  omega

theorem length_gutter {number : Int32} {count : Nat} (same : number.toInt = count) :
    (gutter number).length = max 6 count.repr.length + 1 := by
  rw [gutter, String.length_toList, String.length_append, length_padLeft, same]
  rfl

/-- The gutter has the width that markers count on if the number has at most six digits. -/
theorem length_gutter_eq_iff {number : Int32} (positive : 0 < number.toInt) :
    (gutter number).length = gutterWidth ↔ number.toInt < 10 ^ 6 := by
  obtain ⟨count, same⟩ := Int.eq_ofNat_of_zero_le (Int.le_of_lt positive)
  have digits : count.repr.length ≤ 6 ↔ count < 10 ^ 6 := Nat.length_repr_le_iff (by decide)
  rw [length_gutter same, gutterWidth, same]
  omega

/-! ## Carets -/

/-- The excerpt shows the line behind its gutter, and the next row is a marker whose caret has the
index that the character at the offset has in the row of the line. -/
def CaretUnder (source : String) (position : Position) (line : List Char) (offset : Nat) : Prop :=
  ∃ (marker : List Char) (above below : List (List Char)),
    Rows (excerpt source position) (above ++ [gutter position.line ++ line, marker] ++ below)
      ∧ IsMarker marker ∧ marker[(gutter position.line).length + offset]? = some '^'

theorem getElem?_marker {dashes place : Nat} :
    (List.replicate dashes '-' ++ ['^'])[place]? = some '^' ↔ place = dashes := by
  rcases Nat.lt_trichotomy place dashes with before | same | behind
  · rw [List.getElem?_append_left (by simpa using before)]
    simp [before, Nat.ne_of_lt before]
  · simp [same]
  · rw [List.getElem?_eq_none (by simpa using Nat.succ_le_of_lt behind)]
    simp [Nat.ne_of_gt behind]

section

variable {source : String} {position : Position} {line : List Char} {index offset : Nat}

/-- A line of the text is shown if a position means it, with a marker right below it. -/
theorem exists_rows_of_line (found : (textLines source)[index]? = some line)
    (number : position.line.toInt = index + 1) (column : position.column.toInt = offset + 1) :
    ∃ above below, Rows (excerpt source position)
      (above ++ [gutter position.line ++ line, List.replicate (gutterWidth + offset) '-' ++ ['^']]
        ++ below) := by
  have small := position.line.toInt_lt
  obtain ⟨present, rfl⟩ := List.getElem?_eq_some_iff.mp found
  have meant := ((lineNumber_eq_iff (by omega)).mpr number).symm
  have rows := rows_excerpt source position
  rw [excerptLines_of_lt meant present, List.map_append, List.map_append, List.map_cons,
    List.map_singleton, ExcerptLine.row_marker (column.trans (Int.add_comm _ _))] at rows
  exact ⟨_, _, rows⟩

/-- Every marker of an excerpt has the dashes for the column. -/
theorem eq_of_isMarker {rows : List (List Char)} {marker : List Char}
    (column : position.column.toInt = offset + 1) (text : Rows (excerpt source position) rows)
    (member : marker ∈ rows) (isMarker : IsMarker marker) :
    marker = List.replicate (gutterWidth + offset) '-' ++ ['^'] := by
  rw [← (rows_excerpt source position).unique text] at member
  obtain ⟨shown, inside, rfl⟩ := List.mem_map.mp member
  rcases mem_excerptFrom inside with ⟨number, text, _, rfl⟩ | ⟨rfl, _⟩
  · exact absurd isMarker (ExcerptLine.not_isMarker number text)
  · exact ExcerptLine.row_marker (column.trans (Int.add_comm _ _))

theorem caretUnder_iff_length_gutter (found : (textLines source)[index]? = some line)
    (number : position.line.toInt = index + 1) (column : position.column.toInt = offset + 1) :
    CaretUnder source position line offset ↔ (gutter position.line).length = gutterWidth := by
  constructor
  · rintro ⟨marker, above, below, rows, isMarker, caret⟩
    rw [eq_of_isMarker column rows (by simp) isMarker, getElem?_marker] at caret
    omega
  · intro wide
    obtain ⟨above, below, rows⟩ := exists_rows_of_line found number column
    exact ⟨_, above, below, rows, ⟨_, rfl⟩, getElem?_marker.mpr (by rw [wide])⟩

/-- For a line of the text and a column of this line, the excerpt shows the line, and a marker in
the row below. The caret stands under the column exactly if the line is one of the first 999999. -/
theorem caretUnder_iff (found : (textLines source)[index]? = some line)
    (number : position.line.toInt = index + 1) (column : position.column.toInt = offset + 1) :
    (∃ above below, Rows (excerpt source position)
        (above ++ [gutter position.line ++ line,
          List.replicate (gutterWidth + offset) '-' ++ ['^']] ++ below))
      ∧ (CaretUnder source position line offset ↔ position.line.toInt < 10 ^ 6) := by
  refine ⟨exists_rows_of_line found number column, ?_⟩
  rw [caretUnder_iff_length_gutter found number column]
  exact length_gutter_eq_iff (by omega)

end

/-! ## The last number of six digits -/

/-- A text of empty lines, and a letter in the line behind them. -/
def letterBehind (lines : Nat) : String :=
  String.ofList (List.replicate lines '\n' ++ ['x'])

theorem textLines_letterBehind (lines : Nat) :
    (textLines (letterBehind lines))[lines]? = some ['x'] := by
  rw [textLines, letterBehind, String.toList_ofList]
  induction lines with
  | zero => rfl
  | succ lines ih =>
      rw [List.replicate_succ, List.cons_append, linesFrom, if_pos rfl, List.getElem?_cons_succ]
      exact ih

theorem caretUnder_iff_last :
    (textLines (letterBehind 999998))[999998]? = some ['x']
      ∧ CaretUnder (letterBehind 999998) ⟨999999, 1⟩ ['x'] 0 := by
  have found := textLines_letterBehind 999998
  exact ⟨found, (caretUnder_iff found (by decide) (by decide)).2.mpr (by decide)⟩

/-- The number of the next line takes a place more, which the dashes leave out. -/
theorem not_caretUnder_million :
    (textLines (letterBehind 999999))[999999]? = some ['x']
      ∧ (∃ above below, Rows (excerpt (letterBehind 999999) ⟨1000000, 1⟩)
        (above ++ ["1000000|x".toList, "-------^".toList] ++ below))
      ∧ ¬ CaretUnder (letterBehind 999999) ⟨1000000, 1⟩ ['x'] 0 := by
  have found := textLines_letterBehind 999999
  have number : (⟨1000000, 1⟩ : Position).line.toInt = (999999 : Nat) + 1 := by decide
  have column : (⟨1000000, 1⟩ : Position).column.toInt = (0 : Nat) + 1 := by decide
  refine ⟨found, ?_, fun under => ?_⟩
  · have row : gutter 1000000 ++ ['x'] = "1000000|x".toList := by decide
    obtain ⟨above, below, rows⟩ := exists_rows_of_line found number column
    rw [row] at rows
    exact ⟨above, below, rows⟩
  · have wide := (caretUnder_iff_length_gutter found number column).mp under
    exact absurd wide (by decide)

end MiniPascal
