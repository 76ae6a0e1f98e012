import Mathlib.Algebra.Group.Nat.Defs
import Mathlib.Data.List.Induction
import MiniPascal.Proofs.Source.Rows
import MiniPascal.Proofs.Token.Passing
import MiniPascal.Source.Excerpt

/-! # Excerpts with a marker

An excerpt has a marker exactly if one of the text's lines has the number that is meant, and then
the marker is the only one and stands under this line. A text that ends in a line feed has no line
behind it, though positions behind it are in one. -/
set_option autoImplicit false
namespace MiniPascal

/-! ## Lines of a text -/

/-- No line is left open: the text is empty or ends in a line feed. -/
def EndsLine (text : List Char) : Prop :=
  text = [] ∨ text.getLast? = some '\n'

instance (text : List Char) : Decidable (EndsLine text) :=
  inferInstanceAs (Decidable (_ ∨ _))

theorem endsLine_append (line rest : List Char) :
    EndsLine (line ++ '\n' :: rest) ↔ EndsLine rest := by
  cases rest with
  | nil => simp [EndsLine]
  | cons c rest => simp [EndsLine, List.getLast?_append, List.getLast?_cons_cons]

theorem linesFrom_length (text : List Char) : ∀ line : List Char, '\n' ∉ line →
    (linesFrom line text).length
      = text.count '\n' + if EndsLine (line.reverse ++ text) then 0 else 1 := by
  induction text with
  | nil =>
      intro line single
      cases line with
      | nil => rfl
      | cons c line =>
          have other : c ≠ '\n' := fun same => single (same ▸ List.mem_cons_self)
          have runs : ¬ EndsLine ((c :: line).reverse ++ []) := by simp [EndsLine, other]
          rw [if_neg runs]
          rfl
  | cons c rest ih =>
      intro line single
      rw [linesFrom]
      split
      · rename_i newline
        subst newline
        rw [List.length_cons, ih [] List.not_mem_nil, List.reverse_nil, List.nil_append,
          List.count_cons_self, Nat.add_right_comm]
        by_cases ends : EndsLine rest
        · rw [if_pos ends, if_pos ((endsLine_append _ _).mpr ends)]
        · rw [if_neg ends, if_neg (mt (endsLine_append _ _).mp ends)]
      · rename_i other
        rw [ih (c :: line) (by simp [single, Ne.symm other])]
        simp [other]

/-- A text has a line for every line feed, and one more if its last line is open. -/
theorem textLines_length (source : String) : (textLines source).length
    = source.toList.count '\n' + if EndsLine source.toList then 0 else 1 :=
  linesFrom_length source.toList [] List.not_mem_nil

theorem linesFrom_single (text : List Char) : ∀ line : List Char, '\n' ∉ line →
    ∀ found ∈ linesFrom line text, '\n' ∉ found := by
  induction text with
  | nil =>
      intro line single
      cases line with
      | nil => exact nofun
      | cons c line =>
          exact List.forall_mem_singleton.mpr fun member => single (List.mem_reverse.mp member)
  | cons c rest ih =>
      intro line single
      rw [linesFrom]
      split
      · refine List.forall_mem_cons.mpr ⟨fun member => ?_, ih [] List.not_mem_nil⟩
        unfold endedLine at member
        split at member
        · exact single (List.mem_cons_of_mem _ (List.mem_reverse.mp member))
        · exact single (List.mem_reverse.mp member)
      · rename_i other
        exact ih (c :: line) (by simp [single, Ne.symm other])

/-! ## Numbers of lines -/

/-- The number of the line with the given index. -/
def lineNumber (index : Nat) : Int32 :=
  Int32.ofNat (index + 1)

theorem lineNumber_succ (index : Nat) : lineNumber index + 1 = lineNumber (index + 1) :=
  (Int32.ofNat_add (index + 1) 1).symm

/-- Different lines have different numbers as long as the text has not too many. -/
theorem lineNumber_inj {first second : Nat} (few : first + 1 < 2 ^ 32) (other : second + 1 < 2 ^ 32)
    (same : lineNumber first = lineNumber second) : first = second := by
  have words := congrArg (fun number : Int32 => number.toBitVec.toNat) same
  have value : ∀ n, (Int32.ofNat n).toBitVec.toNat = n % 2 ^ 32 := fun n => rfl
  simp only [lineNumber, value, Nat.mod_eq_of_lt few, Nat.mod_eq_of_lt other] at words
  omega

/-- The line of the place behind a text is counted by its line feeds. -/
theorem Position.line_afterAll (text : List Char) :
    (start.afterAll text).line = lineNumber (text.count '\n') := by
  induction text using List.reverseRecOn with
  | nil => rfl
  | append_singleton text c ih =>
      rw [afterAll_append, afterAll, List.foldl_cons, List.foldl_nil, after]
      split
      · rename_i newline
        subst newline
        rw [ih, lineNumber_succ]
        simp
      · rename_i other
        simpa [List.count_singleton, other] using ih

/-! ## The rows of an excerpt -/

/-- The row of a marker: dashes and a caret. -/
def IsMarker (row : List Char) : Prop :=
  ∃ dashes, row = List.replicate dashes '-' ++ ['^']

namespace ExcerptLine

/-- A line of an excerpt without its end. -/
def row : ExcerptLine → List Char
  | .numbered number text => (padLeft 6 number.toInt.repr ++ "|").toList ++ text
  | .marker dashes => List.replicate dashes '-' ++ ['^']

theorem toList_shown (line : ExcerptLine) : line.shown.toList = line.row ++ ['\n'] := by
  cases line <;> simp [shown, row]

theorem not_isMarker (number : Int32) (text : List Char) :
    ¬ IsMarker (numbered number text).row := by
  rintro ⟨dashes, same⟩
  have bar : '|' ∈ (numbered number text).row := by simp [row]
  rw [same] at bar
  simp at bar

end ExcerptLine

/-- A column before the first one counts as the first. -/
theorem markerDashes_eq (position : Position) :
    markerDashes position = 7 + (max position.column.toInt 1 - 1).toNat := by
  have one : (1 : Int32).toInt = 1 := rfl
  have column : (max position.column 1).toInt = max position.column.toInt 1 := by
    change (if position.column ≤ 1 then 1 else position.column).toInt = _
    split
    · rename_i first
      rw [Int32.le_iff_toInt_le, one] at first
      omega
    · rename_i first
      rw [Int32.le_iff_toInt_le, one] at first
      omega
  rw [markerDashes, column, gutterWidth]
  omega

/-- Before the caret there are as many dashes as the gutter is wide, and one for each column before
the one that is meant. -/
theorem ExcerptLine.row_marker {position : Position} {offset : Nat}
    (column : position.column.toInt = 1 + offset) :
    (marker (markerDashes position)).row = List.replicate (7 + offset) '-' ++ ['^'] := by
  have dashes : (max position.column.toInt 1 - 1).toNat = offset := by
    rw [column]
    omega
  rw [row, markerDashes_eq, dashes]

theorem newline_not_mem_repr (number : Int) : '\n' ∉ number.repr.toList := by
  have digits : ∀ n : Nat, '\n' ∉ n.repr.toList := by
    intro n member
    rw [Nat.toList_repr] at member
    exact absurd (Nat.isDigit_of_mem_toDigits (by decide) (by decide) member) (by decide)
  cases number with
  | ofNat n => exact digits n
  | negSucc n =>
      rw [Int.repr, String.toList_append]
      exact fun member => (List.mem_append.mp member).elim (by decide) (digits _)

/-! ## What is shown of a line -/

/-- What an excerpt holds for the line with the given index. -/
def shownAt (position : Position) (index : Nat) (text : List Char) : List ExcerptLine :=
  if nearLine position (lineNumber index) then
    .numbered (lineNumber index) text ::
      if lineNumber index = position.line then [.marker (markerDashes position)] else []
  else []

theorem excerptFrom_eq_flatMap (position : Position) (lines : List (List Char)) (index : Nat) :
    excerptFrom position (lineNumber index) lines
      = (lines.zipIdx index).flatMap fun entry => shownAt position entry.2 entry.1 := by
  induction lines generalizing index with
  | nil => rfl
  | cons line rest ih =>
      rw [excerptFrom, lineNumber_succ, ih, List.zipIdx_cons, List.flatMap_cons, shownAt]
      split
      · split <;> rfl
      · rfl

/-- What there is for a list of numbered lines is there for one of them. -/
theorem mem_flatMap_zipIdx {α : Type} {value : α} {lines : List (List Char)} {index : Nat}
    {values : Nat → List Char → List α} :
    value ∈ (lines.zipIdx index).flatMap (fun entry => values entry.2 entry.1)
      ↔ ∃ offset text, lines[offset]? = some text ∧ value ∈ values (index + offset) text := by
  rw [List.mem_flatMap]
  constructor
  · rintro ⟨⟨text, number⟩, entry, member⟩
    obtain ⟨least, found⟩ := List.mk_mem_zipIdx_iff_le_and_getElem?_sub.mp entry
    exact ⟨number - index, text, found, (Nat.add_sub_cancel' least).symm ▸ member⟩
  · rintro ⟨offset, text, found, member⟩
    exact ⟨(text, index + offset), List.mk_add_mem_zipIdx_iff_getElem?.mpr found, member⟩

theorem mem_shownAt {position : Position} {index : Nat} {text : List Char} {line : ExcerptLine}
    (member : line ∈ shownAt position index text) :
    line = .numbered (lineNumber index) text
      ∨ lineNumber index = position.line ∧ line = .marker (markerDashes position) := by
  unfold shownAt at member
  split at member
  · rcases List.mem_cons.mp member with same | member
    · exact .inl same
    · split at member
      · rename_i meant
        exact .inr ⟨meant, List.mem_singleton.mp member⟩
      · cases member
  · cases member

/-- A numbered line of the text. -/
def ExcerptLine.Numbers (lines : List (List Char)) (line : ExcerptLine) : Prop :=
  ∃ number, ∃ text ∈ lines, line = .numbered number text

/-- Only the line that is meant has a marker. -/
theorem mem_excerptFrom {position : Position} {lines : List (List Char)} {line : ExcerptLine}
    {index : Nat} (member : line ∈ excerptFrom position (lineNumber index) lines) :
    line.Numbers lines ∨ line = .marker (markerDashes position)
      ∧ ∃ offset < lines.length, lineNumber (index + offset) = position.line := by
  rw [excerptFrom_eq_flatMap] at member
  obtain ⟨offset, text, found, member⟩ := mem_flatMap_zipIdx.mp member
  rcases mem_shownAt member with same | ⟨meant, same⟩
  · exact .inl ⟨_, text, List.mem_of_getElem? found, same⟩
  · exact .inr ⟨same, offset, (List.getElem?_eq_some_iff.mp found).1, meant⟩

theorem excerptFrom_append (position : Position) (before behind : List (List Char)) (index : Nat) :
    excerptFrom position (lineNumber index) (before ++ behind)
      = excerptFrom position (lineNumber index) before
        ++ excerptFrom position (lineNumber (index + before.length)) behind := by
  rw [excerptFrom_eq_flatMap, excerptFrom_eq_flatMap, excerptFrom_eq_flatMap, List.zipIdx_append,
    List.flatMap_append]

/-- Lines with other numbers are shown without a marker. -/
theorem excerptFrom_unmarked (position : Position) (lines : List (List Char)) (index : Nat)
    (others : ∀ offset < lines.length, lineNumber (index + offset) ≠ position.line) :
    ∀ row ∈ (excerptFrom position (lineNumber index) lines).map ExcerptLine.row,
      ¬ IsMarker row := by
  intro row member
  obtain ⟨shown, inside, rfl⟩ := List.mem_map.mp member
  rcases mem_excerptFrom inside with ⟨number, text, _, rfl⟩ | ⟨_, offset, few, meant⟩
  · exact ExcerptLine.not_isMarker number text
  · exact absurd meant (others offset few)

theorem excerptFrom_marked (position : Position) (line : List Char) :
    excerptFrom position position.line [line]
      = [.numbered position.line line, .marker (markerDashes position)] := by
  have near : nearLine position position.line = true := by
    rw [nearLine, Int32.sub_self]
    decide
  simp [excerptFrom, near]

/-- Every line of an excerpt is a row of its own. -/
theorem rows_excerpt (source : String) (position : Position) :
    Rows (excerpt source position) ((excerptLines source position).map ExcerptLine.row) := by
  refine .join_map (fun line _ => line.toList_shown) ?_
  intro line member
  rcases mem_excerptFrom member with ⟨number, text, among, rfl⟩ | ⟨rfl, _⟩
  · have single := linesFrom_single source.toList [] List.not_mem_nil text among
    simp [ExcerptLine.row, padLeft, newline_not_mem_repr, single]
  · simp [ExcerptLine.row]

/-- The excerpt has one marker, with the given column, and right above it the line of the text that
has the number. -/
def MarksOnce (source : String) (position : Position) : Prop :=
  ∃ (index : Nat) (line : List Char) (above below : List (List Char)),
    (textLines source)[index]? = some line ∧ lineNumber index = position.line
      ∧ Rows (excerpt source position) (above ++ [(ExcerptLine.numbered position.line line).row,
        (ExcerptLine.marker (markerDashes position)).row] ++ below)
      ∧ ∀ row ∈ above ++ below, ¬ IsMarker row

section

variable {source : String} {position : Position} {index : Nat}

/-- An excerpt for a line that the text does not have is without a marker. -/
theorem not_isMarker_of_length_le (few : index + 1 < 2 ^ 32)
    (line : position.line = lineNumber index) (absent : (textLines source).length ≤ index) :
    ∀ row ∈ (excerptLines source position).map ExcerptLine.row, ¬ IsMarker row := by
  apply excerptFrom_unmarked position (textLines source) 0
  intro offset small same
  rw [line] at same
  have := lineNumber_inj (by omega) few same
  omega

/-- The excerpt of the lines before, the line that is meant with the marker, and those behind. -/
theorem excerptLines_of_lt (line : position.line = lineNumber index)
    (present : index < (textLines source).length) :
    excerptLines source position
      = excerptFrom position (lineNumber 0) ((textLines source).take index)
        ++ [.numbered position.line (textLines source)[index], .marker (markerDashes position)]
        ++ excerptFrom position (lineNumber (index + 1)) ((textLines source).drop (index + 1)) := by
  let line' := (textLines source)[index]
  let before := (textLines source).take index
  let behind := (textLines source).drop (index + 1)
  have cut : textLines source = before ++ ([line'] ++ behind) := by
    rw [List.singleton_append, ← List.drop_eq_getElem_cons present, List.take_append_drop]
  have taken : before.length = index := List.length_take_of_le (Nat.le_of_lt present)
  calc excerptLines source position
      = excerptFrom position (lineNumber 0) (before ++ ([line'] ++ behind)) := by
        rw [excerptLines, ← cut]
        rfl
    _ = excerptFrom position (lineNumber 0) before
        ++ (excerptFrom position (lineNumber index) [line']
          ++ excerptFrom position (lineNumber (index + 1)) behind) := by
        rw [excerptFrom_append, excerptFrom_append, Nat.zero_add, taken]
        rfl
    _ = _ := by rw [← line, excerptFrom_marked, List.append_assoc]

theorem marksOnce_of_lt (few : (textLines source).length < 2 ^ 32)
    (line : position.line = lineNumber index) (present : index < (textLines source).length) :
    MarksOnce source position := by
  have taken : ((textLines source).take index).length = index :=
    List.length_take_of_le (Nat.le_of_lt present)
  have left : ((textLines source).drop (index + 1)).length
      = (textLines source).length - (index + 1) := List.length_drop
  have rows := rows_excerpt source position
  rw [excerptLines_of_lt line present, List.map_append, List.map_append] at rows
  refine ⟨index, _, _, _, List.getElem?_eq_getElem present, line.symm, rows, ?_⟩
  refine List.forall_mem_append.mpr
    ⟨excerptFrom_unmarked _ _ _ fun offset small same => ?_,
      excerptFrom_unmarked _ _ _ fun offset small same => ?_⟩
  · rw [line, Nat.zero_add] at same
    have := lineNumber_inj (by omega) (by omega) same
    omega
  · rw [line] at same
    have := lineNumber_inj (by omega) (by omega) same
    omega

theorem marksOnce_iff (few : (textLines source).length < 2 ^ 32) (small : index + 1 < 2 ^ 32)
    (line : position.line = lineNumber index) :
    MarksOnce source position ↔ index < (textLines source).length := by
  constructor
  · rintro ⟨other, _, _, _, found, same, _⟩
    have present := (List.getElem?_eq_some_iff.mp found).1
    rw [line] at same
    rwa [lineNumber_inj (by omega) small same] at present
  · exact marksOnce_of_lt few line

end
end MiniPascal
