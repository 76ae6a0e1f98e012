import Mathlib.Algebra.Order.Group.Abs
import Mathlib.Algebra.Order.Group.Int
import Mathlib.Algebra.Order.Group.Unbundled.Int
import MiniPascal.Proofs.Source.Excerpts

/-! # The window of an excerpt

An excerpt shows the lines that are at most two away from the line that is meant, and the marker
behind that one. How far a line is away is a word. It is the distance between the two numbers
unless the line that is meant lies so far in front of the text that the word wraps around, and then
a line of the text can look near that is not. -/
set_option autoImplicit false
namespace MiniPascal

/-! ## Distances as words -/

theorem toInt_lineNumber {index : Nat} (few : index + 1 < 2 ^ 31) :
    (lineNumber index).toInt = index + 1 :=
  Int32.toInt_ofNat_of_lt few

theorem lineNumber_eq_iff {index : Nat} (few : index + 1 < 2 ^ 31) {word : Int32} :
    lineNumber index = word ↔ word.toInt = index + 1 := by
  rw [← Int32.toInt_inj, toInt_lineNumber few, eq_comm]

/-- The least word has no magnitude: it is its own. -/
theorem toInt_abs (word : Int32) :
    word.abs.toInt = if word.toInt = -2 ^ 31 then -2 ^ 31 else |word.toInt| := by
  have least : word.toBitVec = BitVec.intMin 32 ↔ word.toInt = -2 ^ 31 := by
    rw [← BitVec.toInt_inj, BitVec.toInt_intMin_of_pos (by decide)]
    rfl
  have magnitude : word.abs.toInt
      = if word.toBitVec = BitVec.intMin 32 then (BitVec.intMin 32).toInt
        else word.toInt.natAbs :=
    BitVec.toInt_abs_eq_natAbs
  rw [magnitude, Int.natCast_natAbs]
  simp only [least]
  rfl

section

variable {position : Position} {index : Nat}

/-- The difference to a line of the text wraps around once, or not at all. -/
theorem toInt_sub_lineNumber (position : Position) (few : index + 1 < 2 ^ 31) :
    (position.line - lineNumber index).toInt
      = if position.line.toInt - (index + 1) < -2 ^ 31
        then position.line.toInt - (index + 1) + 2 ^ 32 else position.line.toInt - (index + 1) := by
  have low := position.line.le_toInt
  have high := position.line.toInt_lt
  rw [Int32.toInt_sub, toInt_lineNumber few]
  split
  · rw [← Int.add_bmod_right]
    exact Int.bmod_eq_of_le (by omega) (by omega)
  · exact Int.bmod_eq_of_le (by omega) (by omega)

/-- No operation on words has overflowed on the way to the distance of a line. -/
structure ExactDistance (position : Position) (index : Nat) : Prop where
  number : (lineNumber index).toInt = index + 1
  difference : (position.line - lineNumber index).toInt = position.line.toInt - (index + 1)
  distance : (position.line - lineNumber index).abs.toInt = |position.line.toInt - (index + 1)|

theorem exactDistance_iff (few : index + 1 < 2 ^ 31) :
    ExactDistance position index ↔ -2 ^ 31 < position.line.toInt - (index + 1) := by
  have difference := toInt_sub_lineNumber position few
  have magnitude := toInt_abs (position.line - lineNumber index)
  constructor
  · intro exact
    rw [exact.difference] at difference
    rw [exact.distance, exact.difference] at magnitude
    split at magnitude
    · have nonneg := abs_nonneg (position.line.toInt - (index + 1))
      omega
    · split at difference <;> omega
  · intro above
    rw [if_neg (by omega)] at difference
    rw [difference, if_neg (by omega)] at magnitude
    exact ⟨toInt_lineNumber few, difference, magnitude⟩

/-- A line looks near if it is, if the distance is the word without a magnitude, or if the
difference has wrapped around to the margin. -/
theorem nearLine_iff (few : index + 2 < 2 ^ 31) :
    nearLine position (lineNumber index) = true
      ↔ |position.line.toInt - (index + 1)| ≤ 2
        ∨ position.line.toInt + 2 ^ 31 = index + 1
        ∨ position.line.toInt = -2 ^ 31 ∧ index + 3 = 2 ^ 31 := by
  have low := position.line.le_toInt
  have margin : excerptMargin.toInt = 2 := rfl
  rw [nearLine, decide_eq_true_iff, Int32.le_iff_toInt_le, toInt_abs,
    toInt_sub_lineNumber position (Nat.lt_of_succ_lt few), margin, abs_le]
  by_cases wraps : position.line.toInt - (index + 1) < -2 ^ 31
  · simp only [if_pos wraps]
    rw [if_neg (by omega), abs_le]
    omega
  · simp only [if_neg wraps]
    split
    · omega
    · rw [abs_le]
      omega

end

/-! ## Rows of a window -/

/-- The rows that a line is worth, counted with integers: a line at most two away with its number
in front of it, and the marker if it is the line that is meant. -/
def windowAt (position : Position) (index : Nat) (text : List Char) : List (List Char) :=
  if |position.line.toInt - (index + 1)| ≤ 2 then
    ((padLeft 6 (index + 1).repr ++ "|").toList ++ text) ::
      if position.line.toInt = index + 1 then
        [List.replicate (7 + (max position.column.toInt 1 - 1).toNat) '-' ++ ['^']]
      else []
  else []

/-- The rows of all lines near a position, in the order of the text. -/
def window (source : String) (position : Position) : List (List Char) :=
  (textLines source).zipIdx.flatMap fun entry => windowAt position entry.2 entry.1

theorem row_numbered {index : Nat} (few : index + 1 < 2 ^ 31) (text : List Char) :
    (ExcerptLine.numbered (lineNumber index) text).row
      = (padLeft 6 (index + 1).repr ++ "|").toList ++ text := by
  rw [ExcerptLine.row, toInt_lineNumber few]
  rfl

/-- A line is shown as it should be if it looks near exactly where it is. -/
theorem map_row_shownAt {position : Position} {index : Nat} (few : index + 1 < 2 ^ 31)
    (near : nearLine position (lineNumber index) = true ↔ |position.line.toInt - (index + 1)| ≤ 2)
    (text : List Char) :
    (shownAt position index text).map ExcerptLine.row = windowAt position index text := by
  rw [shownAt, windowAt]
  by_cases shown : |position.line.toInt - (index + 1)| ≤ 2
  · rw [if_pos (near.mpr shown), if_pos shown, List.map_cons, row_numbered few]
    by_cases meant : position.line.toInt = index + 1
    · rw [if_pos ((lineNumber_eq_iff few).mpr meant), if_pos meant, List.map_singleton,
        ExcerptLine.row, markerDashes_eq]
    · rw [if_neg (mt (lineNumber_eq_iff few).mp meant), if_neg meant, List.map_nil]
  · rw [if_neg (mt near.mp shown), if_neg shown, List.map_nil]

theorem isMarker_mem_windowAt {position : Position} {index : Nat} (few : index + 1 < 2 ^ 31)
    (text : List Char) :
    (∃ row ∈ windowAt position index text, IsMarker row) ↔ position.line.toInt = index + 1 := by
  constructor
  · rintro ⟨row, member, marker⟩
    rw [windowAt] at member
    split at member
    · rcases List.mem_cons.mp member with same | member
      · rw [same, ← row_numbered few text] at marker
        exact absurd marker (ExcerptLine.not_isMarker _ text)
      · split at member
        · assumption
        · cases member
    · cases member
  · intro meant
    have near : |position.line.toInt - (index + 1)| ≤ 2 := by
      rw [meant, sub_self, abs_zero]
      decide
    rw [windowAt, if_pos near, if_pos meant]
    exact ⟨_, List.mem_cons_of_mem _ List.mem_cons_self, _, rfl⟩

/-! ## Windows of a text -/

section

variable {source : String} {position : Position}

theorem mem_window {row : List Char} : row ∈ window source position
    ↔ ∃ index text, (textLines source)[index]? = some text ∧ row ∈ windowAt position index text := by
  rw [window, mem_flatMap_zipIdx]
  simp only [Nat.zero_add]

/-- The window has the marker if the line that is meant is one of the text. -/
theorem isMarker_mem_window (few : (textLines source).length < 2 ^ 31 - 1) :
    (∃ row ∈ window source position, IsMarker row)
      ↔ 1 ≤ position.line.toInt ∧ position.line.toInt ≤ (textLines source).length := by
  constructor
  · rintro ⟨row, member, marker⟩
    obtain ⟨index, text, found, member⟩ := mem_window.mp member
    have present := (List.getElem?_eq_some_iff.mp found).1
    have meant := (isMarker_mem_windowAt (by omega) text).mp ⟨row, member, marker⟩
    omega
  · rintro ⟨first, last⟩
    have present : (position.line.toInt - 1).toNat < (textLines source).length := by omega
    have meant : position.line.toInt = (position.line.toInt - 1).toNat + 1 := by omega
    obtain ⟨row, member, marker⟩ := (isMarker_mem_windowAt (by omega) _).mpr meant
    exact ⟨row, mem_window.mpr ⟨_, _, List.getElem?_eq_getElem present, member⟩, marker⟩

theorem map_row_excerptLines (source : String) (position : Position) :
    (excerptLines source position).map ExcerptLine.row
      = (textLines source).zipIdx.flatMap fun entry =>
        (shownAt position entry.2 entry.1).map ExcerptLine.row := by
  rw [excerptLines, show (1 : Int32) = lineNumber 0 from rfl, excerptFrom_eq_flatMap,
    List.map_flatMap]

/-- The excerpt is the window if the lines of the text that look near are. -/
theorem rows_window (few : (textLines source).length < 2 ^ 31 - 1)
    (near : ∀ index < (textLines source).length, nearLine position (lineNumber index) = true →
      |position.line.toInt - (index + 1)| ≤ 2) :
    Rows (excerpt source position) (window source position) := by
  have rows := rows_excerpt source position
  rw [map_row_excerptLines] at rows
  have same : (textLines source).zipIdx.flatMap
      (fun entry => (shownAt position entry.2 entry.1).map ExcerptLine.row)
        = window source position := by
    apply List.flatMap_congr
    rintro ⟨text, index⟩ entry
    have found := List.mk_mem_zipIdx_iff_getElem?.mp entry
    have present := (List.getElem?_eq_some_iff.mp found).1
    exact map_row_shownAt (by omega)
      ⟨near index present, fun close => (nearLine_iff (by omega)).mpr (.inl close)⟩ text
  rwa [same] at rows

/-- The window of a position far in front of the text is empty. -/
theorem window_eq_nil (front : position.line.toInt < -1) : window source position = [] := by
  apply List.eq_nil_iff_forall_not_mem.mpr
  intro row member
  obtain ⟨index, text, _, member⟩ := mem_window.mp member
  have distant : ¬ |position.line.toInt - (index + 1)| ≤ 2 := by
    rw [abs_le]
    omega
  rw [windowAt, if_neg distant] at member
  cases member

/-- A line that looks near makes the excerpt differ from an empty window. -/
theorem not_rows_nil (index : Nat) (present : index < (textLines source).length)
    (near : nearLine position (lineNumber index) = true) : ¬ Rows (excerpt source position) [] := by
  intro rows
  have none := (rows_excerpt source position).unique rows
  rw [map_row_excerptLines, List.flatMap_eq_nil_iff] at none
  have entry := none _ (List.mk_mem_zipIdx_iff_getElem?.mpr (List.getElem?_eq_getElem present))
  rw [shownAt, if_pos near] at entry
  cases entry

/-- The excerpt shows the lines that are near over the integers, and no operation on words has
overflowed on the way. There is a marker if the line that is meant is one of the text. -/
structure ExactWindow (source : String) (position : Position) : Prop where
  distances : ∀ index < (textLines source).length, ExactDistance position index
  rows : Rows (excerpt source position) (window source position)
  marker : (∃ row ∈ window source position, IsMarker row)
    ↔ 1 ≤ position.line.toInt ∧ position.line.toInt ≤ (textLines source).length

theorem exactDistances_iff (few : (textLines source).length < 2 ^ 31 - 1) :
    (∀ index < (textLines source).length, ExactDistance position index)
      ↔ textLines source = [] ∨ (textLines source).length - 2 ^ 31 < position.line.toInt := by
  rw [← List.length_eq_zero_iff]
  constructor
  · intro exact
    by_cases none : (textLines source).length = 0
    · exact .inl none
    · have last := (exactDistance_iff (by omega)).mp
        (exact ((textLines source).length - 1) (by omega))
      exact .inr (by omega)
  · intro above index present
    exact (exactDistance_iff (by omega)).mpr (by omega)

/-- An excerpt is exact unless the last line of the text is so far behind the line that is meant
that the distance has no word. Then the rows are still those of the window, but for the one line
whose distance has no magnitude, and the last line of the longest texts, where the difference wraps
around to the margin. -/
theorem exactWindow_iff (few : (textLines source).length < 2 ^ 31 - 1) :
    (ExactWindow source position
        ↔ textLines source = [] ∨ (textLines source).length - 2 ^ 31 < position.line.toInt)
      ∧ (Rows (excerpt source position) (window source position)
        ↔ ¬ (1 ≤ position.line.toInt + 2 ^ 31
            ∧ position.line.toInt + 2 ^ 31 ≤ (textLines source).length)
          ∧ ¬ (position.line.toInt = -2 ^ 31 ∧ (textLines source).length = 2 ^ 31 - 2)) := by
  have low := position.line.le_toInt
  have exactly : Rows (excerpt source position) (window source position)
      ↔ ¬ (1 ≤ position.line.toInt + 2 ^ 31
          ∧ position.line.toInt + 2 ^ 31 ≤ (textLines source).length)
        ∧ ¬ (position.line.toInt = -2 ^ 31 ∧ (textLines source).length = 2 ^ 31 - 2) := by
    constructor
    · intro rows
      constructor
      · rintro ⟨first, last⟩
        rw [window_eq_nil (by omega)] at rows
        refine not_rows_nil (position.line.toInt + 2 ^ 31 - 1).toNat (by omega) ?_ rows
        exact (nearLine_iff (by omega)).mpr (.inr (.inl (by omega)))
      · rintro ⟨least, longest⟩
        rw [window_eq_nil (by omega)] at rows
        refine not_rows_nil (2 ^ 31 - 3) (by omega) ?_ rows
        exact (nearLine_iff (by omega)).mpr (.inr (.inr ⟨least, by omega⟩))
    · rintro ⟨one, two⟩
      refine rows_window few fun index present near => ?_
      rcases (nearLine_iff (by omega)).mp near with close | wrapped | ⟨least, longest⟩
      · exact close
      · omega
      · omega
  refine ⟨?_, exactly⟩
  rw [← exactDistances_iff few]
  constructor
  · exact ExactWindow.distances
  · intro distances
    refine ⟨distances, exactly.mpr ?_, isMarker_mem_window few⟩
    rcases (exactDistances_iff few).mp distances with none | above
    · rw [none, List.length_nil]
      omega
    · omega

end

theorem exactWindow_iff_foremost :
    (textLines "a\r\nb").length < 2 ^ 31 - 1 ∧ ExactWindow "a\r\nb" ⟨-2147483645, -2147483648⟩ := by
  have lines : (textLines "a\r\nb").length = 2 := by decide
  have few : (textLines "a\r\nb").length < 2 ^ 31 - 1 := by rw [lines]; decide
  exact ⟨few, (exactWindow_iff few).1.mpr (.inr (by rw [lines]; decide))⟩

/-- The distance to the first line is the word without a magnitude. -/
theorem not_exactWindow_front :
    excerpt "a" ⟨-2147483647, 1⟩ = "     1|a\n" ∧ window "a" ⟨-2147483647, 1⟩ = []
      ∧ ¬ ExactWindow "a" ⟨-2147483647, 1⟩ := by
  have lines : (textLines "a").length = 1 := by decide
  refine ⟨by decide, window_eq_nil (by decide), fun exactly => ?_⟩
  rcases (exactDistances_iff (by rw [lines]; decide)).mp exactly.distances with none | above
  · exact absurd none (by decide)
  · rw [lines] at above
    exact absurd above (by decide)

end MiniPascal
