import Mathlib.Algebra.BigOperators.Group.List.Basic
import Mathlib.Data.List.Induction
import Mathlib.Data.String.Basic
import MiniPascal.Proofs.Token.Reading

/-! # Steps of a lexer tile the text

Step by step a lexer passes a gap and then a piece of text, which is the token that it yields or the
character that it reports. Nothing is passed twice and nothing is left out. A place in the text is
known by what stands before it: its offset counts the bytes of that text, its position the lines and
the characters of the last line. -/
set_option autoImplicit false
namespace MiniPascal

/-! ## Positions -/

/-- The position is the place behind a text: its line counts the line breaks and its column the
characters behind the last one, both from one. -/
structure Position.Behind (position : Position) (text : List Char) : Prop where
  line : position.line.toInt = 1 + text.count '\n'
  column : position.column.toInt = 1 + (text.reverse.takeWhile fun c => c != '\n').length

namespace Position

theorem toInt_add_one {word : Int32} {count : Nat} (counted : word.toInt = 1 + count)
    (short : count < 2 ^ 31 - 2) : (word + 1).toInt = 1 + (count + 1 : Nat) := by
  have one : (1 : Int32).toInt = 1 := rfl
  rw [Int32.toInt_add, counted, one, Int.bmod_eq_of_le (by omega) (by omega)]
  omega

/-- Positions count without overflow as long as the text is short. -/
theorem behind_afterAll (text : List Char) :
    text.length < 2 ^ 31 - 1 → (start.afterAll text).Behind text := by
  induction text using List.reverseRecOn with
  | nil => exact fun _ => ⟨rfl, rfl⟩
  | append_singleton text c ih =>
      intro short
      rw [List.length_append, List.length_singleton] at short
      obtain ⟨line, column⟩ := ih (by omega)
      rw [afterAll_append, afterAll, List.foldl_cons, List.foldl_nil, after]
      have lines : text.count '\n' ≤ text.length := List.count_le_length
      have columns : (text.reverse.takeWhile fun c => c != '\n').length ≤ text.length := by
        simpa using (List.takeWhile_sublist (l := text.reverse) fun c => c != '\n').length_le
      split
      · rename_i newline
        subst newline
        refine ⟨?_, by simp⟩
        simpa using toInt_add_one line (by omega)
      · rename_i other
        refine ⟨by simpa [List.count_singleton, other] using line, ?_⟩
        simpa [other] using toInt_add_one column (by omega)

end Position

/-! ## Pieces -/

/-- What a step passes: a gap, the text behind it, and what the step yields for that text. -/
structure Piece where
  gap : List Char
  text : List Char
  outcome : Except LexError Token

namespace Piece

def passed (piece : Piece) : List Char :=
  piece.gap ++ piece.text

/-- The outcome is the token of the text, or the text is the one character that the error is
about. Both have the position behind the gap. -/
def Fits (position : Position) (piece : Piece) : Prop :=
  Gap piece.gap ∧
    match piece.outcome with
    | .ok token => token.kind ≠ .endOfFile ∧ piece.text ≠ []
      ∧ token.text = String.ofList piece.text ∧ token.start = position.afterAll piece.gap
    | .error error => piece.text = [error.character]
      ∧ error.position = position.afterAll piece.gap

theorem Fits.passed_ne_nil {position : Position} {piece : Piece} (fits : piece.Fits position) :
    piece.passed ≠ [] := by
  obtain ⟨_, holds⟩ := fits
  have text : piece.text ≠ [] := by
    cases found : piece.outcome with
    | ok token =>
        rw [found] at holds
        exact holds.2.1
    | error error =>
        rw [found] at holds
        rw [holds.1]
        exact List.cons_ne_nil _ _
  exact List.append_ne_nil_of_right_ne_nil _ text

end Piece

namespace Lexer

def afterSteps : Nat → Lexer → Lexer
  | 0, lexer => lexer
  | count + 1, lexer => afterSteps count lexer.advance.2

/-- A step of an open lexer ends the text or passes a piece of it. -/
theorem advance_cases {lexer : Lexer} (isOpen : lexer.Open) :
    (Exhausted lexer.reader.remaining ∧ ∃ after last, lexer.advance = (.ok last, after)
        ∧ last = ⟨.endOfFile, "", lexer.reader.position.afterAll lexer.reader.remaining⟩
        ∧ after.current = some last)
      ∨ ∃ (piece : Piece) (after : Lexer), lexer.advance = (piece.outcome, after) ∧ after.Open
        ∧ piece.Fits lexer.reader.position ∧ lexer.reader.Passes piece.passed after.reader := by
  obtain ⟨gap, tail, split, isGap, unclosed | ⟨c, rest, rfl, blank, opens⟩⟩ :=
    exists_gap lexer.reader.remaining
  · have exhausted : Exhausted lexer.reader.remaining := ⟨gap, tail, split, isGap, unclosed⟩
    obtain ⟨after, last, advanced, current, same⟩ := advance_of_exhausted isOpen exhausted
    exact .inl ⟨exhausted, after, last, advanced, same, current⟩
  · refine .inr ?_
    rcases exists_lexeme c rest with unknown | ⟨others, kind, behind, rfl, lexeme⟩
    · obtain ⟨after, advanced, current, passes, _⟩ :=
        advance_of_unknown isOpen isGap blank opens unknown split
      exact ⟨⟨gap, [c], .error ⟨lexer.reader.position.afterAll gap, c⟩⟩, after, advanced,
        isOpen.of_current current, ⟨isGap, rfl, rfl⟩, passes⟩
    · rw [← List.cons_append, ← List.append_assoc] at split
      obtain ⟨after, advanced, isOpen', passes, _⟩ := advance_of_lexeme isOpen isGap lexeme split
      exact ⟨⟨gap, c :: others, .ok ⟨kind, String.ofList (c :: others),
        lexer.reader.position.afterAll gap⟩⟩, after, advanced, isOpen',
        ⟨isGap, lexeme.kind_ne, List.cons_ne_nil c others, rfl, rfl⟩, passes⟩

/-- The end of the text is never left again. -/
theorem advance_of_ended {lexer : Lexer} {last : Token} (ended : lexer.current = some last)
    (kind : last.kind = .endOfFile) : lexer.advance = (.ok last, lexer) := by
  rw [advance, ended]
  exact if_pos kind

/-- A step fails only at a character that starts no token. The last token stays in place, and what
is passed is this character with the gap in front of it. -/
theorem advance_failed {lexer after : Lexer} {error : LexError}
    (failed : lexer.advance = (.error error, after)) :
    after.current = lexer.current ∧ Alphabet.isBlank error.character = false
      ∧ ∃ gap, Gap gap ∧ error.position = lexer.reader.position.afterAll gap
        ∧ lexer.reader.Passes (gap ++ [error.character]) after.reader := by
  have isOpen : lexer.Open := by
    intro token current ended
    rw [advance_of_ended current ended] at failed
    cases failed
  obtain ⟨gap, tail, split, isGap, unclosed | ⟨c, rest, rfl, blank, opens⟩⟩ :=
    exists_gap lexer.reader.remaining
  · obtain ⟨_, _, advanced, _⟩ := advance_of_exhausted isOpen ⟨gap, tail, split, isGap, unclosed⟩
    rw [advanced] at failed
    cases failed
  · rcases exists_lexeme c rest with unknown | ⟨others, kind, behind, rfl, lexeme⟩
    · obtain ⟨_, advanced, current, passes, _⟩ :=
        advance_of_unknown isOpen isGap blank opens unknown split
      rw [advanced] at failed
      cases failed
      exact ⟨current, blank, gap, isGap, rfl, passes⟩
    · rw [← List.cons_append, ← List.append_assoc] at split
      obtain ⟨_, advanced, _⟩ := advance_of_lexeme isOpen isGap lexeme split
      rw [advanced] at failed
      cases failed

theorem afterSteps_of_ended {lexer : Lexer} {last : Token} (ended : lexer.current = some last)
    (kind : last.kind = .endOfFile) (count : Nat) : afterSteps count lexer = lexer := by
  induction count with
  | zero => rfl
  | succ count ih => rw [afterSteps, advance_of_ended ended kind, ih]

/-- The steps of a lexer up to the end of the text, and what they pass. -/
theorem exists_pieces : ∀ (size : Nat) (lexer : Lexer), lexer.reader.remaining.length = size →
    lexer.Open → ∃ (pieces : List Piece) (rest : List Char) (last : Token),
      lexer.reader.remaining = pieces.flatMap Piece.passed ++ rest ∧ Exhausted rest
        ∧ last = ⟨.endOfFile, "", lexer.reader.position.afterAll lexer.reader.remaining⟩
        ∧ (∀ (count : Nat) (piece : Piece), pieces[count]? = some piece →
          piece.Fits (lexer.reader.position.afterAll ((pieces.take count).flatMap Piece.passed)))
        ∧ (∀ count, count ≤ pieces.length →
          lexer.reader.Passes ((pieces.take count).flatMap Piece.passed)
            (lexer.afterSteps count).reader)
        ∧ ∀ count, (lexer.afterSteps count).advance.1
          = (pieces[count]?.map Piece.outcome).getD (.ok last) := by
  intro size
  -- Every piece has a text, so less and less remains; the pieces of the rest come behind the first.
  induction size using Nat.strongRecOn with
  | ind size ih =>
    intro lexer length isOpen
    rcases advance_cases isOpen with
      ⟨exhausted, after, last, advanced, same, ended⟩
      | ⟨piece, after, advanced, isOpen', fits, passes⟩
    · refine ⟨[], lexer.reader.remaining, last, rfl, exhausted, same, by simp, ?_, ?_⟩
      · intro count none
        rw [Nat.le_zero.mp none]
        exact .refl _
      · intro count
        cases count with
        | zero => rw [afterSteps, advanced]; rfl
        | succ count =>
            have kind : last.kind = .endOfFile := by rw [same]
            rw [afterSteps, advanced, afterSteps_of_ended ended kind,
              advance_of_ended ended kind]
            rfl
    · have shorter : after.reader.remaining.length < size := by
        rw [← length, passes.remaining, List.length_append]
        exact Nat.lt_add_of_pos_left (List.length_pos_iff.mpr fits.passed_ne_nil)
      obtain ⟨pieces, rest, last, split, exhausted, same, fit, steps, outcomes⟩ :=
        ih _ shorter after rfl isOpen'
      refine ⟨piece :: pieces, rest, last, ?_, exhausted, ?_, ?_, ?_, ?_⟩
      · rw [passes.remaining, split, List.flatMap_cons, List.append_assoc]
      · rw [same, passes.remaining, Position.afterAll_append, passes.position]
      · intro count found inside
        cases count with
        | zero =>
            cases inside
            exact fits
        | succ count =>
            rw [List.take_succ_cons, List.flatMap_cons, Position.afterAll_append,
              ← passes.position]
            exact fit count found inside
      · intro count few
        cases count with
        | zero => exact .refl _
        | succ count =>
            rw [List.take_succ_cons, List.flatMap_cons, afterSteps, advanced]
            exact passes.trans (steps count (Nat.le_of_succ_le_succ few))
      · intro count
        cases count with
        | zero => rw [afterSteps, advanced]; rfl
        | succ count =>
            rw [afterSteps, advanced, List.getElem?_cons_succ]
            exact outcomes count

/-- Steps that lead to a failing one pass a text up to the character that it reports, whose place
is behind that text. -/
theorem exists_passes {lexer after : Lexer} {error : LexError} {steps : Nat} (isOpen : lexer.Open)
    (failed : (lexer.afterSteps steps).advance = (.error error, after)) :
    steps < lexer.reader.remaining.length
      ∧ ∃ before, lexer.reader.Passes (before ++ [error.character]) after.reader
        ∧ error.position = lexer.reader.position.afterAll before := by
  obtain ⟨pieces, rest, last, split, _, _, fit, passes, outcomes⟩ :=
    exists_pieces _ lexer rfl isOpen
  have outcome := outcomes steps
  rw [failed] at outcome
  cases inside : pieces[steps]? with
  | none =>
      rw [inside] at outcome
      cases outcome
  | some piece =>
      have bounded : steps < pieces.length := (List.getElem?_eq_some_iff.mp inside).1
      obtain ⟨_, _, gap, _, place, passed⟩ := advance_failed failed
      have here := passes steps (Nat.le_of_lt bounded)
      refine ⟨Nat.lt_of_lt_of_le bounded ?_, (pieces.take steps).flatMap Piece.passed ++ gap, ?_, ?_⟩
      · -- every piece has a text
        rw [split, List.length_append, List.length_flatMap, ← List.length_map (·.passed.length)]
        refine Nat.le_trans (List.length_le_sum_of_one_le _ ?_) (Nat.le_add_right _ _)
        intro size member
        obtain ⟨piece, found, rfl⟩ := List.mem_map.mp member
        obtain ⟨count, found⟩ := List.getElem?_of_mem found
        exact List.length_pos_iff.mpr (fit count piece found).passed_ne_nil
      · rw [List.append_assoc]
        exact here.trans passed
      · rw [place, here.position, Position.afterAll_append]

/-- A reported character is one of the text, and its position is its place there. -/
theorem exists_place {source : String} {after : Lexer} {error : LexError} {steps : Nat}
    (failed : ((ofString source).afterSteps steps).advance = (.error error, after)) :
    steps < source.toList.length
      ∧ ∃ before, source.toList = before ++ error.character :: after.reader.remaining
        ∧ error.position = Position.start.afterAll before := by
  obtain ⟨few, before, passes, place⟩ := exists_passes (open_ofString source) failed
  refine ⟨few, before, ?_, place⟩
  rw [← List.singleton_append, ← List.append_assoc]
  exact passes.remaining

end Lexer

/-! ## A whole text -/

/-- The bytes of a text from the first offset up to the last are whole characters, and make up the
given slice. -/
structure Slices (source : String) (first last : Nat) (slice : String) : Prop where
  begins : (⟨first⟩ : String.Pos.Raw).IsValid source
  ends : (⟨last⟩ : String.Pos.Raw).IsValid source
  cut : String.Pos.Raw.extract source ⟨first⟩ ⟨last⟩ = slice

theorem Reader.bytes_eq (text : List Char) :
    Reader.bytes text = (String.ofList text).utf8ByteSize := by
  rw [String.utf8ByteSize_ofList]
  induction text with
  | nil => rfl
  | cons c rest ih => rw [bytes, ih, String.utf8Len, Nat.add_comm]

theorem slices_of_split {source : String} {before text rest : List Char}
    (split : source.toList = before ++ text ++ rest) :
    Slices source (Reader.bytes before) (Reader.bytes (before ++ text)) (String.ofList text) := by
  have whole : source = String.ofList (before ++ text ++ rest) := by
    rw [← split, String.ofList_toList]
  have valid : ∀ {first second : List Char}, source.toList = first ++ second →
      (⟨Reader.bytes first⟩ : String.Pos.Raw).IsValid source := by
    intro first second parts
    apply String.Pos.Raw.isValid_iff_exists_append.mpr
    refine ⟨String.ofList first, String.ofList second, ?_, ?_⟩
    · rw [← String.ofList_append, ← parts, String.ofList_toList]
    · rw [Reader.bytes_eq]
      rfl
  refine ⟨valid (split.trans (List.append_assoc _ _ _)), valid split, ?_⟩
  rw [Reader.bytes_append, Reader.bytes_eq, Reader.bytes_eq, String.utf8ByteSize_ofList,
    String.utf8ByteSize_ofList, whole]
  exact String.extract_of_valid before text rest

/-- What a step yields behind the given text: the token of the piece, or the one character of it
that starts no token, at the place behind the gap. -/
def Piece.Stands (before : List Char) (piece : Piece) : Prop :=
  Gap piece.gap ∧
    match piece.outcome with
    | .ok token => token.kind ≠ .endOfFile ∧ piece.text ≠ []
      ∧ token.text = String.ofList piece.text ∧ token.start.Behind (before ++ piece.gap)
    | .error error => piece.text = [error.character]
      ∧ error.position.Behind (before ++ piece.gap)

theorem Piece.Fits.stands {before : List Char} {piece : Piece}
    (fits : piece.Fits (Position.start.afterAll before))
    (short : (before ++ piece.gap).length < 2 ^ 31 - 1) : piece.Stands before := by
  have behind := Position.behind_afterAll (before ++ piece.gap) short
  rw [Position.afterAll_append] at behind
  obtain ⟨isGap, holds⟩ := fits
  refine ⟨isGap, ?_⟩
  cases outcome : piece.outcome with
  | ok token =>
      rw [outcome] at holds
      obtain ⟨kind, more, text, start⟩ := holds
      exact ⟨kind, more, text, start ▸ behind⟩
  | error error =>
      rw [outcome] at holds
      exact ⟨holds.1, holds.2 ▸ behind⟩

namespace Lexer

/-- The steps of a lexer cut a text into gaps, tokens and unknown characters, without loss or
overlap, up to a rest that holds no token. The end of the text then is the outcome of every further
step. All slices are whole characters between the offsets of the lexer, and all positions count the
lines and the characters before them. -/
theorem steps_tile {source : String} (short : source.toList.length < 2 ^ 31 - 1) :
    ∃ (pieces : List Piece) (rest : List Char) (last : Token),
      source.toList = pieces.flatMap Piece.passed ++ rest ∧ Exhausted rest
        ∧ last.kind = .endOfFile ∧ last.text = "" ∧ last.start.Behind source.toList
        ∧ (∀ count, ((ofString source).afterSteps count).advance.1
          = (pieces[count]?.map Piece.outcome).getD (.ok last))
        ∧ ∀ (count : Nat) (piece : Piece), pieces[count]? = some piece →
          piece.Stands ((pieces.take count).flatMap Piece.passed)
            ∧ Slices source
              (((ofString source).afterSteps count).reader.offset + Reader.bytes piece.gap)
              ((ofString source).afterSteps (count + 1)).reader.offset
              (String.ofList piece.text) := by
  obtain ⟨pieces, rest, last, split, exhausted, rfl, fit, steps, outcomes⟩ :=
    exists_pieces _ (ofString source) rfl (open_ofString source)
  refine ⟨pieces, rest, _, split, exhausted, rfl, rfl, Position.behind_afterAll _ short, outcomes,
    ?_⟩
  intro count piece inside
  let before := (pieces.take count).flatMap Piece.passed
  have bounded : count + 1 ≤ pieces.length := (List.getElem?_eq_some_iff.mp inside).1
  have here := steps count (Nat.le_of_succ_le bounded)
  have next := steps (count + 1) bounded
  have through : (pieces.take (count + 1)).flatMap Piece.passed
      = before ++ piece.gap ++ piece.text := by
    rw [List.take_add_one, inside, List.flatMap_append]
    simp [before, Piece.passed]
  rw [through] at next
  have cut : source.toList = before ++ piece.gap ++ piece.text ++ _ := next.remaining
  constructor
  · apply (fit count piece inside).stands
    have longer := congrArg List.length cut
    show (before ++ piece.gap).length < 2 ^ 31 - 1
    simp only [List.length_append] at longer ⊢
    omega
  · have first : ((ofString source).afterSteps count).reader.offset + Reader.bytes piece.gap
        = Reader.bytes (before ++ piece.gap) := by
      rw [here.offset, Reader.bytes_append]
      exact congrArg (· + _) (Nat.zero_add _)
    have last : ((ofString source).afterSteps (count + 1)).reader.offset
        = Reader.bytes (before ++ piece.gap ++ piece.text) :=
      next.offset.trans (Nat.zero_add _)
    rw [first, last]
    exact slices_of_split cut

theorem steps_tile_unknown : "a b$".toList.length < 2 ^ 31 - 1
    ∧ ∃ (pieces : List Piece) (rest : List Char) (last : Token),
      "a b$".toList = pieces.flatMap Piece.passed ++ rest ∧ Exhausted rest
        ∧ last.start.Behind "a b$".toList
        ∧ ∀ count, ((ofString "a b$").afterSteps count).advance.1
          = (pieces[count]?.map Piece.outcome).getD (.ok last) := by
  have short : "a b$".toList.length < 2 ^ 31 - 1 := by decide
  obtain ⟨pieces, rest, last, split, exhausted, _, _, place, outcomes, _⟩ := steps_tile short
  exact ⟨short, pieces, rest, last, split, exhausted, place, outcomes⟩

end Lexer
end MiniPascal
