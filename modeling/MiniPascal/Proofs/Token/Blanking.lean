import Mathlib.Data.List.Forall2
import MiniPascal.Proofs.Token.Cutting
import MiniPascal.Proofs.Token.Tiling

/-! # Reported characters are blanks

A lexer that fails at a character goes on behind it. If a blank stood in the place of every character
that is reported, the tokens of the text would be the same, at the same positions, and nothing would
be reported. -/
set_option autoImplicit false
namespace MiniPascal

open Reader (Stops)

/-! ## Blanks in the place of characters -/

namespace Lexer

/-- The text behind the character that the step reports, if it reports one. -/
def behindReport (lexer : Lexer) : Option (List Char) :=
  match lexer.advance with
  | (.ok _, _) => none
  | (.error _, after) => some after.reader.remaining

/-- The texts behind the characters that the first steps report. -/
def behindReports (lexer : Lexer) (steps : Nat) : List (List Char) :=
  (List.range steps).filterMap fun step => (lexer.afterSteps step).behindReport

end Lexer

/-- The text with a blank for every character that one of the given texts stands behind. -/
def blankBefore (rests : List (List Char)) : List Char → List Char
  | [] => []
  | c :: text => (if text ∈ rests then ' ' else c) :: blankBefore rests text

/-- What is to come, with a blank for every character that one of the first steps reports. -/
def Lexer.withBlanks (steps : Nat) (lexer : Lexer) : List Char :=
  blankBefore (lexer.behindReports steps) lexer.reader.remaining

/-- The text with a blank for every character that a lexer reports. A step that does not end the
text passes a character, so that there are not more of them than characters. -/
def blanked (source : String) : String :=
  String.ofList ((Lexer.ofString source).withBlanks source.toList.length)

section

variable {text rest : List Char} {rests : List (List Char)}

theorem blankBefore_nil (text : List Char) : blankBefore [] text = text := by
  induction text with
  | nil => rfl
  | cons c text ih => rw [blankBefore, if_neg List.not_mem_nil, ih]

/-- Only what is longer than the given texts changes. -/
theorem blankBefore_append (shorter : ∀ behind ∈ rests, behind.length < rest.length) :
    blankBefore rests (text ++ rest) = text ++ blankBefore rests rest := by
  induction text with
  | nil => rfl
  | cons c text ih =>
      have absent : text ++ rest ∉ rests := by
        intro member
        have := shorter _ member
        rw [List.length_append] at this
        omega
      rw [List.cons_append, blankBefore, if_neg absent, ih, List.cons_append]

theorem blankBefore_cons {behind : List Char} (short : text.length ≤ behind.length) :
    blankBefore (behind :: rests) text = blankBefore rests text := by
  induction text with
  | nil => rfl
  | cons c text ih =>
      rw [List.length_cons] at short
      have other : text ≠ behind := by
        rintro rfl
        omega
      rw [blankBefore, blankBefore, ih (by omega)]
      simp [other]

end

/-! ## What the blanks leave unchanged -/

/-- A blank takes one column, as any character does but a line feed. -/
theorem Position.after_blank {c : Char} (inside : c ≠ '\n') (position : Position) :
    position.after ' ' = position.after c := by
  rw [after, after, if_neg inside, if_neg (by decide)]

/-- The second text is the first one with blanks for some characters, but for no line feed. -/
def Fades (text other : List Char) : Prop :=
  List.Forall₂ (fun c d => d = c ∨ c ≠ '\n' ∧ d = ' ') text other

namespace Fades

variable {text other : List Char}

theorem blankBefore (rests : List (List Char))
    (inside : ∀ before c rest, text = before ++ c :: rest → rest ∈ rests → c ≠ '\n') :
    Fades text (blankBefore rests text) := by
  induction text with
  | nil => exact .nil
  | cons c text ih =>
      refine .cons ?_ (ih fun before d rest same => inside (c :: before) d rest (by rw [same]; rfl))
      split
      · rename_i member
        exact .inr ⟨inside [] c text rfl member, rfl⟩
      · exact .inl rfl

theorem afterAll (fades : Fades text other) (position : Position) :
    position.afterAll other = position.afterAll text := by
  induction fades generalizing position with
  | nil => rfl
  | @cons c d text other same _ ih =>
      have step : position.after d = position.after c := by
        obtain rfl | ⟨inside, rfl⟩ := same
        · rfl
        · exact Position.after_blank inside position
      calc position.afterAll (d :: other) = (position.after d).afterAll other := rfl
        _ = (position.after c).afterAll text := by rw [ih, step]

theorem stops {p : Char → Bool} (fades : Fades text other) (blank : p ' ' = false)
    (stops : Stops p text) : Stops p other := by
  cases fades with
  | nil => exact stops
  | cons same =>
      rintro _ ⟨⟩
      obtain rfl | ⟨_, rfl⟩ := same
      · exact stops _ rfl
      · exact blank

/-- No lexeme goes on at a blank, so it ends in front of both texts or of none. -/
theorem endsAlike (fades : Fades text other) (kind : TokenKind) : EndsAlike kind text other := by
  refine ⟨fades.stops rfl, fades.stops rfl, ?_, ?_⟩
  · intro behind same
    cases fades with
    | nil => cases same
    | cons first =>
        obtain rfl := Option.some.inj same
        obtain rfl | ⟨_, blank⟩ := first
        · exact behind rfl
        · exact absurd blank (by decide)
  · rintro _ whole d behind rfl
    obtain ⟨c, _, dot, more, rfl⟩ := List.forall₂_cons_right_iff.mp fades
    obtain ⟨e, rest, digit, _, rfl⟩ := List.forall₂_cons_right_iff.mp more
    obtain rfl | ⟨_, blank⟩ := dot
    · obtain rfl | ⟨_, rfl⟩ := digit
      · exact whole _ _ rfl
      · decide
    · exact absurd blank (by decide)

end Fades

/-! ## Gaps in a row -/

theorem Gap.append {first second : List Char} (left : Gap first) (right : Gap second) :
    Gap (first ++ second) := by
  induction left with
  | blanks all =>
      cases right with
      | blanks others => exact .blanks (List.forall_mem_append.mpr ⟨all, others⟩)
      | comment others absent isGap =>
          rw [← List.append_assoc]
          exact .comment (List.forall_mem_append.mpr ⟨all, others⟩) absent isGap
  | comment all absent _ ih =>
      rw [List.append_assoc, List.cons_append, List.append_assoc, List.cons_append]
      exact .comment all absent ih

/-- The text from the position on has these tokens and no unknown character. -/
def HasTokens (position : Position) (text : List Char) (tokens : List Token) : Prop :=
  ∃ passed rest, text = passed ++ rest ∧ Reads position passed tokens rest ∧ Exhausted rest

/-- A gap in front of a text adds nothing to its tokens. -/
theorem HasTokens.behind_gap {position : Position} {gap text : List Char} {tokens : List Token}
    (isGap : Gap gap) (hasTokens : HasTokens (position.afterAll gap) text tokens) :
    HasTokens position (gap ++ text) tokens := by
  obtain ⟨passed, rest, rfl, reads, exhausted⟩ := hasTokens
  cases reads with
  | nothing =>
      obtain ⟨first, tail, rfl, second, unclosed⟩ := exhausted
      exact ⟨[], _, rfl, .nothing, gap ++ first, tail, by simp, isGap.append second, unclosed⟩
  | @token _ first lexed passed _ kind tokens second lexeme further =>
      rw [← Position.afterAll_append] at further ⊢
      rw [← List.append_assoc] at further
      exact ⟨gap ++ first ++ lexed ++ passed, rest, by simp,
        .token (isGap.append second) lexeme further, exhausted⟩

theorem HasTokens.behind_lexeme {position : Position} {gap text rest : List Char} {kind : TokenKind}
    {tokens : List Token} (isGap : Gap gap) (lexeme : Lexeme text kind rest)
    (hasTokens : HasTokens (position.afterAll (gap ++ text)) rest tokens) :
    HasTokens position (gap ++ text ++ rest)
      (⟨kind, String.ofList text, position.afterAll gap⟩ :: tokens) := by
  obtain ⟨passed, rest, rfl, reads, exhausted⟩ := hasTokens
  exact ⟨gap ++ text ++ passed, rest, by simp, .token isGap lexeme reads, exhausted⟩

/-! ## Step by step -/

/-- A step that passes something leaves room for fewer steps. -/
theorem Reader.Passes.exists_fewer {start stop : Reader} {text : List Char} {steps : Nat}
    (passes : start.Passes text stop) (more : text ≠ [])
    (enough : start.remaining.length ≤ steps) :
    ∃ fewer, steps = fewer + 1 ∧ stop.remaining.length ≤ fewer := by
  have passed := List.length_pos_iff.mpr more
  rw [passes.remaining, List.length_append] at enough
  exact ⟨steps - 1, by omega, by omega⟩

namespace Lexer

variable {lexer after : Lexer} {error : LexError} {token : Token} {text rest : List Char}
  {steps : Nat}

theorem behindReports_succ (lexer : Lexer) (steps : Nat) : lexer.behindReports (steps + 1)
    = lexer.behindReport.toList ++ lexer.advance.2.behindReports steps := by
  rw [behindReports, List.range_succ_eq_map, List.filterMap_cons, List.filterMap_map, afterSteps]
  cases lexer.behindReport <;> rfl

/-- What a step leaves behind the character that it reports, and where this character stands. -/
theorem exists_of_mem_behindReports (isOpen : lexer.Open)
    (member : rest ∈ lexer.behindReports steps) :
    ∃ before c, lexer.reader.remaining = before ++ c :: rest ∧ c ≠ '\n' := by
  obtain ⟨step, _, left⟩ := List.mem_filterMap.mp member
  rw [behindReport] at left
  split at left
  · cases left
  · rename_i error after failed
    cases left
    obtain ⟨_, before, passes, _⟩ := exists_passes isOpen failed
    obtain ⟨_, blank, _⟩ := advance_failed failed
    refine ⟨before, error.character, by simpa using passes.remaining, ?_⟩
    intro same
    rw [same] at blank
    cases blank

theorem length_of_mem_behindReports (isOpen : lexer.Open)
    (member : rest ∈ lexer.behindReports steps) : rest.length < lexer.reader.remaining.length := by
  obtain ⟨before, c, remaining, _⟩ := exists_of_mem_behindReports isOpen member
  rw [remaining, List.length_append, List.length_cons]
  omega

theorem fades_withBlanks (isOpen : lexer.Open) (steps : Nat) :
    Fades lexer.reader.remaining (lexer.withBlanks steps) := by
  apply Fades.blankBefore
  intro before c rest split member
  obtain ⟨first, d, remaining, other⟩ := exists_of_mem_behindReports isOpen member
  obtain ⟨_, same⟩ := List.append_inj' (split.symm.trans remaining) rfl
  obtain rfl : c = d := (List.cons.inj same).1
  exact other

theorem withBlanks_of_ok (isOpen : after.Open) (advanced : lexer.advance = (.ok token, after))
    (passes : lexer.reader.Passes text after.reader) (steps : Nat) :
    lexer.withBlanks (steps + 1) = text ++ after.withBlanks steps := by
  have rests : lexer.behindReports (steps + 1) = after.behindReports steps := by
    rw [behindReports_succ, behindReport, advanced]
    rfl
  rw [withBlanks, rests, passes.remaining]
  exact blankBefore_append fun _ member => length_of_mem_behindReports isOpen member

theorem withBlanks_of_error (isOpen : after.Open) (advanced : lexer.advance = (.error error, after))
    (passes : lexer.reader.Passes (text ++ [error.character]) after.reader) (steps : Nat) :
    lexer.withBlanks (steps + 1) = text ++ ' ' :: after.withBlanks steps := by
  have rests : lexer.behindReports (steps + 1)
      = after.reader.remaining :: after.behindReports steps := by
    rw [behindReports_succ, behindReport, advanced]
    rfl
  have shorter : ∀ behind ∈ lexer.behindReports (steps + 1),
      behind.length < (error.character :: after.reader.remaining).length := by
    rw [rests]
    refine List.forall_mem_cons.mpr ⟨Nat.lt_succ_self _, fun _ member => ?_⟩
    exact Nat.lt_succ_of_lt (length_of_mem_behindReports isOpen member)
  rw [withBlanks, passes.remaining, List.append_assoc, List.singleton_append,
    blankBefore_append shorter, rests, blankBefore, if_pos List.mem_cons_self,
    blankBefore_cons (Nat.le_refl _), ← withBlanks]

/-- No step of a lexer reports anything where no token is to come. -/
theorem withBlanks_of_exhausted (isOpen : lexer.Open) (exhausted : Exhausted lexer.reader.remaining)
    (steps : Nat) : lexer.withBlanks steps = lexer.reader.remaining := by
  have none : lexer.behindReports steps = [] := by
    obtain ⟨after, last, advanced, current, same⟩ := advance_of_exhausted isOpen exhausted
    have kind : last.kind = .endOfFile := by rw [same]
    refine List.filterMap_eq_nil_iff.mpr fun step _ => ?_
    cases step with
    | zero => rw [afterSteps, behindReport, advanced]
    | succ step =>
        rw [afterSteps, advanced, afterSteps_of_ended current kind, behindReport,
          advance_of_ended current kind]
  rw [withBlanks, none, blankBefore_nil]

end Lexer

/-- Blanks in the place of the characters that are reported leave the tokens of a text. -/
theorem Cuts.hasTokens_withBlanks {position : Position} {passed rest : List Char}
    {outcomes : List (Except LexError Token)} (cuts : Cuts position passed outcomes rest)
    (exhausted : Exhausted rest) : ∀ {lexer : Lexer} {steps : Nat}, lexer.Open →
      lexer.reader.remaining = passed ++ rest → lexer.reader.position = position →
      lexer.reader.remaining.length ≤ steps →
      HasTokens position (lexer.withBlanks steps) (outcomes.filterMap Except.toOption) := by
  induction cuts with
  | nothing =>
      intro lexer steps isOpen remaining _ _
      rw [List.nil_append] at remaining
      rw [Lexer.withBlanks_of_exhausted isOpen (remaining ▸ exhausted), remaining]
      exact ⟨[], _, rfl, .nothing, exhausted⟩
  | @token position gap text passed rest kind outcomes isGap lexeme _ ih =>
      rintro lexer steps isOpen remaining rfl enough
      rw [List.append_assoc] at remaining
      obtain ⟨after, advanced, isOpen', passes, left⟩ :=
        Lexer.advance_of_lexeme isOpen isGap lexeme remaining
      obtain ⟨c, others, rfl, _⟩ := lexeme.exists_cons
      obtain ⟨steps, rfl, fewer⟩ := passes.exists_fewer (by simp) enough
      have hasTokens := ih exhausted isOpen' left passes.position fewer
      have fades := Lexer.fades_withBlanks isOpen' steps
      rw [left] at fades
      rw [Lexer.withBlanks_of_ok isOpen' advanced passes steps]
      exact hasTokens.behind_lexeme isGap (lexeme.of_endsAlike (fades.endsAlike kind))
  | @unknown position gap passed rest c outcomes isGap blank opens unknown _ ih =>
      rintro lexer steps isOpen remaining rfl enough
      rw [List.append_assoc, List.append_assoc, List.singleton_append] at remaining
      obtain ⟨after, advanced, current, passes, left⟩ :=
        Lexer.advance_of_unknown isOpen isGap blank opens unknown remaining
      obtain ⟨steps, rfl, fewer⟩ := passes.exists_fewer (by simp) enough
      have isOpen' := isOpen.of_current current
      have hasTokens := ih exhausted isOpen' left passes.position fewer
      rw [Lexer.withBlanks_of_error isOpen' advanced passes steps, ← List.singleton_append,
        ← List.append_assoc]
      refine HasTokens.behind_gap (isGap.append (.blanks (List.forall_mem_singleton.mpr rfl))) ?_
      have other : c ≠ '\n' := by
        rintro rfl
        cases blank
      rw [Position.afterAll_append] at hasTokens ⊢
      rwa [Position.afterAll, List.foldl_cons, Position.after_blank other]

namespace Lexer

/-- Every character that a lexer reports can be taken for a blank: with blanks in their places
nothing is reported, and the tokens are the same. The reported characters are those in front of what
the failing steps leave, and none of these steps changes the current token. -/
theorem outcomes_blanked (source : String) :
    outcomes (blanked source)
        = ((outcomes source).filterMap Except.toOption).map Except.ok
      ∧ ∀ (steps : Nat) (error : LexError) (after : Lexer),
        ((ofString source).afterSteps steps).advance = (.error error, after) →
          after.current = ((ofString source).afterSteps steps).current
            ∧ after.reader.remaining ∈ (ofString source).behindReports source.toList.length
            ∧ ∃ before, source.toList = before ++ error.character :: after.reader.remaining
              ∧ error.position = Position.start.afterAll before := by
  constructor
  · have isOpen := open_ofString source
    obtain ⟨passed, front, rest, split, cuts, exhausted⟩ := exists_cuts source.toList Position.start
    obtain ⟨text, left, same, reads, ends⟩ :=
      cuts.hasTokens_withBlanks exhausted isOpen split rfl (Nat.le_refl _)
    have fades := fades_withBlanks isOpen source.toList.length
    have whole : (blanked source).toList = text ++ left := by
      rw [blanked, String.toList_ofList]
      exact same
    have place : Position.start.afterAll (blanked source).toList
        = Position.start.afterAll source.toList := by
      rw [blanked, String.toList_ofList]
      exact fades.afterAll Position.start
    rw [outcomes_of_cuts whole reads.cuts ends, outcomes_of_cuts split cuts exhausted, place,
      List.filterMap_append, List.map_append]
    rfl
  · intro steps error after failed
    obtain ⟨few, place⟩ := exists_place failed
    refine ⟨(advance_failed failed).1, ?_, place⟩
    refine List.mem_filterMap.mpr ⟨steps, List.mem_range.mpr few, ?_⟩
    rw [behindReport, failed]

/-- Unknown characters next to a colon, a dot and an integer, two of them in a row. -/
theorem outcomes_blanked_strays :
    blanked "a:$=7.#0" = "a:  7. 0"
      ∧ outcomes "a:  7. 0" = ((outcomes "a:$=7.#0").filterMap Except.toOption).map Except.ok
      ∧ ((ofString "a:$=7.#0").afterSteps 3).advance.1 = .error ⟨⟨1, 4⟩, '='⟩
      ∧ ((ofString "a:$=7.#0").afterSteps 4).current = some ⟨.colon, ":", ⟨1, 2⟩⟩ := by
  have same : blanked "a:$=7.#0" = "a:  7. 0" := by decide +kernel
  have failed : ((ofString "a:$=7.#0").afterSteps 3).advance.1 = .error ⟨⟨1, 4⟩, '='⟩ := by
    decide +kernel
  have current : ((ofString "a:$=7.#0").afterSteps 3).current = some ⟨.colon, ":", ⟨1, 2⟩⟩ := by
    decide +kernel
  obtain ⟨outcomes, contained⟩ := outcomes_blanked "a:$=7.#0"
  rw [same] at outcomes
  obtain ⟨kept, _⟩ := contained 3 _ _ (Prod.ext failed rfl)
  exact ⟨same, outcomes, failed, kept.trans current⟩

end Lexer
end MiniPascal
