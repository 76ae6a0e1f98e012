import MiniPascal.Proofs.Token.Reading

/-! # Longer texts

What a lexeme is depends on the text behind it only so far as the lexeme might go on there. So a
text can be changed behind a place without any change of the tokens in front: behind a blank that
is added at its end, and behind a symbol whatever comes after it. -/
set_option autoImplicit false
namespace MiniPascal

open Reader (Stops)

/-! ## What may stand behind a lexeme -/

/-- A lexeme of the kind that ends in front of the first text ends in front of the second too. -/
structure EndsAlike (kind : TokenKind) (rest other : List Char) : Prop where
  digits : Stops Alphabet.isDigit rest → Stops Alphabet.isDigit other
  words : Stops Alphabet.isWordChar rest → Stops Alphabet.isWordChar other
  equals : rest.head? ≠ some '=' → other.head? ≠ some '='
  fraction : kind = .integerConst → NoFraction rest → NoFraction other

theorem Lexeme.of_endsAlike {text rest other : List Char} {kind : TokenKind}
    (lexeme : Lexeme text kind rest) (alike : EndsAlike kind rest other) :
    Lexeme text kind other := by
  cases lexeme with
  | symbol found => exact .symbol found
  | assign => exact .assign
  | colon behind => exact .colon (alike.equals behind)
  | integer more digits ends whole =>
      exact .integer more digits (alike.digits ends) (alike.fraction rfl whole)
  | real more digits others fractions ends =>
      exact .real more digits others fractions (alike.digits ends)
  | word letter all ends => exact .word letter all (alike.words ends)

/-- Behind a symbol any text may stand, but no digit behind a dot that follows an integer. -/
theorem EndsAlike.symbol {kind : TokenKind} {before : List Char} {c : Char}
    (free : before ≠ [] ∨ c ≠ '.' ∨ kind ≠ .integerConst) (rest other : List Char) :
    EndsAlike kind (before ++ c :: rest) (before ++ c :: other) := by
  have head : (before ++ c :: other).head? = (before ++ c :: rest).head? := by
    cases before <;> rfl
  have stops : ∀ {p : Char → Bool}, Stops p (before ++ c :: rest) →
      Stops p (before ++ c :: other) := fun stops d found => stops d (head ▸ found)
  refine ⟨stops, stops, fun behind => head ▸ behind, ?_⟩
  intro integer whole d behind same
  match before with
  | [] =>
      injection same with first
      rcases free with more | dot | kind
      · exact absurd rfl more
      · exact absurd first dot
      · exact absurd integer kind
  | [first] =>
      injection same with first same
      injection same with second
      subst first second
      exact whole _ _ rfl
  | first :: second :: before =>
      injection same with first same
      injection same with second
      subst first second
      exact whole _ _ rfl

/-- At the end of a text a blank and anything behind it may be added. -/
theorem EndsAlike.blank (kind : TokenKind) (rest other : List Char) :
    EndsAlike kind rest (rest ++ ' ' :: other) := by
  have stops : ∀ {p : Char → Bool}, p ' ' = false → Stops p rest →
      Stops p (rest ++ ' ' :: other) := by
    intro p blank stops c found
    cases rest with
    | nil =>
        obtain rfl : ' ' = c := Option.some.inj found
        exact blank
    | cons d rest => exact stops c found
  refine ⟨stops rfl, stops rfl, fun behind => ?_, fun _ whole d behind same => ?_⟩
  · cases rest with
    | nil => exact fun same => absurd (Option.some.inj same) (by decide)
    | cons d rest => exact behind
  · match rest with
    | [] =>
        injection same with first
        exact absurd first (by decide)
    | [c] =>
        injection same with _ same
        injection same with second
        subst second
        rfl
    | c :: e :: rest =>
        injection same with first same
        injection same with second
        subst first second
        exact whole _ _ rfl

theorem TokenKind.eq_of_ofSymbol? {c d : Char} {kind : TokenKind}
    (first : ofSymbol? c = some kind) (second : ofSymbol? d = some kind) : c = d := by
  unfold ofSymbol? at first second
  split at first <;> cases first <;> split at second <;> first | rfl | cases second

/-- The kind of a symbol is the kind of no other lexeme. -/
theorem Lexeme.eq_symbol {text rest : List Char} {kind : TokenKind} {c : Char}
    (lexeme : Lexeme text kind rest) (symbol : TokenKind.ofSymbol? c = some kind) :
    text = [c] := by
  obtain ⟨assign, colon, integer, real, identifier, _, reserved⟩ := TokenKind.of_ofSymbol? symbol
  cases lexeme with
  | symbol found => rw [TokenKind.eq_of_ofSymbol? found symbol]
  | assign => exact absurd rfl assign
  | colon => exact absurd rfl colon
  | integer => exact absurd rfl integer
  | real => exact absurd rfl real
  | word => exact absurd ((TokenKind.ofWord_cases _).resolve_left identifier) (reserved _)

/-- Tokens down to a symbol are read from their text whatever stands behind the symbol, but for a
dot behind an integer. -/
theorem Reads.of_symbol {position : Position} {passed rest : List Char} {front : List Token}
    {last : Token} {c : Char} (reads : Reads position passed (front ++ [last]) rest)
    (symbol : TokenKind.ofSymbol? c = some last.kind)
    (free : c ≠ '.' ∨ ∀ before token, front = before ++ [token] → token.kind ≠ .integerConst)
    (other : List Char) : Reads position passed (front ++ [last]) other
      ∧ ∃ before, passed = before ++ [c] ∧ (front ≠ [] → before ≠ []) := by
  -- Every lexeme in front ends before a text that changes only behind the symbol.
  induction front generalizing position passed with
  | nil =>
      cases reads with
      | token isGap lexeme further =>
          cases further with
          | nothing =>
              obtain rfl := lexeme.eq_symbol symbol
              exact ⟨.token isGap (.symbol symbol) .nothing, _, List.append_nil _, nofun⟩
  | cons token front ih =>
      cases reads with
      | @token _ gap text _ _ kind _ isGap lexeme further =>
          obtain ⟨reads, before, rfl, more⟩ := ih further
            (free.imp_right fun all before word same => all (_ :: before) word (by rw [same]; rfl))
          have apart : before ≠ [] ∨ c ≠ '.' ∨ kind ≠ .integerConst := by
            cases front with
            | cons => exact .inl (more (List.cons_ne_nil _ _))
            | nil => exact .inr (free.imp_right fun all => all [] _ rfl)
          rw [List.append_assoc, List.singleton_append] at lexeme
          have again := lexeme.of_endsAlike (.symbol apart rest other)
          obtain ⟨d, others, same, _⟩ := lexeme.exists_cons
          refine ⟨.token isGap ?_ reads, gap ++ text ++ before, (List.append_assoc _ _ _).symm, ?_⟩
          · rwa [List.append_assoc, List.singleton_append]
          · simp [same]

/-! ## Cutting a whole text -/

/-- Every text is cut into outcomes up to a rest without tokens. -/
theorem exists_cuts : ∀ (text : List Char) (position : Position), ∃ passed outcomes rest,
    text = passed ++ rest ∧ Cuts position passed outcomes rest ∧ Exhausted rest := by
  intro text
  induction length : text.length using Nat.strongRecOn generalizing text with
  | ind size ih =>
      intro position
      obtain ⟨gap, tail, rfl, isGap, unclosed | ⟨c, rest, rfl, blank, opens⟩⟩ := exists_gap text
      · exact ⟨[], [], gap ++ tail, rfl, .nothing, gap, tail, rfl, isGap, unclosed⟩
      · rcases exists_lexeme c rest with unknown | ⟨others, kind, last, rfl, lexeme⟩
        · have shorter : rest.length < size := by
            simp only [List.length_append, List.length_cons] at length
            omega
          obtain ⟨passed, outcomes, behind, rfl, cuts, ends⟩ := ih _ shorter rest rfl
            (position.afterAll (gap ++ [c]))
          exact ⟨gap ++ [c] ++ passed, _, behind, by simp,
            .unknown isGap blank opens unknown cuts, ends⟩
        · have shorter : last.length < size := by
            simp only [List.length_append, List.length_cons] at length
            omega
          obtain ⟨passed, outcomes, behind, rfl, cuts, ends⟩ := ih _ shorter last rfl
            (position.afterAll (gap ++ c :: others))
          exact ⟨gap ++ (c :: others) ++ passed, _, behind, by simp, .token isGap lexeme cuts,
            ends⟩

namespace Cuts

variable {position : Position} {passed rest : List Char}
  {outcomes : List (Except LexError Token)}

theorem kind_ne (cuts : Cuts position passed outcomes rest) :
    ∀ token, .ok token ∈ outcomes → token.kind ≠ .endOfFile := by
  induction cuts with
  | nothing => exact fun _ member => absurd member List.not_mem_nil
  | token _ lexeme _ ih =>
      intro token member
      rcases List.mem_cons.mp member with same | further
      · injection same with same
        subst same
        exact lexeme.kind_ne
      · exact ih token further
  | unknown _ _ _ _ _ ih =>
      intro token member
      rcases List.mem_cons.mp member with same | further
      · cases same
      · exact ih token further

/-- A text that goes on behind a blank is cut in the same way. -/
theorem append_blank (cuts : Cuts position passed outcomes rest) (other : List Char) :
    Cuts position passed outcomes (rest ++ ' ' :: other) := by
  induction cuts with
  | nothing => exact .nothing
  | token isGap lexeme _ ih =>
      refine .token isGap ?_ ih
      rw [← List.append_assoc]
      exact lexeme.of_endsAlike (.blank _ _ other)
  | unknown isGap blank opens unknown _ ih => exact .unknown isGap blank opens unknown ih

end Cuts

namespace Lexer

theorem outcomesWithin_ne_nil (bound : List Char) (lexer : Lexer) :
    outcomesWithin bound lexer ≠ [] := by
  cases bound with
  | nil => exact List.cons_ne_nil _ _
  | cons c bound =>
      rw [outcomesWithin]
      rcases lexer.advance with ⟨outcome, after⟩
      cases outcome with
      | ok token => simp only; split <;> exact List.cons_ne_nil _ _
      | error error => exact List.cons_ne_nil _ _

/-- The tokens of a part of a text are followed by at least one more outcome. -/
theorem exists_more {source : String} {passed rest : List Char}
    {outcomes : List (Except LexError Token)} (split : source.toList = passed ++ rest)
    (cuts : Cuts Position.start passed outcomes rest) :
    ∃ more, more ≠ [] ∧ Lexer.outcomes source = outcomes ++ more := by
  obtain ⟨after, left, _, _, _, _, same⟩ :=
    outcomesWithin_of_cuts cuts (open_ofString source) split rfl (Nat.le_refl _)
  exact ⟨_, outcomesWithin_ne_nil left after, same⟩

/-- What a text is cut into are the outcomes of the lexer up to the last one, which is its end. -/
theorem outcomes_of_cuts {source : String} {passed rest : List Char}
    {front : List (Except LexError Token)} (split : source.toList = passed ++ rest)
    (cuts : Cuts Position.start passed front rest) (exhausted : Exhausted rest) :
    outcomes source = front ++ [.ok ⟨.endOfFile, "", Position.start.afterAll source.toList⟩] := by
  obtain ⟨after, left, isOpen, remaining, place, _, same⟩ :=
    outcomesWithin_of_cuts cuts (open_ofString source) split rfl (Nat.le_refl _)
  rw [outcomesWithin_of_exhausted isOpen (remaining ▸ exhausted), place, remaining,
    ← Position.afterAll_append, ← split] at same
  exact same

theorem exists_outcomes_cut (source : String) : ∃ passed front rest,
    source.toList = passed ++ rest ∧ Cuts Position.start passed front rest
      ∧ outcomes source
        = front ++ [.ok ⟨.endOfFile, "", Position.start.afterAll source.toList⟩] := by
  obtain ⟨passed, front, rest, split, cuts, exhausted⟩ := exists_cuts source.toList Position.start
  exact ⟨passed, front, rest, split, cuts, outcomes_of_cuts split cuts exhausted⟩

/-- The outcomes of a text end with the end of file, and in its place others may come if the text
goes on behind a blank. -/
theorem exists_front (source text : String) : ∃ front last more,
    outcomes source = front ++ [.ok last] ∧ last.kind = .endOfFile
      ∧ (∀ token, .ok token ∈ front → token.kind ≠ .endOfFile)
      ∧ more ≠ [] ∧ outcomes (source ++ " " ++ text) = front ++ more := by
  obtain ⟨passed, front, rest, split, cuts, same⟩ := exists_outcomes_cut source
  have longer : (source ++ " " ++ text).toList = passed ++ (rest ++ ' ' :: text.toList) := by
    simp [split]
  obtain ⟨more, nonempty, outcomes⟩ := exists_more longer (cuts.append_blank text.toList)
  exact ⟨front, _, more, same, rfl, cuts.kind_ne, nonempty, outcomes⟩

end Lexer
end MiniPascal
