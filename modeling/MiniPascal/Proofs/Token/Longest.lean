import MiniPascal.Proofs.Token.Places

/-! # The longest lexeme

What a lexeme is can be said of a text alone: a word, digits with or without a fraction, or a symbol.
Behind blanks and comments a step of the lexer takes the longest lexeme that the remaining text
begins with. If no lexeme begins there, the step fails at the first character and takes no other. -/
set_option autoImplicit false
namespace MiniPascal

open Reader (Stops)

/-! ## Gaps and lexemes of a text alone -/

/-- What is left of a text behind its blanks and comments. Whether the text begins inside of a
comment is given. -/
def skipGap : Bool → List Char → List Char
  | _, [] => []
  | true, c :: rest => skipGap (c != '\x7d') rest
  | false, c :: rest =>
    if c = '\x7b' then skipGap true rest
    else if Alphabet.isBlank c then skipGap false rest
    else c :: rest

/-- A letter or an underscore, and then letters, digits and underscores. -/
def IsWord (text : List Char) : Prop :=
  ∃ first others, text = first :: others ∧ Alphabet.isLetter first = true
    ∧ ∀ c ∈ others, Alphabet.isWordChar c = true

/-- At least one digit, and nothing else. -/
def IsDigits (text : List Char) : Prop :=
  text ≠ [] ∧ ∀ c ∈ text, Alphabet.isDigit c = true

/-- The lexemes, whatever stands behind them. -/
inductive IsLexeme : List Char → Prop where
  | word {text : List Char} : IsWord text → IsLexeme text
  | integer {digits : List Char} : IsDigits digits → IsLexeme digits
  | real {whole fraction : List Char} : IsDigits whole → IsDigits fraction →
    IsLexeme (whole ++ '.' :: fraction)
  | assign : IsLexeme [':', '=']
  | symbol {c : Char} : c ∈ ['(', ')', '.', ',', ';', ':', '+', '-', '*', '/'] → IsLexeme [c]

/-- The longest lexeme that a text begins with. -/
structure Longest (lexeme text : List Char) : Prop where
  isLexeme : IsLexeme lexeme
  begins : lexeme <+: text
  longest : ∀ other, IsLexeme other → other <+: text → other.length ≤ lexeme.length

/-- The kind says of a lexeme that it is an integer or a real number, which reserved word it is, or
that it is another word. -/
structure TokenKind.Tells (kind : TokenKind) (text : List Char) : Prop where
  integer : kind = .integerConst ↔ IsDigits text
  real : kind = .realConst ↔ ∃ before d e behind, text = before ++ d :: '.' :: e :: behind
    ∧ Alphabet.isDigit d = true ∧ Alphabet.isDigit e = true
  reserved : ∀ word other, (word, other) ∈ reservedWords →
    (kind = other ↔ String.ofList text = word)
  identifier : kind = .identifier
    ↔ IsWord text ∧ ∀ word other, (word, other) ∈ reservedWords → String.ofList text ≠ word

/-! ## Gaps are skipped -/

section

variable {text : List Char}

theorem skipGap_of_blanks {blanks : List Char} (all : ∀ c ∈ blanks, Alphabet.isBlank c = true) :
    skipGap false (blanks ++ text) = skipGap false text := by
  induction blanks with
  | nil => rfl
  | cons c blanks ih =>
      obtain ⟨blank, others⟩ := List.forall_mem_cons.mp all
      have other : c ≠ '\x7b' := by
        rintro rfl
        exact absurd blank (by decide)
      rw [List.cons_append, skipGap, if_neg other, if_pos blank, ih others]

theorem skipGap_of_inside {inside : List Char} (absent : '\x7d' ∉ inside) :
    skipGap true (inside ++ text) = skipGap true text := by
  induction inside with
  | nil => rfl
  | cons c inside ih =>
      rw [List.mem_cons, not_or] at absent
      have goesOn : (c != '\x7d') = true := bne_iff_ne.mpr (Ne.symm absent.1)
      rw [List.cons_append, skipGap, goesOn, ih absent.2]

theorem skipGap_of_gap {gap : List Char} (isGap : Gap gap) :
    skipGap false (gap ++ text) = skipGap false text := by
  induction isGap with
  | blanks all => exact skipGap_of_blanks all
  | comment all absent _ ih =>
      rw [List.append_assoc, skipGap_of_blanks all, List.cons_append, skipGap, if_pos rfl,
        List.append_assoc, skipGap_of_inside absent, List.cons_append, skipGap]
      exact ih

theorem skipGap_of_exhausted (exhausted : Exhausted text) : skipGap false text = [] := by
  obtain ⟨gap, tail, rfl, isGap, unclosed⟩ := exhausted
  rw [skipGap_of_gap isGap]
  cases unclosed with
  | nothing => rfl
  | @comment inside absent =>
      rw [skipGap, if_pos rfl, ← List.append_nil inside, skipGap_of_inside absent]
      rfl

end

/-! ## Runs of characters -/

section

variable {p : Char → Bool} {run tail text rest : List Char}

/-- A run of characters with a property ends where they end. -/
theorem run_length_le (same : run ++ tail = text ++ rest) (all : ∀ c ∈ run, p c = true)
    (ends : Stops p rest) : run.length ≤ text.length := by
  induction text generalizing run with
  | nil =>
      cases run with
      | nil => exact Nat.le_refl _
      | cons c run =>
          have first : c ∈ rest.head? := by rw [← List.nil_append rest, ← same]; rfl
          have other := ends c first
          rw [all c List.mem_cons_self] at other
          cases other
  | cons c text ih =>
      cases run with
      | nil => exact Nat.zero_le _
      | cons d run =>
          obtain ⟨_, same⟩ := List.cons.inj same
          exact Nat.succ_le_succ (ih same (List.forall_mem_cons.mp all).2)

/-- Two runs of one text that cannot go on are the same. -/
theorem run_unique (same : run ++ tail = text ++ rest) (all : ∀ c ∈ run, p c = true)
    (stops : Stops p tail) (others : ∀ c ∈ text, p c = true) (ends : Stops p rest) :
    run = text ∧ tail = rest :=
  List.append_inj same
    (Nat.le_antisymm (run_length_le same all ends) (run_length_le same.symm others stops))

end

theorem stops_dot (text : List Char) : Stops Alphabet.isDigit ('.' :: text) := by
  intro c first
  obtain rfl := Option.some.inj first
  decide

theorem IsDigits.exists_cons {text : List Char} (isDigits : IsDigits text) :
    ∃ c others, text = c :: others ∧ Alphabet.isDigit c = true := by
  obtain ⟨more, all⟩ := isDigits
  cases text with
  | nil => exact absurd rfl more
  | cons c others => exact ⟨c, others, rfl, all c List.mem_cons_self⟩

/-! ## Lexemes by their first character -/

namespace Lexeme

variable {c : Char} {text others rest : List Char} {kind : TokenKind}

theorem word_of_letter (lexeme : Lexeme (c :: others) kind rest)
    (letter : Alphabet.isLetter c = true) :
    (∀ d ∈ others, Alphabet.isWordChar d = true) ∧ Stops Alphabet.isWordChar rest
      ∧ kind = TokenKind.ofWord (String.ofList (c :: others)) := by
  have digit := Alphabet.isDigit_of_isLetter letter
  generalize whole : c :: others = text at lexeme
  cases lexeme with
  | symbol symbol =>
      obtain ⟨rfl, -⟩ := List.cons.inj whole
      have other := (Alphabet.isBlank_of_isWordChar (Alphabet.isWordChar_of_isLetter letter)).2.2.2
      rw [other] at symbol
      cases symbol
  | assign =>
      obtain ⟨rfl, -⟩ := List.cons.inj whole
      exact absurd letter (by decide)
  | colon =>
      obtain ⟨rfl, -⟩ := List.cons.inj whole
      exact absurd letter (by decide)
  | integer more digits =>
      subst whole
      rw [digits c List.mem_cons_self] at digit
      cases digit
  | @real integral fraction _ more digits =>
      cases integral with
      | nil => exact absurd rfl more
      | cons d integral =>
          obtain ⟨rfl, -⟩ := List.cons.inj whole
          rw [digits c List.mem_cons_self] at digit
          cases digit
  | word first all stops =>
      obtain ⟨rfl, rfl⟩ := List.cons.inj whole
      exact ⟨all, stops, rfl⟩

theorem number_of_digit (lexeme : Lexeme (c :: others) kind rest)
    (digit : Alphabet.isDigit c = true) : Stops Alphabet.isDigit rest
      ∧ (kind = .integerConst ∧ IsDigits (c :: others) ∧ NoFraction rest
        ∨ kind = .realConst ∧ ∃ whole fraction, c :: others = whole ++ '.' :: fraction
          ∧ IsDigits whole ∧ IsDigits fraction) := by
  generalize whole : c :: others = text at lexeme
  cases lexeme with
  | symbol symbol =>
      obtain ⟨rfl, -⟩ := List.cons.inj whole
      have other := (Alphabet.isBlank_of_isWordChar (Alphabet.isWordChar_of_isDigit digit)).2.2.2
      rw [other] at symbol
      cases symbol
  | assign =>
      obtain ⟨rfl, -⟩ := List.cons.inj whole
      exact absurd digit (by decide)
  | colon =>
      obtain ⟨rfl, -⟩ := List.cons.inj whole
      exact absurd digit (by decide)
  | integer more digits ends stops => exact ⟨ends, .inl ⟨rfl, ⟨more, digits⟩, stops⟩⟩
  | real more digits further fractions ends =>
      exact ⟨ends, .inr ⟨rfl, _, _, rfl, ⟨more, digits⟩, further, fractions⟩⟩
  | word first =>
      obtain ⟨rfl, -⟩ := List.cons.inj whole
      rw [Alphabet.isDigit_of_isLetter first] at digit
      cases digit

theorem of_colon (lexeme : Lexeme (':' :: others) kind rest) :
    others = ['='] ∨ others = [] ∧ rest.head? ≠ some '=' := by
  generalize whole : ':' :: others = text at lexeme
  cases lexeme with
  | symbol symbol =>
      obtain ⟨rfl, -⟩ := List.cons.inj whole
      cases symbol
  | assign => exact .inl (List.cons.inj whole).2
  | colon behind => exact .inr ⟨(List.cons.inj whole).2, behind⟩
  | integer more digits =>
      subst whole
      exact absurd (digits ':' List.mem_cons_self) (by decide)
  | @real integral fraction _ more digits =>
      cases integral with
      | nil => exact absurd rfl more
      | cons d integral =>
          obtain ⟨rfl, -⟩ := List.cons.inj whole
          exact absurd (digits ':' List.mem_cons_self) (by decide)
  | word first =>
      obtain ⟨rfl, -⟩ := List.cons.inj whole
      exact absurd first (by decide)

/-! ## The lexeme that is taken is the longest -/

theorem isLexeme (lexeme : Lexeme text kind rest) : IsLexeme text := by
  cases lexeme with
  | @symbol c _ _ symbol =>
      refine .symbol ?_
      unfold TokenKind.ofSymbol? at symbol
      split at symbol <;> simp at symbol ⊢
  | assign => exact .assign
  | colon => exact .symbol (by decide)
  | integer more digits => exact .integer ⟨more, digits⟩
  | real more digits further fractions => exact .real ⟨more, digits⟩ ⟨further, fractions⟩
  | word letter all => exact .word ⟨_, _, rfl, letter, all⟩

/-- No other lexeme that begins here goes on behind the one that is taken. -/
theorem length_le (lexeme : Lexeme text kind rest) {other : List Char} (isLexeme : IsLexeme other)
    (begins : other <+: text ++ rest) : other.length ≤ text.length := by
  obtain ⟨c, others, rfl, _⟩ := lexeme.exists_cons
  obtain ⟨tail, same⟩ := begins
  cases isLexeme with
  | symbol => simp
  | assign =>
      obtain ⟨rfl, further⟩ := List.cons.inj same
      rcases lexeme.of_colon with rfl | ⟨rfl, behind⟩
      · exact Nat.le_refl _
      · have equals : rest.head? = some '=' := congrArg List.head? further.symm
        exact absurd equals behind
  | word isWord =>
      obtain ⟨first, more, rfl, letter, all⟩ := isWord
      obtain ⟨rfl, further⟩ := List.cons.inj same
      exact Nat.succ_le_succ (run_length_le further all (lexeme.word_of_letter letter).2.1)
  | integer isDigits =>
      obtain ⟨d, more, rfl, digit⟩ := isDigits.exists_cons
      obtain ⟨rfl, -⟩ := List.cons.inj same
      obtain ⟨ends, ⟨_, _, _⟩ | ⟨_, whole, fraction, split, _, _⟩⟩ := lexeme.number_of_digit digit
      · exact run_length_le same isDigits.2 ends
      · rw [split, List.append_assoc] at same
        have short := run_length_le same isDigits.2 (stops_dot _)
        rw [split, List.length_append]
        omega
  | @real integral fractional isWhole isFraction =>
      obtain ⟨d, more, rfl, digit⟩ := isWhole.exists_cons
      obtain ⟨rfl, -⟩ := List.cons.inj same
      rw [List.append_assoc] at same
      obtain ⟨ends, ⟨_, digits, whole⟩ | ⟨_, whole, fraction, split, digits, _⟩⟩ :=
        lexeme.number_of_digit digit
      · -- a digit behind the dot would have been taken too
        obtain ⟨-, behind⟩ := run_unique same isWhole.2 (stops_dot _) digits.2 ends
        obtain ⟨e, further, rfl, second⟩ := isFraction.exists_cons
        have none := whole e (further ++ tail) behind.symm
        rw [second] at none
        cases none
      · rw [split, List.append_assoc] at same
        obtain ⟨rfl, behind⟩ := run_unique same isWhole.2 (stops_dot _) digits.2 (stops_dot _)
        have short := run_length_le (List.cons.inj behind).2 isFraction.2 ends
        rw [split]
        simpa using short

theorem longest (lexeme : Lexeme text kind rest) : Longest text (text ++ rest) :=
  ⟨lexeme.isLexeme, List.prefix_append _ _, fun _ isLexeme => lexeme.length_le isLexeme⟩

end Lexeme

/-- No lexeme is empty or begins with an unknown character. -/
theorem IsLexeme.exists_cons {text : List Char} (isLexeme : IsLexeme text) :
    ∃ c others, text = c :: others ∧ ¬ Unknown c := by
  have known : ∀ {c : Char}, Alphabet.isDigit c = true → ¬ Unknown c := by
    rintro c digit ⟨_, _, other, _⟩
    rw [digit] at other
    cases other
  cases isLexeme with
  | word isWord =>
      obtain ⟨first, others, rfl, letter, _⟩ := isWord
      refine ⟨first, others, rfl, ?_⟩
      rintro ⟨_, _, _, other⟩
      rw [letter] at other
      cases other
  | integer isDigits =>
      obtain ⟨c, others, rfl, digit⟩ := isDigits.exists_cons
      exact ⟨c, others, rfl, known digit⟩
  | real isWhole =>
      obtain ⟨c, others, rfl, digit⟩ := isWhole.exists_cons
      exact ⟨c, _, rfl, known digit⟩
  | assign => exact ⟨':', _, rfl, fun unknown => unknown.2.1 rfl⟩
  | @symbol c member =>
      refine ⟨c, [], rfl, ?_⟩
      rintro ⟨none, colon, _⟩
      simp only [List.mem_cons, List.not_mem_nil, or_false] at member
      rcases member with rfl | rfl | rfl | rfl | rfl | rfl | rfl | rfl | rfl | rfl <;>
        first | exact colon rfl | cases none

/-! ## Kinds -/

namespace Lexeme

variable {text rest : List Char} {kind : TokenKind}

theorem integer_iff (lexeme : Lexeme text kind rest) : kind = .integerConst ↔ IsDigits text := by
  constructor
  · intro same
    cases lexeme with
    | symbol symbol => exact absurd same (TokenKind.of_ofSymbol? symbol).2.2.1
    | assign => cases same
    | colon => cases same
    | integer more digits => exact ⟨more, digits⟩
    | real => cases same
    | word => exact absurd same (TokenKind.ofWord_ne _).1
  · intro isDigits
    obtain ⟨c, others, rfl, digit⟩ := isDigits.exists_cons
    obtain ⟨_, ⟨same, _⟩ | ⟨_, whole, fraction, split, _⟩⟩ := lexeme.number_of_digit digit
    · exact same
    · exact absurd (isDigits.2 '.' (by simp [split])) (by decide)

theorem real_iff (lexeme : Lexeme text kind rest) : kind = .realConst
    ↔ ∃ before d e behind, text = before ++ d :: '.' :: e :: behind
      ∧ Alphabet.isDigit d = true ∧ Alphabet.isDigit e = true := by
  constructor
  · intro same
    cases lexeme with
    | symbol symbol => exact absurd same (TokenKind.of_ofSymbol? symbol).2.2.2.1
    | assign => cases same
    | colon => cases same
    | integer => cases same
    | @real whole fraction _ more digits further fractions =>
        obtain ⟨e, behind, rfl, second⟩ := IsDigits.exists_cons ⟨further, fractions⟩
        obtain rfl | ⟨before, d, rfl⟩ := List.eq_nil_or_concat whole
        · exact absurd rfl more
        · exact ⟨before, d, e, behind, by simp, digits d (by simp), second⟩
    | word => exact absurd same (TokenKind.ofWord_ne _).2.1
  · rintro ⟨before, d, e, behind, rfl, first, second⟩
    generalize split : before ++ d :: '.' :: e :: behind = text at lexeme
    have dot : '.' ∈ text := by simp [← split]
    have long : 3 ≤ text.length := by
      rw [← split, List.length_append]
      simp
      omega
    cases lexeme with
    | symbol => simp at long
    | assign => simp at long
    | colon => simp at long
    | integer _ digits => exact absurd (digits '.' dot) (by decide)
    | real => rfl
    | word letter all =>
        rcases List.mem_cons.mp dot with rfl | dot
        · exact absurd letter (by decide)
        · exact absurd (all '.' dot) (by decide)

theorem reserved_iff (lexeme : Lexeme text kind rest) {word : String} {other : TokenKind}
    (reserved : (word, other) ∈ TokenKind.reservedWords) :
    kind = other ↔ String.ofList text = word := by
  have listed : ∀ entry ∈ TokenKind.reservedWords, entry.2.spelling? = some entry.1
      ∧ TokenKind.ofWord entry.1 = entry.2
      ∧ entry.1.toList.head?.any Alphabet.isLetter = true := by decide
  obtain ⟨spelling, same, first⟩ := listed _ reserved
  constructor
  · rintro rfl
    exact lexeme.eq_of_spelling spelling
  · rintro rfl
    obtain ⟨c, others, rfl, _⟩ := lexeme.exists_cons
    rw [String.toList_ofList] at first
    exact (lexeme.word_of_letter first).2.2.trans same

theorem identifier_iff (lexeme : Lexeme text kind rest) : kind = .identifier
    ↔ IsWord text ∧ ∀ word other, (word, other) ∈ TokenKind.reservedWords →
      String.ofList text ≠ word := by
  constructor
  · intro same
    refine ⟨?_, fun word other reserved written => ?_⟩
    · cases lexeme with
      | symbol symbol => exact absurd same (TokenKind.of_ofSymbol? symbol).2.2.2.2.1
      | assign => cases same
      | colon => cases same
      | integer => cases same
      | real => cases same
      | word letter all => exact ⟨_, _, rfl, letter, all⟩
    · have none : ∀ entry ∈ TokenKind.reservedWords, entry.2 ≠ .identifier := by decide
      exact none _ reserved (((lexeme.reserved_iff reserved).mpr written).symm.trans same)
  · rintro ⟨⟨first, others, rfl, letter, _⟩, free⟩
    rw [(lexeme.word_of_letter letter).2.2]
    exact (TokenKind.ofWord_cases _).resolve_right fun reserved => free _ _ reserved rfl

theorem tells (lexeme : Lexeme text kind rest) : kind.Tells text :=
  ⟨lexeme.integer_iff, lexeme.real_iff, fun _ _ => lexeme.reserved_iff, lexeme.identifier_iff⟩

end Lexeme

/-! ## Steps of a lexer -/

namespace Lexer

/-- A step takes what comes behind the blanks and comments: the end of the text if nothing does,
the longest lexeme if one begins there, and otherwise it fails at the first character and takes
that one alone. -/
theorem advance_munches {lexer : Lexer} (isOpen : lexer.Open) :
    let text := skipGap false lexer.reader.remaining
    (text = [] → ∃ last, lexer.advance.1 = .ok last ∧ last.kind = .endOfFile)
      ∧ ((∃ lexeme, lexeme <+: text ∧ IsLexeme lexeme) → ∃ token, lexer.advance.1 = .ok token
        ∧ Longest token.text.toList text ∧ token.kind.Tells token.text.toList
        ∧ text = token.text.toList ++ lexer.advance.2.reader.remaining)
      ∧ (text ≠ [] → (¬ ∃ lexeme, lexeme <+: text ∧ IsLexeme lexeme) →
        ∃ error, lexer.advance.1 = .error error
          ∧ text = error.character :: lexer.advance.2.reader.remaining) := by
  intro text
  obtain ⟨gap, tail, split, isGap, unclosed | ⟨c, rest, rfl, blank, opens⟩⟩ :=
    exists_gap lexer.reader.remaining
  · have exhausted : Exhausted lexer.reader.remaining := ⟨gap, tail, split, isGap, unclosed⟩
    obtain ⟨after, last, advanced, _, same⟩ := advance_of_exhausted isOpen exhausted
    have none : text = [] := skipGap_of_exhausted exhausted
    refine ⟨fun _ => ⟨last, by rw [advanced], by rw [same]⟩, ?_, fun more => absurd none more⟩
    rintro ⟨lexeme, begins, isLexeme⟩
    obtain ⟨c, others, rfl, _⟩ := isLexeme.exists_cons
    rw [none] at begins
    cases List.prefix_nil.mp begins
  · have whole : text = c :: rest := by
      change skipGap false lexer.reader.remaining = c :: rest
      rw [split, skipGap_of_gap isGap, skipGap, if_neg opens, if_neg (by simp [blank])]
    rw [whole]
    refine ⟨nofun, ?_⟩
    rcases exists_lexeme c rest with unknown | ⟨others, kind, behind, rfl, lexeme⟩
    · obtain ⟨after, advanced, _, _, left⟩ :=
        advance_of_unknown isOpen isGap blank opens unknown split
      rw [advanced, left]
      refine ⟨?_, fun _ _ => ⟨_, rfl, rfl⟩⟩
      rintro ⟨lexeme, ⟨tail, same⟩, isLexeme⟩
      obtain ⟨d, others, rfl, known⟩ := isLexeme.exists_cons
      exact absurd ((List.cons.inj same).1 ▸ unknown) known
    · rw [← List.cons_append, ← List.append_assoc] at split
      obtain ⟨after, advanced, _, _, left⟩ := advance_of_lexeme isOpen isGap lexeme split
      rw [advanced, left]
      refine ⟨fun _ => ⟨_, rfl, ?_⟩, fun _ none => ?_⟩
      · rw [String.toList_ofList]
        exact ⟨lexeme.longest, lexeme.tells, rfl⟩
      · exact absurd ⟨c :: others, List.prefix_append _ _, lexeme.isLexeme⟩ none

/-- The dots of a text behind an integer: one more character is looked at in advance. -/
theorem advance_munches_dots :
    let lexer := (ofString "x:=7..END").afterSteps 2
    lexer.Open ∧ lexer.reader.remaining = "7..END".toList
      ∧ ∃ token, lexer.advance.1 = .ok token ∧ Longest token.text.toList "7..END".toList := by
  intro lexer
  have isOpen : lexer.Open := by
    intro token current
    have last : lexer.current = some ⟨.assign, ":=", ⟨1, 2⟩⟩ := by decide +kernel
    rw [last] at current
    cases current
    decide
  have remaining : lexer.reader.remaining = "7..END".toList := by decide +kernel
  have begins : ∃ lexeme, lexeme <+: skipGap false lexer.reader.remaining ∧ IsLexeme lexeme := by
    rw [remaining]
    exact ⟨['7'], ⟨_, rfl⟩, .integer ⟨List.cons_ne_nil _ _, List.forall_mem_singleton.mpr rfl⟩⟩
  obtain ⟨token, yields, longest, _⟩ := (advance_munches isOpen).2.1 begins
  rw [remaining] at longest
  exact ⟨isOpen, remaining, token, yields, longest⟩

end Lexer
end MiniPascal
