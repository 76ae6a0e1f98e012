import MiniPascal.Proofs.Token.Passing

/-! # Lexemes and gaps

What the lexer takes as one token, and what it skips in front of a token, are described here by the
characters alone. A lexeme depends on the text behind it only as far as two characters decide that
it does not go on. Every text begins with a gap, and behind the gap comes a lexeme, an unknown
character or the end. -/
set_option autoImplicit false
namespace MiniPascal

open Reader (Stops)

/-- No digit stands behind a dot at the beginning of the text. -/
def NoFraction (text : List Char) : Prop :=
  ∀ d rest, text = '.' :: d :: rest → Alphabet.isDigit d = false

/-- The text is taken as one token of the kind if the rest stands behind it. -/
inductive Lexeme : List Char → TokenKind → List Char → Prop where
  | symbol {c : Char} {kind : TokenKind} {rest : List Char} :
    TokenKind.ofSymbol? c = some kind → Lexeme [c] kind rest
  | assign {rest : List Char} : Lexeme [':', '='] .assign rest
  | colon {rest : List Char} : rest.head? ≠ some '=' → Lexeme [':'] .colon rest
  | integer {digits rest : List Char} :
    digits ≠ [] → (∀ c ∈ digits, Alphabet.isDigit c = true) → Stops Alphabet.isDigit rest →
      NoFraction rest → Lexeme digits .integerConst rest
  | real {whole fraction rest : List Char} :
    whole ≠ [] → (∀ c ∈ whole, Alphabet.isDigit c = true) → fraction ≠ [] →
      (∀ c ∈ fraction, Alphabet.isDigit c = true) → Stops Alphabet.isDigit rest →
      Lexeme (whole ++ '.' :: fraction) .realConst rest
  | word {first : Char} {others rest : List Char} :
    Alphabet.isLetter first = true → (∀ c ∈ others, Alphabet.isWordChar c = true) →
      Stops Alphabet.isWordChar rest →
      Lexeme (first :: others) (TokenKind.ofWord (String.ofList (first :: others))) rest

/-- Blanks and comments that have been closed. -/
inductive Gap : List Char → Prop where
  | blanks {blanks : List Char} : (∀ c ∈ blanks, Alphabet.isBlank c = true) → Gap blanks
  | comment {blanks inside rest : List Char} :
    (∀ c ∈ blanks, Alphabet.isBlank c = true) → '\x7d' ∉ inside → Gap rest →
      Gap (blanks ++ '\x7b' :: (inside ++ '\x7d' :: rest))

/-- Nothing, or a comment that is not closed. -/
inductive Unclosed : List Char → Prop where
  | nothing : Unclosed []
  | comment {inside : List Char} : '\x7d' ∉ inside → Unclosed ('\x7b' :: inside)

/-- A text without tokens. -/
def Exhausted (text : List Char) : Prop :=
  ∃ gap tail, text = gap ++ tail ∧ Gap gap ∧ Unclosed tail

/-! ## Characters of several classes -/

theorem Alphabet.isBlank_of_ofSymbol? {c : Char} {kind : TokenKind}
    (symbol : TokenKind.ofSymbol? c = some kind) : isBlank c = false ∧ c ≠ '\x7b' ∧ c ≠ ':' := by
  unfold TokenKind.ofSymbol? at symbol
  split at symbol <;> first | exact ⟨by decide, by decide, by decide⟩ | cases symbol

theorem Alphabet.isDigit_iff {c : Char} : isDigit c = true ↔ 48 ≤ c.toNat ∧ c.toNat ≤ 57 := by
  change (decide (c.val ≥ 48) && decide (c.val ≤ 57)) = true ↔ _
  simp only [Bool.and_eq_true, decide_eq_true_eq, UInt32.le_iff_toNat_le, ge_iff_le]
  exact Iff.rfl

theorem Alphabet.isLetter_iff {c : Char} : isLetter c = true
    ↔ (65 ≤ c.toNat ∧ c.toNat ≤ 90 ∨ 97 ≤ c.toNat ∧ c.toNat ≤ 122) ∨ c = '_' := by
  change ((decide (c.val ≥ 65 ∧ c.val ≤ 90)
    || (decide (c.val ≥ 97) && decide (c.val ≤ 122))) || c == '_') = true ↔ _
  simp only [Bool.or_eq_true, Bool.and_eq_true, beq_iff_eq, decide_eq_true_eq,
    UInt32.le_iff_toNat_le, ge_iff_le]
  exact Iff.rfl

theorem Alphabet.toNat_of_isWordChar {c : Char} (inside : isWordChar c = true) :
    48 ≤ c.toNat ∧ c.toNat ≤ 122 := by
  rw [isWordChar, Bool.or_eq_true, isLetter_iff, isDigit_iff] at inside
  rcases inside with ((upper | lower) | rfl) | digit
  · omega
  · omega
  · decide
  · omega

/-- Letters and digits are neither blanks nor parts of other lexemes. -/
theorem Alphabet.isBlank_of_isWordChar {c : Char} (inside : isWordChar c = true) :
    isBlank c = false ∧ c ≠ '\x7b' ∧ c ≠ ':' ∧ TokenKind.ofSymbol? c = none := by
  have other : ∀ d : Char, isWordChar d = false → c ≠ d := by
    rintro d outside rfl
    rw [inside] at outside
    cases outside
  refine ⟨?_, other _ (by decide), other _ (by decide), ?_⟩
  · obtain ⟨least, greatest⟩ := toNat_of_isWordChar inside
    simp only [isBlank, blankRanges, List.any_cons, List.any_nil, Bool.or_eq_false_iff,
      Bool.and_eq_false_iff, decide_eq_false_iff_not, and_true, Nat.not_le]
    omega
  · unfold TokenKind.ofSymbol?
    split <;> first | exact absurd rfl (other _ (by decide)) | rfl

theorem Alphabet.isWordChar_of_isDigit {c : Char} (digit : isDigit c = true) :
    isWordChar c = true := by
  rw [isWordChar, digit, Bool.or_true]

theorem Alphabet.isWordChar_of_isLetter {c : Char} (letter : isLetter c = true) :
    isWordChar c = true := by
  rw [isWordChar, letter, Bool.true_or]

theorem Alphabet.isDigit_of_isLetter {c : Char} (letter : isLetter c = true) :
    isDigit c = false := by
  cases digit : isDigit c with
  | false => rfl
  | true =>
      exfalso
      rw [isLetter_iff] at letter
      rw [isDigit_iff] at digit
      rcases letter with (upper | lower) | rfl
      · omega
      · omega
      · exact absurd digit (by decide)

/-! ## Every text begins with a gap and a lexeme -/

/-- The longest run of characters with a property. -/
theorem exists_run (p : Char → Bool) (text : List Char) :
    ∃ run rest, text = run ++ rest ∧ (∀ c ∈ run, p c = true) ∧ Stops p rest := by
  induction text with
  | nil => exact ⟨[], [], rfl, by simp, by simp [Stops]⟩
  | cons c text ih =>
      obtain ⟨run, rest, rfl, all, stops⟩ := ih
      by_cases holds : p c = true
      · exact ⟨c :: run, rest, rfl, List.forall_mem_cons.mpr ⟨holds, all⟩, stops⟩
      · exact ⟨[], c :: (run ++ rest), rfl, by simp, by simpa [Stops] using holds⟩

/-- The text begins with a character that starts no token. -/
def Unknown (c : Char) : Prop :=
  TokenKind.ofSymbol? c = none ∧ c ≠ ':' ∧ Alphabet.isDigit c = false
    ∧ Alphabet.isLetter c = false

/-- A number goes on behind a dot exactly if a digit stands there. -/
theorem exists_number {c : Char} (text : List Char) (digit : Alphabet.isDigit c = true) :
    ∃ others kind rest, text = others ++ rest ∧ Lexeme (c :: others) kind rest := by
  obtain ⟨run, rest, rfl, all, stops⟩ := exists_run Alphabet.isDigit text
  have digits : ∀ d ∈ c :: run, Alphabet.isDigit d = true := List.forall_mem_cons.mpr ⟨digit, all⟩
  by_cases whole : NoFraction rest
  · exact ⟨run, .integerConst, rest, rfl, .integer (by simp) digits stops whole⟩
  · simp only [NoFraction, Classical.not_forall, Bool.not_eq_false] at whole
    obtain ⟨d, behind, rfl, second⟩ := whole
    obtain ⟨fraction, last, rfl, others, ends⟩ := exists_run Alphabet.isDigit behind
    exact ⟨run ++ '.' :: d :: fraction, .realConst, last, by simp,
      .real (List.cons_ne_nil c run) digits (List.cons_ne_nil d fraction)
        (List.forall_mem_cons.mpr ⟨second, others⟩) ends⟩

theorem exists_lexeme (c : Char) (text : List Char) :
    Unknown c ∨ ∃ others kind rest, text = others ++ rest ∧ Lexeme (c :: others) kind rest := by
  cases symbol : TokenKind.ofSymbol? c with
  | some kind => exact Or.inr ⟨[], kind, text, rfl, .symbol symbol⟩
  | none =>
      by_cases colon : c = ':'
      · subst colon
        refine Or.inr ?_
        cases text with
        | nil => exact ⟨[], .colon, [], rfl, .colon (by simp)⟩
        | cons d text =>
            by_cases equals : d = '='
            · subst equals
              exact ⟨['='], .assign, text, rfl, .assign⟩
            · exact ⟨[], .colon, d :: text, rfl, .colon (by simpa using equals)⟩
      · by_cases digit : Alphabet.isDigit c = true
        · exact Or.inr (exists_number text digit)
        · by_cases letter : Alphabet.isLetter c = true
          · obtain ⟨run, rest, rfl, all, stops⟩ := exists_run Alphabet.isWordChar text
            exact Or.inr ⟨run, _, rest, rfl, .word letter all stops⟩
          · exact Or.inl ⟨symbol, colon, by simpa using digit, by simpa using letter⟩

theorem exists_gap : ∀ text : List Char, ∃ gap tail, text = gap ++ tail ∧ Gap gap
    ∧ (Unclosed tail ∨ ∃ c rest, tail = c :: rest ∧ Alphabet.isBlank c = false ∧ c ≠ '\x7b') := by
  intro text
  induction size : text.length using Nat.strongRecOn generalizing text with
  | ind size ih =>
      obtain ⟨blanks, rest, rfl, all, stops⟩ := exists_run Alphabet.isBlank text
      cases rest with
      | nil => exact ⟨blanks, [], rfl, .blanks all, Or.inl .nothing⟩
      | cons c rest =>
          by_cases opens : c = '\x7b'
          · subst opens
            obtain ⟨inside, behind, rfl, others, ends⟩ := exists_run (fun c => c != '\x7d') rest
            have absent : '\x7d' ∉ inside := fun member => absurd (others _ member) (by simp)
            cases behind with
            | nil => exact ⟨blanks, '\x7b' :: (inside ++ []), rfl, .blanks all,
                Or.inl (.comment (by simpa using absent))⟩
            | cons d behind =>
                have closes : d = '\x7d' := by simpa using ends d rfl
                subst closes
                obtain ⟨gap, tail, rfl, isGap, follows⟩ := ih behind.length (by
                  rw [← size]
                  simp only [List.length_append, List.length_cons]
                  omega) behind rfl
                exact ⟨_, tail, by simp, .comment all absent isGap, follows⟩
          · exact ⟨blanks, c :: rest, rfl, .blanks all, Or.inr ⟨c, rest, rfl, stops c rfl, opens⟩⟩

/-! ## Lexemes are taken -/

namespace Reader

variable {reader start : Reader} {text rest : List Char}

/-- Looking at one more character passes nothing. -/
theorem peek_of_remaining (remaining : reader.remaining = rest) :
    ∃ after, reader.peek = (rest.head?, after) ∧ reader.Passes [] after
      ∧ after.remaining = rest :=
  ⟨reader.peek.2, Prod.ext (by rw [peek_fst, remaining]) rfl, reader.passes_peek,
    reader.remaining_peek.trans remaining⟩

theorem peekSecond_of_remaining (remaining : reader.remaining = rest) :
    ∃ after, reader.peekSecond = (rest.tail.head?, after) ∧ reader.Passes [] after
      ∧ after.remaining = rest :=
  ⟨reader.peekSecond.2, Prod.ext (by rw [peekSecond_fst, remaining]) rfl,
    reader.passes_peekSecond, reader.remaining_peekSecond.trans remaining⟩

theorem number_of_integer (remaining : reader.remaining = text ++ rest)
    (digits : ∀ c ∈ text, Alphabet.isDigit c = true) (stops : Stops Alphabet.isDigit rest)
    (whole : NoFraction rest) :
    ∃ after, reader.number = (.integerConst, after) ∧ reader.Passes text after
      ∧ after.remaining = rest := by
  obtain ⟨passes, left⟩ := skipWhile_of_append remaining digits stops
  obtain ⟨looked, peeked, first, left⟩ := peek_of_remaining left
  have passes := passes.trans first
  rw [List.append_nil] at passes
  simp only [number, peeked]
  cases rest with
  | nil => exact ⟨looked, rfl, passes, left⟩
  | cons c others =>
      by_cases dot : c = '.'
      · subst dot
        obtain ⟨again, seconds, second, left⟩ := peekSecond_of_remaining left
        have passes := passes.trans second
        rw [List.append_nil] at passes
        simp only [List.head?_cons, if_true, seconds, List.tail_cons]
        cases others with
        | nil => exact ⟨again, rfl, passes, left⟩
        | cons d others =>
            have other : Alphabet.isDigit d = false := whole d others rfl
            exact ⟨again, by simp [other], passes, left⟩
      · exact ⟨looked, by simp [dot], passes, left⟩

theorem number_of_real {fraction : List Char}
    (remaining : reader.remaining = text ++ '.' :: (fraction ++ rest))
    (digits : ∀ c ∈ text, Alphabet.isDigit c = true) (more : fraction ≠ [])
    (others : ∀ c ∈ fraction, Alphabet.isDigit c = true) (stops : Stops Alphabet.isDigit rest) :
    ∃ after, reader.number = (.realConst, after) ∧ reader.Passes (text ++ '.' :: fraction) after
      ∧ after.remaining = rest := by
  obtain ⟨passes, left⟩ := skipWhile_of_append remaining digits (by simp [Stops]; decide)
  obtain ⟨looked, peeked, first, left⟩ := peek_of_remaining left
  obtain ⟨again, seconds, second, left⟩ := peekSecond_of_remaining left
  obtain ⟨_, dot, left⟩ := next_of_cons left
  obtain ⟨behind, left⟩ := skipWhile_of_append left others stops
  have passes := (((passes.trans first).trans second).trans dot).trans behind
  refine ⟨_, ?_, by simpa using passes, left⟩
  cases fraction with
  | nil => exact absurd rfl more
  | cons d fraction =>
      have digit : Alphabet.isDigit d = true := others d List.mem_cons_self
      simp [number, peeked, seconds, digit]

/-- The lexeme at the beginning of the remaining text is the token that is taken. -/
theorem lexeme_of_lexeme {c : Char} {others : List Char} {kind : TokenKind}
    (lexeme : Lexeme (c :: others) kind rest) (first : start.Passes [c] reader)
    (remaining : reader.remaining = others ++ rest) :
    ∃ after, start.lexeme c reader
        = (.ok ⟨kind, String.ofList (c :: others), start.position⟩, after)
      ∧ start.Passes (c :: others) after ∧ after.remaining = rest := by
  generalize whole : c :: others = text at lexeme
  cases lexeme with
  | symbol symbol =>
      injection whole with same none
      subst same none
      exact ⟨reader, by simp only [Reader.lexeme, symbol, first.token], first, remaining⟩
  | assign =>
      injection whole with same none
      subst same none
      obtain ⟨looked, peeked, none, left⟩ := peek_of_remaining remaining
      obtain ⟨_, equals, left⟩ := next_of_cons left
      have passes := (first.trans none).trans equals
      refine ⟨looked.next.2, ?_, passes, left⟩
      simp [Reader.lexeme, Reader.accept, peeked, TokenKind.ofSymbol?, passes.token]
  | colon other =>
      injection whole with same none
      subst same none
      obtain ⟨looked, peeked, none, left⟩ := peek_of_remaining remaining
      have passes := first.trans none
      rw [List.append_nil] at passes
      refine ⟨looked, ?_, passes, left⟩
      simp only [List.nil_append] at peeked
      simp [Reader.lexeme, Reader.accept, peeked, other, TokenKind.ofSymbol?, passes.token]
  | integer more digits stops fraction =>
      subst whole
      obtain ⟨head, tail⟩ := List.forall_mem_cons.mp digits
      obtain ⟨after, number, behind, left⟩ := number_of_integer remaining tail stops fraction
      have passes := first.trans behind
      obtain ⟨_, _, colon, symbol⟩ :=
        Alphabet.isBlank_of_isWordChar (Alphabet.isWordChar_of_isDigit head)
      refine ⟨after, ?_, passes, left⟩
      simp [Reader.lexeme, symbol, colon, head, number, passes.token]
  | @real integral fraction _ more digits other fractional stops =>
      cases integral with
      | nil => exact absurd rfl more
      | cons d integral =>
          rw [List.cons_append] at whole
          injection whole with same tail
          subst same tail
          obtain ⟨head, digits⟩ := List.forall_mem_cons.mp digits
          rw [List.append_assoc, List.cons_append] at remaining
          obtain ⟨after, number, behind, left⟩ :=
            number_of_real remaining digits other fractional stops
          have passes := first.trans behind
          obtain ⟨_, _, colon, symbol⟩ :=
            Alphabet.isBlank_of_isWordChar (Alphabet.isWordChar_of_isDigit head)
          refine ⟨after, ?_, passes, left⟩
          simp [Reader.lexeme, symbol, colon, head, number, passes.token]
  | word letter wordChars stops =>
      injection whole with same tail
      subst same tail
      obtain ⟨behind, left⟩ := skipWhile_of_append remaining wordChars stops
      have passes := first.trans behind
      obtain ⟨_, _, colon, symbol⟩ :=
        Alphabet.isBlank_of_isWordChar (Alphabet.isWordChar_of_isLetter letter)
      refine ⟨_, ?_, passes, left⟩
      simp [Reader.lexeme, symbol, colon, Alphabet.isDigit_of_isLetter letter, letter,
        passes.token]

end Reader
end MiniPascal
