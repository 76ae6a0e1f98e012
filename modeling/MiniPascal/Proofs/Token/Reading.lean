import MiniPascal.Proofs.Token.Lexemes

/-! # Texts and their tokens

A text reads as a list of tokens if it is made of their lexemes, with a gap in front of each. The
lexer yields exactly these tokens, up to the end of the text or the first unknown character. -/
set_option autoImplicit false
namespace MiniPascal

open Reader (Stops)

theorem TokenKind.ofWord_cases (word : String) :
    ofWord word = .identifier ∨ (word, ofWord word) ∈ reservedWords := by
  unfold ofWord
  cases found : reservedWords.lookup word with
  | none => exact Or.inl rfl
  | some kind =>
      obtain ⟨before, after, same, _⟩ := List.lookup_eq_some_iff.mp found
      exact Or.inr (by simp [same])

/-- Symbols have kinds of their own. -/
theorem TokenKind.of_ofSymbol? {c : Char} {kind : TokenKind} (found : ofSymbol? c = some kind) :
    kind ≠ .assign ∧ kind ≠ .colon ∧ kind ≠ .integerConst ∧ kind ≠ .realConst
      ∧ kind ≠ .identifier ∧ kind ≠ .endOfFile ∧ ∀ word, (word, kind) ∉ reservedWords := by
  unfold ofSymbol? at found
  split at found <;> cases found <;> simp [reservedWords]

/-- Words are identifiers or reserved, and nothing else. -/
theorem TokenKind.ofWord_ne (word : String) : ofWord word ≠ .integerConst
    ∧ ofWord word ≠ .realConst ∧ ofWord word ≠ .endOfFile := by
  have reserved : ∀ entry ∈ reservedWords,
      entry.2 ≠ .integerConst ∧ entry.2 ≠ .realConst ∧ entry.2 ≠ .endOfFile := by decide
  rcases ofWord_cases word with identifier | found
  · simp [identifier]
  · exact reserved _ found

namespace Lexeme

variable {text rest : List Char} {kind : TokenKind}

theorem exists_cons (lexeme : Lexeme text kind rest) :
    ∃ c others, text = c :: others ∧ Alphabet.isBlank c = false ∧ c ≠ '\x7b' := by
  have digit : ∀ {c : Char}, Alphabet.isDigit c = true →
      Alphabet.isBlank c = false ∧ c ≠ '\x7b' := by
    intro c digit
    have word := Alphabet.isWordChar_of_isDigit digit
    obtain ⟨blank, opens, _⟩ := Alphabet.isBlank_of_isWordChar word
    exact ⟨blank, opens⟩
  cases lexeme with
  | symbol symbol =>
      obtain ⟨blank, opens, _⟩ := Alphabet.isBlank_of_ofSymbol? symbol
      exact ⟨_, _, rfl, blank, opens⟩
  | assign => exact ⟨_, _, rfl, by decide, by decide⟩
  | colon => exact ⟨_, _, rfl, by decide, by decide⟩
  | integer more digits =>
      cases text with
      | nil => exact absurd rfl more
      | cons c others => exact ⟨c, others, rfl, digit (digits c List.mem_cons_self)⟩
  | @real whole fraction _ more digits =>
      cases whole with
      | nil => exact absurd rfl more
      | cons c others => exact ⟨c, _, rfl, digit (digits c List.mem_cons_self)⟩
  | word letter =>
      obtain ⟨blank, opens, _⟩ :=
        Alphabet.isBlank_of_isWordChar (Alphabet.isWordChar_of_isLetter letter)
      exact ⟨_, _, rfl, blank, opens⟩

/-- The end of the text is no lexeme. -/
theorem kind_ne (lexeme : Lexeme text kind rest) : kind ≠ .endOfFile := by
  cases lexeme with
  | symbol symbol => exact (TokenKind.of_ofSymbol? symbol).2.2.2.2.2.1
  | assign => decide
  | colon => decide
  | integer => decide
  | real => decide
  | word => exact (TokenKind.ofWord_ne _).2.2

/-- An identifier is no reserved word. -/
theorem ofWord_of_identifier (lexeme : Lexeme text kind rest) (identifier : kind = .identifier) :
    TokenKind.ofWord (String.ofList text) = .identifier := by
  cases lexeme with
  | symbol symbol => exact absurd identifier (TokenKind.of_ofSymbol? symbol).2.2.2.2.1
  | assign => cases identifier
  | colon => cases identifier
  | integer => cases identifier
  | real => cases identifier
  | word => exact identifier

end Lexeme

/-! ## Reading -/

/-- The passed text reads as the tokens if the rest stands behind it. -/
inductive Reads : Position → List Char → List Token → List Char → Prop where
  | nothing {position : Position} {rest : List Char} : Reads position [] [] rest
  | token {position : Position} {gap text passed rest : List Char} {kind : TokenKind}
      {tokens : List Token} :
    Gap gap → Lexeme text kind (passed ++ rest) →
      Reads (position.afterAll (gap ++ text)) passed tokens rest →
      Reads position (gap ++ text ++ passed)
        (⟨kind, String.ofList text, position.afterAll gap⟩ :: tokens) rest

/-- The lexer cuts the passed text into the outcomes if the rest stands behind it: tokens, and
unknown characters each of which is passed alone. -/
inductive Cuts : Position → List Char → List (Except LexError Token) → List Char → Prop where
  | nothing {position : Position} {rest : List Char} : Cuts position [] [] rest
  | token {position : Position} {gap text passed rest : List Char} {kind : TokenKind}
      {outcomes : List (Except LexError Token)} :
    Gap gap → Lexeme text kind (passed ++ rest) →
      Cuts (position.afterAll (gap ++ text)) passed outcomes rest →
      Cuts position (gap ++ text ++ passed)
        (.ok ⟨kind, String.ofList text, position.afterAll gap⟩ :: outcomes) rest
  | unknown {position : Position} {gap passed rest : List Char} {c : Char}
      {outcomes : List (Except LexError Token)} :
    Gap gap → Alphabet.isBlank c = false → c ≠ '\x7b' → Unknown c →
      Cuts (position.afterAll (gap ++ [c])) passed outcomes rest →
      Cuts position (gap ++ [c] ++ passed) (.error ⟨position.afterAll gap, c⟩ :: outcomes) rest

theorem Reads.cuts {position : Position} {passed rest : List Char} {tokens : List Token}
    (reads : Reads position passed tokens rest) :
    Cuts position passed (tokens.map Except.ok) rest := by
  induction reads with
  | nothing => exact .nothing
  | token isGap lexeme _ ih => exact .token isGap lexeme ih

/-- A text where an unknown character comes next. -/
def Stuck (text : List Char) : Prop :=
  ∃ gap c rest, text = gap ++ c :: rest ∧ Gap gap ∧ Alphabet.isBlank c = false ∧ c ≠ '\x7b'
    ∧ Unknown c

/-- Every text reads as some tokens up to its end or an unknown character. -/
theorem exists_reads : ∀ (text : List Char) (position : Position), ∃ passed tokens rest,
    text = passed ++ rest ∧ Reads position passed tokens rest ∧ (Exhausted rest ∨ Stuck rest) := by
  intro text
  induction length : text.length using Nat.strongRecOn generalizing text with
  | ind size ih =>
      intro position
      obtain ⟨gap, tail, rfl, isGap, unclosed | ⟨c, rest, rfl, blank, opens⟩⟩ := exists_gap text
      · exact ⟨[], [], gap ++ tail, rfl, .nothing, Or.inl ⟨gap, tail, rfl, isGap, unclosed⟩⟩
      · rcases exists_lexeme c rest with unknown | ⟨others, kind, last, rfl, lexeme⟩
        · exact ⟨[], [], gap ++ c :: rest, rfl, .nothing,
            Or.inr ⟨gap, c, rest, rfl, isGap, blank, opens, unknown⟩⟩
        · have shorter : last.length < size := by
            simp only [List.length_append, List.length_cons] at length
            omega
          obtain ⟨passed, tokens, behind, rfl, reads, ends⟩ := ih _ shorter last rfl
            (position.afterAll (gap ++ c :: others))
          exact ⟨gap ++ (c :: others) ++ passed, _, behind, by simp, .token isGap lexeme reads,
            ends⟩

theorem Reads.kind_ne {position : Position} {passed rest : List Char} {tokens : List Token}
    (reads : Reads position passed tokens rest) : ∀ token ∈ tokens, token.kind ≠ .endOfFile := by
  induction reads with
  | nothing => intro token member; cases member
  | token _ lexeme _ ih => exact List.forall_mem_cons.mpr ⟨lexeme.kind_ne, ih⟩

theorem Reads.ofWord_of_identifier {position : Position} {passed rest : List Char}
    {tokens : List Token} (reads : Reads position passed tokens rest) :
    ∀ token ∈ tokens, token.kind = .identifier → TokenKind.ofWord token.text = .identifier := by
  induction reads with
  | nothing => intro token member; cases member
  | token _ lexeme _ ih =>
      exact List.forall_mem_cons.mpr ⟨lexeme.ofWord_of_identifier, ih⟩

namespace Reads

variable {position : Position} {passed text rest : List Char} {first second : List Token}

theorem append {behind : List Char} (left : Reads position text first (behind ++ rest))
    (right : Reads (position.afterAll text) behind second rest) :
    Reads position (text ++ behind) (first ++ second) rest := by
  generalize whole : behind ++ rest = final at left
  induction left with
  | nothing => exact right
  | token isGap lexeme _ ih =>
      subst whole
      rw [← List.append_assoc] at lexeme
      rw [List.append_assoc _ _ behind]
      refine .token isGap lexeme (ih ?_ rfl)
      rwa [← Position.afterAll_append]

/-- The first tokens are read from a first part of the text. -/
theorem split : ∀ {first : List Token} {position : Position} {passed : List Char},
    Reads position passed (first ++ second) rest → ∃ text behind, passed = text ++ behind
      ∧ Reads position text first (behind ++ rest) := by
  intro first
  induction first with
  | nil => exact fun _ => ⟨[], _, rfl, .nothing⟩
  | cons token first ih =>
      intro position passed reads
      cases reads with
      | @token _ gap lexed _ _ _ _ isGap lexeme further =>
          obtain ⟨text, behind, rfl, reads⟩ := ih further
          rw [List.append_assoc] at lexeme
          exact ⟨gap ++ lexed ++ text, behind, by simp, .token isGap lexeme reads⟩

end Reads

/-! ## Scanning -/

namespace Reader

variable {reader : Reader} {c : Char} {gap text rest : List Char}

/-- Blanks and the beginning of a comment are passed in one step. -/
theorem scanWithin_of_comment {blanks : List Char}
    (remaining : reader.remaining = blanks ++ '\x7b' :: rest)
    (all : ∀ c ∈ blanks, Alphabet.isBlank c = true) (d : Char) (bound : List Char) :
    ∃ behind, reader.Passes (blanks ++ ['\x7b']) behind ∧ behind.remaining = rest
      ∧ scanWithin (d :: bound) reader = scanWithin bound (behind.skipPast '\x7d') := by
  obtain ⟨passes, left⟩ := skipWhile_of_append remaining all (by simp [Stops]; decide)
  obtain ⟨found, opened, left⟩ := next_of_cons left
  refine ⟨_, passes.trans opened, left, ?_⟩
  rw [scanWithin]
  rcases taken : (reader.skipWhile Alphabet.isBlank).next with ⟨head, after⟩
  rw [taken] at found
  simp only [show head = some '\x7b' from found, if_pos]

theorem scanWithin_of_gap (blank : Alphabet.isBlank c = false) (opens : c ≠ '\x7b')
    (isGap : Gap gap) : ∀ {reader : Reader} {bound : List Char},
      reader.remaining = gap ++ c :: rest → reader.remaining.length ≤ bound.length →
      ∃ start, reader.Passes gap start ∧ start.remaining = c :: rest
        ∧ scanWithin bound reader = start.lexeme c start.next.2 := by
  have stops : Stops Alphabet.isBlank (c :: rest) := by simpa [Stops] using blank
  induction isGap with
  | @blanks gap all =>
      intro reader bound remaining short
      cases bound with
      | nil => simp [remaining] at short
      | cons _ bound =>
          obtain ⟨passes, left⟩ := skipWhile_of_append remaining all stops
          obtain ⟨found, _, _⟩ := next_of_cons left
          refine ⟨_, passes, left, ?_⟩
          rw [scanWithin]
          rcases taken : (reader.skipWhile Alphabet.isBlank).next with ⟨head, after⟩
          rw [taken] at found
          simp only [show head = some c from found, if_neg opens]
  | @comment blanks inside behind all absent _ ih =>
      intro reader bound remaining short
      cases bound with
      | nil => simp [remaining] at short
      | cons _ bound =>
          rw [List.append_assoc, List.cons_append, List.append_assoc, List.cons_append] at remaining
          obtain ⟨middle, opened, left, step⟩ := scanWithin_of_comment remaining all _ bound
          obtain ⟨closed, left⟩ := skipPast_of_append left absent
          have enough : (middle.skipPast '\x7d').remaining.length ≤ bound.length := by
            rw [left]
            rw [remaining] at short
            simp only [List.length_append, List.length_cons] at short ⊢
            omega
          obtain ⟨start, followed, final, scanned⟩ := ih left enough
          exact ⟨start, by simpa using (opened.trans closed).trans followed, final,
            step.trans scanned⟩

/-- The scan yields the end of the text, whose place is behind everything that remains. -/
def Finishes (bound : List Char) (reader : Reader) : Prop :=
  ∃ after, scanWithin bound reader
      = (.ok ⟨.endOfFile, "", reader.position.afterAll reader.remaining⟩, after)
    ∧ reader.Passes reader.remaining after

theorem Finishes.of_passes {middle : Reader} {passed bound further : List Char}
    (finishes : Finishes further middle) (passes : reader.Passes passed middle)
    (same : scanWithin bound reader = scanWithin further middle) : Finishes bound reader := by
  obtain ⟨after, scanned, rest⟩ := finishes
  refine ⟨after, ?_, ?_⟩
  · rw [same, scanned, passes.remaining, Position.afterAll_append, passes.position]
  · rw [passes.remaining]
    exact passes.trans rest

/-- Blanks alone end the text. -/
theorem finishes_of_blanks (all : ∀ c ∈ reader.remaining, Alphabet.isBlank c = true)
    {bound : List Char} (short : reader.remaining.length ≤ bound.length) :
    Finishes bound reader := by
  cases bound with
  | nil =>
      have ended : reader.remaining = [] := List.length_eq_zero_iff.mp (Nat.le_zero.mp short)
      rw [Finishes, ended]
      refine ⟨reader, ?_, .refl reader⟩
      rw [scanWithin, (Passes.refl reader).token]
      rfl
  | cons _ bound =>
      obtain ⟨passes, left⟩ := skipWhile_of_append (List.append_nil _).symm all (by simp [Stops])
      have found := next_fst (reader.skipWhile Alphabet.isBlank)
      have still := remaining_next (reader.skipWhile Alphabet.isBlank)
      have moved := leads_next (reader.skipWhile Alphabet.isBlank)
      rw [left] at found still
      rcases taken : (reader.skipWhile Alphabet.isBlank).next with ⟨head, after⟩
      rw [taken] at found still moved
      have stays : (reader.skipWhile Alphabet.isBlank).Passes [] after := moved.passes left still
      refine ⟨after, ?_, by simpa using passes.trans stays⟩
      rw [scanWithin]
      simp only [taken, show head = none from found]
      rw [stays.token, passes.position]

/-- Without a token the end of the text comes next. -/
theorem finishes_of_exhausted {tail : List Char} (isGap : Gap gap) (unclosed : Unclosed tail) :
    ∀ {reader : Reader} {bound : List Char}, reader.remaining = gap ++ tail →
      reader.remaining.length ≤ bound.length → Finishes bound reader := by
  induction isGap with
  | @blanks gap all =>
      intro reader bound remaining short
      cases unclosed with
      | nothing =>
          rw [List.append_nil] at remaining
          exact finishes_of_blanks (by rwa [remaining]) short
      | @comment inside absent =>
          cases bound with
          | nil => simp [remaining] at short
          | cons _ bound =>
              obtain ⟨middle, opened, left, step⟩ := scanWithin_of_comment remaining all _ bound
              have others : ∀ d ∈ inside, (d != '\x7d') = true := by
                intro d member
                exact bne_iff_ne.mpr fun same => absent (same ▸ member)
              have ended : (middle.skipPast '\x7d').remaining = [] := by
                rw [remaining_skipPast, left, ← List.append_nil inside,
                  List.dropWhile_append_of_pos others, List.dropWhile_nil, List.tail_nil]
              obtain ⟨passed, skipped⟩ := (middle.reaches_skipPast '\x7d').leads
              have finishes : Finishes bound (middle.skipPast '\x7d') :=
                finishes_of_blanks (by simp [ended]) (by simp [ended])
              exact finishes.of_passes (opened.trans skipped) step
  | @comment blanks inside behind all absent _ ih =>
      intro reader bound remaining short
      cases bound with
      | nil => simp [remaining] at short
      | cons _ bound =>
          rw [List.append_assoc, List.cons_append, List.append_assoc, List.cons_append] at remaining
          obtain ⟨middle, opened, left, step⟩ := scanWithin_of_comment remaining all _ bound
          obtain ⟨closed, left⟩ := skipPast_of_append left absent
          have enough : (middle.skipPast '\x7d').remaining.length ≤ bound.length := by
            rw [left]
            rw [remaining] at short
            simp only [List.length_append, List.length_cons] at short ⊢
            omega
          exact (ih left enough).of_passes (opened.trans closed) step

/-- The lexeme behind a gap is the next token. -/
theorem scan_of_lexeme {kind : TokenKind} (isGap : Gap gap) (lexeme : Lexeme text kind rest)
    (remaining : reader.remaining = gap ++ text ++ rest) :
    ∃ after, reader.scan = (.ok ⟨kind, String.ofList text, reader.position.afterAll gap⟩, after)
      ∧ reader.Passes (gap ++ text) after ∧ after.remaining = rest := by
  obtain ⟨c, others, rfl, blank, opens⟩ := lexeme.exists_cons
  rw [List.append_assoc, List.cons_append] at remaining
  obtain ⟨start, before, left, scanned⟩ :=
    scanWithin_of_gap blank opens isGap remaining (Nat.le_refl _)
  obtain ⟨_, first, left⟩ := next_of_cons left
  obtain ⟨after, taken, passes, left⟩ := lexeme_of_lexeme lexeme first left
  refine ⟨after, ?_, before.trans passes, left⟩
  rw [scan, scanned, taken, before.position]

theorem scan_of_unknown (isGap : Gap gap) (blank : Alphabet.isBlank c = false)
    (opens : c ≠ '\x7b') (unknown : Unknown c) (remaining : reader.remaining = gap ++ c :: rest) :
    ∃ after, reader.scan = (.error ⟨reader.position.afterAll gap, c⟩, after)
      ∧ reader.Passes (gap ++ [c]) after ∧ after.remaining = rest := by
  obtain ⟨start, before, left, scanned⟩ :=
    scanWithin_of_gap blank opens isGap remaining (Nat.le_refl _)
  obtain ⟨_, taken, left⟩ := next_of_cons left
  obtain ⟨symbol, colon, digit, letter⟩ := unknown
  refine ⟨start.next.2, ?_, before.trans taken, left⟩
  rw [scan, scanned]
  simp [Reader.lexeme, symbol, colon, digit, letter, before.position]

end Reader

/-! ## The outcomes of a lexer -/

namespace Lexer

/-- A lexer that has not reached the end of its text. -/
def Open (lexer : Lexer) : Prop :=
  ∀ token, lexer.current = some token → token.kind ≠ .endOfFile

theorem advance_of_open {lexer : Lexer} (isOpen : lexer.Open) : lexer.advance = lexer.scan := by
  rw [advance]
  cases current : lexer.current with
  | none => rfl
  | some token => simp [isOpen token current]

/-- Without a token the step of a lexer yields the end of the text. -/
theorem advance_of_exhausted {lexer : Lexer} (isOpen : lexer.Open)
    (exhausted : Exhausted lexer.reader.remaining) :
    ∃ after last, lexer.advance = (.ok last, after) ∧ after.current = some last
      ∧ last = ⟨.endOfFile, "", lexer.reader.position.afterAll lexer.reader.remaining⟩ := by
  obtain ⟨gap, tail, remaining, isGap, unclosed⟩ := exhausted
  obtain ⟨behind, scanned, _⟩ :=
    Reader.finishes_of_exhausted isGap unclosed remaining (Nat.le_refl _)
  refine ⟨⟨lexer.source, behind, _⟩, _, ?_, rfl, rfl⟩
  rw [advance_of_open isOpen, Lexer.scan, Reader.scan, scanned]

/-- The lexeme behind a gap is the token of the step. -/
theorem advance_of_lexeme {lexer : Lexer} {gap text rest : List Char} {kind : TokenKind}
    (isOpen : lexer.Open) (isGap : Gap gap) (lexeme : Lexeme text kind rest)
    (remaining : lexer.reader.remaining = gap ++ text ++ rest) :
    ∃ after, lexer.advance
        = (.ok ⟨kind, String.ofList text, lexer.reader.position.afterAll gap⟩, after)
      ∧ after.Open ∧ lexer.reader.Passes (gap ++ text) after.reader
      ∧ after.reader.remaining = rest := by
  obtain ⟨behind, scanned, passes, left⟩ := Reader.scan_of_lexeme isGap lexeme remaining
  let taken : Token := ⟨kind, String.ofList text, lexer.reader.position.afterAll gap⟩
  refine ⟨⟨lexer.source, behind, some taken⟩, ?_, ?_, passes, left⟩
  · rw [advance_of_open isOpen, Lexer.scan, scanned]
  · rintro token ⟨⟩
    exact lexeme.kind_ne

/-- An unknown character behind a gap makes the step fail, and the last token stays in place. -/
theorem advance_of_unknown {lexer : Lexer} {gap rest : List Char} {c : Char}
    (isOpen : lexer.Open) (isGap : Gap gap) (blank : Alphabet.isBlank c = false)
    (opens : c ≠ '\x7b') (unknown : Unknown c)
    (remaining : lexer.reader.remaining = gap ++ c :: rest) :
    ∃ after, lexer.advance = (.error ⟨lexer.reader.position.afterAll gap, c⟩, after)
      ∧ after.current = lexer.current ∧ lexer.reader.Passes (gap ++ [c]) after.reader
      ∧ after.reader.remaining = rest := by
  obtain ⟨behind, scanned, passes, left⟩ :=
    Reader.scan_of_unknown isGap blank opens unknown remaining
  refine ⟨{ lexer with reader := behind }, ?_, rfl, passes, left⟩
  rw [advance_of_open isOpen, Lexer.scan, scanned]

theorem Open.of_current {lexer after : Lexer} (isOpen : lexer.Open)
    (same : after.current = lexer.current) : after.Open :=
  fun token current => isOpen token (same ▸ current)

/-- What a text is cut into are the first outcomes, and the others are those of the rest. -/
theorem outcomesWithin_of_cuts {position : Position} {passed rest : List Char}
    {outcomes : List (Except LexError Token)} (cuts : Cuts position passed outcomes rest) :
    ∀ {lexer : Lexer} {bound : List Char}, lexer.Open →
      lexer.reader.remaining = passed ++ rest → lexer.reader.position = position →
      lexer.reader.remaining.length ≤ bound.length →
      ∃ (after : Lexer) (left : List Char), after.Open ∧ after.reader.remaining = rest
        ∧ after.reader.position = position.afterAll passed ∧ rest.length ≤ left.length
        ∧ outcomesWithin bound lexer = outcomes ++ outcomesWithin left after := by
  induction cuts with
  | nothing =>
      intro lexer bound isOpen remaining here short
      rw [List.nil_append] at remaining
      exact ⟨lexer, bound, isOpen, remaining, here, remaining ▸ short, rfl⟩
  | @token position gap text passed rest kind outcomes isGap lexeme _ ih =>
      rintro lexer bound isOpen remaining rfl short
      rw [List.append_assoc] at remaining
      obtain ⟨behind, advanced, isOpen', passes, left⟩ :=
        advance_of_lexeme isOpen isGap lexeme remaining
      obtain ⟨c, others, rfl, _⟩ := lexeme.exists_cons
      cases bound with
      | nil =>
          rw [remaining] at short
          simp at short
      | cons _ bound =>
          have further : behind.reader.remaining.length ≤ bound.length := by
            rw [remaining] at short
            rw [left]
            simp only [List.length_append, List.length_cons] at short ⊢
            omega
          obtain ⟨after, fuel, isOpen'', final, place, enough, outcomes⟩ :=
            ih isOpen' left passes.position further
          rw [← Position.afterAll_append] at place
          refine ⟨after, fuel, isOpen'', final, place, enough, ?_⟩
          rw [outcomesWithin, advanced]
          simp only [if_neg lexeme.kind_ne, outcomes, List.cons_append]
  | @unknown position gap passed rest c outcomes isGap blank opens unknown _ ih =>
      rintro lexer bound isOpen remaining rfl short
      rw [List.append_assoc, List.append_assoc, List.singleton_append] at remaining
      obtain ⟨behind, advanced, current, passes, left⟩ :=
        advance_of_unknown isOpen isGap blank opens unknown remaining
      cases bound with
      | nil =>
          rw [remaining] at short
          simp at short
      | cons _ bound =>
          have further : behind.reader.remaining.length ≤ bound.length := by
            rw [remaining] at short
            rw [left]
            simp only [List.length_append, List.length_cons] at short ⊢
            omega
          obtain ⟨after, fuel, isOpen', final, place, enough, outcomes⟩ :=
            ih (isOpen.of_current current) left passes.position further
          rw [← Position.afterAll_append] at place
          refine ⟨after, fuel, isOpen', final, place, enough, ?_⟩
          rw [outcomesWithin, advanced]
          simp only [outcomes, List.cons_append]

/-- The tokens of a text are the first outcomes, and the others are those of the rest. -/
theorem outcomesWithin_of_reads {position : Position} {passed rest : List Char}
    {tokens : List Token} (reads : Reads position passed tokens rest) {lexer : Lexer}
    {bound : List Char} (isOpen : lexer.Open) (remaining : lexer.reader.remaining = passed ++ rest)
    (here : lexer.reader.position = position)
    (short : lexer.reader.remaining.length ≤ bound.length) :
    ∃ (after : Lexer) (left : List Char), after.Open ∧ after.reader.remaining = rest
      ∧ after.reader.position = position.afterAll passed ∧ rest.length ≤ left.length
      ∧ outcomesWithin bound lexer = tokens.map Except.ok ++ outcomesWithin left after :=
  outcomesWithin_of_cuts reads.cuts isOpen remaining here short

theorem outcomesWithin_of_exhausted {lexer : Lexer} (isOpen : lexer.Open)
    (exhausted : Exhausted lexer.reader.remaining) (bound : List Char) :
    outcomesWithin bound lexer
      = [.ok ⟨.endOfFile, "", lexer.reader.position.afterAll lexer.reader.remaining⟩] := by
  obtain ⟨after, last, advanced, -, rfl⟩ := advance_of_exhausted isOpen exhausted
  cases bound with
  | nil => rw [outcomesWithin, advanced]
  | cons _ bound =>
      rw [outcomesWithin, advanced]
      exact if_pos rfl

theorem open_ofString (source : String) : (ofString source).Open := by
  rintro token ⟨⟩

/-- A text without unknown characters yields its tokens and the end. -/
theorem outcomes_of_reads {source : String} {passed rest : List Char} {tokens : List Token}
    (split : source.toList = passed ++ rest) (reads : Reads Position.start passed tokens rest)
    (exhausted : Exhausted rest) : ∃ last, last.kind = .endOfFile
      ∧ outcomes source = (tokens ++ [last]).map Except.ok := by
  obtain ⟨after, left, isOpen, remaining, _, _, same⟩ :=
    outcomesWithin_of_reads reads (open_ofString source) split rfl (Nat.le_refl _)
  let last : Token := ⟨.endOfFile, "", after.reader.position.afterAll after.reader.remaining⟩
  refine ⟨last, rfl, ?_⟩
  rw [outcomesWithin_of_exhausted isOpen (remaining ▸ exhausted)] at same
  rw [List.map_append]
  exact same

/-- What a lexer yields are the tokens that the text reads as, and then the end or an error. -/
theorem exists_outcomes (source : String) : ∃ passed tokens rest,
    source.toList = passed ++ rest ∧ Reads Position.start passed tokens rest
      ∧ ((Exhausted rest ∧ ∃ last, last.kind = .endOfFile
            ∧ outcomes source = (tokens ++ [last]).map Except.ok)
        ∨ ∃ error others, outcomes source = tokens.map Except.ok ++ .error error :: others) := by
  obtain ⟨passed, tokens, rest, split, reads, exhausted | stuck⟩ :=
    exists_reads source.toList Position.start
  · exact ⟨passed, tokens, rest, split, reads,
      Or.inl ⟨exhausted, outcomes_of_reads split reads exhausted⟩⟩
  · refine ⟨passed, tokens, rest, split, reads, Or.inr ?_⟩
    obtain ⟨after, left, isOpen, remaining, _, enough, same⟩ := outcomesWithin_of_reads reads
      (open_ofString source) split rfl (Nat.le_refl source.toList.length)
    obtain ⟨gap, c, others, rfl, isGap, blank, opens, unknown⟩ := stuck
    obtain ⟨behind, advanced, _⟩ :=
      advance_of_unknown isOpen isGap blank opens unknown remaining
    cases left with
    | nil => simp at enough
    | cons _ left =>
        rw [outcomesWithin, advanced] at same
        exact ⟨_, _, same⟩

end Lexer
end MiniPascal
