import MiniPascal.Proofs.Program.ParsingKept
import MiniPascal.Proofs.Token.Cutting

/-! # Where the tokens of a parse come from

The outcomes that a session has still to come are a last part of those of its text, however often
the parser is called. Every token that becomes the current one is one of them, every unknown
character too, and behind the keyword of a procedure the next of them comes. -/
set_option autoImplicit false
namespace MiniPascal

theorem Lexer.exists_last (source : String) : ∃ front last,
    outcomes source = front ++ [.ok last] ∧ last.kind = .endOfFile := by
  obtain ⟨_, front, _, _, _, same⟩ := exists_outcomes_cut source
  exact ⟨front, _, same, rfl⟩

/-- The last outcome is the end of the text. -/
theorem Lexer.exists_of_suffix {source : String} {outcome : Except LexError Token}
    (suffix : [outcome] <:+ outcomes source) :
    ∃ last, outcome = .ok last ∧ last.kind = .endOfFile := by
  obtain ⟨front, last, same, kind⟩ := exists_last source
  obtain ⟨before, whole⟩ := suffix
  rw [same] at whole
  exact ⟨last, by simpa using congrArg List.getLast? whole, kind⟩

/-- The token comes right behind the keyword of a procedure. -/
def Token.Heads (source : String) (token : Token) : Prop :=
  ∃ front keyword rest, Lexer.outcomes source = front ++ .ok keyword :: .ok token :: rest
    ∧ keyword.kind = .procedure

namespace Session

/-- The outcomes to come, the one looked at in advance included. -/
def upcoming (session : Session) : List (Except LexError Token) :=
  session.lookahead.toList.map Except.ok ++ session.stream.pending

/-- The outcomes to come are the last ones of the text. The latest token of the stream is the one
met last, and if no outcome is to come it is the end of the text. -/
structure Draws (source : String) (session : Session) : Prop where
  suffix : session.upcoming <:+ Lexer.outcomes source
  latest : session.stream.taken.headD Token.initial = session.lookahead.getD session.current
  ended : session.upcoming = [] → [.ok session.current] <:+ Lexer.outcomes source

/-- The current token belongs to the text as well, and comes right before the others unless it is
the end, which comes again and again. -/
structure Drawn (source : String) (session : Session) : Prop where
  draws : session.Draws source
  current : .ok session.current ∈ Lexer.outcomes source
  next : session.current.kind = .endOfFile
    ∨ .ok session.current :: session.upcoming <:+ Lexer.outcomes source

variable {source : String} {session : Session} {token : Token} {error : LexError}
  {stream : TokenStream}

theorem upcoming_of_looked (looked : session.lookahead = some token) :
    session.upcoming = .ok token :: session.stream.pending := by
  rw [upcoming, looked]
  rfl

theorem upcoming_of_free (free : session.lookahead = none) :
    session.upcoming = session.stream.pending := by
  rw [upcoming, free]
  rfl

theorem Draws.ofString (source : String) : (Session.ofString source).Draws source := by
  refine ⟨List.suffix_refl _, rfl, fun none => ?_⟩
  obtain ⟨front, last, same, _⟩ := Lexer.exists_last source
  have none : Lexer.outcomes source = [] := none
  simp [same] at none

theorem Draws.shifted (draws : session.Draws source) (looked : session.lookahead = some token) :
    Drawn source { session with read := token :: session.read, lookahead := none } := by
  have suffix := draws.suffix
  have latest := draws.latest
  rw [upcoming_of_looked looked] at suffix
  rw [looked] at latest
  refine ⟨⟨(List.suffix_cons _ _).trans suffix, latest, fun none => ?_⟩,
    suffix.subset List.mem_cons_self, .inr suffix⟩
  rw [show session.stream.pending = [] from none] at suffix
  exact suffix

/-- Looking at the next outcome takes it from the stream, or finds the end again. -/
theorem Draws.looked (draws : session.Draws source) (free : session.lookahead = none)
    (advanced : session.stream.advance = (.ok token, stream)) :
    Draws source { session with stream := stream, lookahead := some token }
      ∧ (.ok token :: stream.pending = session.upcoming
        ∨ session.current.kind = .endOfFile) := by
  obtain ⟨suffix, latest, ended⟩ := draws
  rw [upcoming_of_free free] at suffix ended ⊢
  rw [free, Option.getD_none] at latest
  rw [TokenStream.advance] at advanced
  split at advanced
  · rename_i none
    cases advanced
    -- nothing is left, so the stream hands out its latest token again, and that is the end
    have last := ended none
    refine ⟨⟨?_, rfl, fun none => absurd none (List.cons_ne_nil _ _)⟩, ?_⟩
    · rw [upcoming_of_looked rfl, none, latest]
      exact last
    · obtain ⟨_, same, kind⟩ := Lexer.exists_of_suffix last
      cases same
      exact .inr kind
  · rename_i pending
    cases advanced
    rw [pending] at suffix ⊢
    exact ⟨⟨suffix, rfl, fun none => absurd none (List.cons_ne_nil _ _)⟩, .inl rfl⟩
  · cases advanced

theorem Drawn.looked (drawn : session.Drawn source) (free : session.lookahead = none)
    (advanced : session.stream.advance = (.ok token, stream)) :
    Drawn source { session with stream := stream, lookahead := some token } := by
  obtain ⟨draws, same | kind⟩ := drawn.draws.looked free advanced
  · refine ⟨draws, drawn.current, drawn.next.imp_right fun next => ?_⟩
    rwa [← same] at next
  · exact ⟨draws, drawn.current, .inl kind⟩

theorem Draws.blocked (draws : session.Draws source) (free : session.lookahead = none)
    (advanced : session.stream.advance = (.error error, stream)) :
    Draws source { session with stream := stream } ∧ .error error ∈ Lexer.outcomes source := by
  obtain ⟨suffix, latest, ended⟩ := draws
  rw [upcoming_of_free free] at suffix
  rw [TokenStream.advance] at advanced
  split at advanced
  · cases advanced
  · cases advanced
  · rename_i rest pending
    cases advanced
    rw [pending] at suffix
    have left : upcoming { session with stream := ⟨rest, session.stream.taken⟩ } = rest :=
      upcoming_of_free free
    refine ⟨⟨?_, latest, fun none => ?_⟩, suffix.subset List.mem_cons_self⟩
    · rw [left]
      exact (List.suffix_cons _ _).trans suffix
    · rw [left] at none
      rw [none] at suffix
      obtain ⟨_, same, _⟩ := Lexer.exists_of_suffix suffix
      cases same

/-- The invariant of all sessions of a text. -/
def Invariant.ofSource (source : String) : Invariant where
  Holds := Drawn source
  Rests := Draws source
  Good token := .ok token ∈ Lexer.outcomes source
  Head := Token.Heads source
  Bad error := .error error ∈ Lexer.outcomes source
  rests := Drawn.draws
  current := Drawn.current
  head drawn looked keyword := by
    rcases drawn.next with ended | ⟨front, same⟩
    · rw [keyword] at ended
      cases ended
    · rw [upcoming_of_looked looked] at same
      exact ⟨front, _, _, same.symm, keyword⟩
  shifted := Draws.shifted
  looked := Drawn.looked
  begun draws free advanced := (draws.looked free advanced).1
  blocked := Draws.blocked
  numbered drawn := ⟨⟨drawn.draws.suffix, drawn.draws.latest, drawn.draws.ended⟩, drawn.current,
    drawn.next⟩
  learned _ drawn := ⟨⟨drawn.draws.suffix, drawn.draws.latest, drawn.draws.ended⟩, drawn.current,
    drawn.next⟩

end Session

/-! ## Tokens as parts of the text -/

/-- A lexeme of the text with its kind and its position. -/
def Token.LexemeOf (source : String) (token : Token) : Prop :=
  ∃ before text rest, source.toList = before ++ text ++ rest ∧ Lexeme text token.kind rest
    ∧ token.text = String.ofList text ∧ token.start = Position.start.afterAll before

/-- A character of the text that starts no token, and its position. -/
def LexError.UnknownIn (source : String) (error : LexError) : Prop :=
  ∃ before rest, source.toList = before ++ error.character :: rest ∧ Unknown error.character
    ∧ error.position = Position.start.afterAll before

/-- The outcome is a lexeme of the text or an unknown character in it. -/
def PartOf (source : String) : Except LexError Token → Prop
  | .ok token => token.LexemeOf source
  | .error error => error.UnknownIn source

theorem Cuts.partOf {source : String} {position : Position} {passed rest : List Char}
    {outcomes : List (Except LexError Token)} (cuts : Cuts position passed outcomes rest) :
    ∀ before, source.toList = before ++ passed ++ rest → position = Position.start.afterAll before →
      ∀ outcome ∈ outcomes, PartOf source outcome := by
  induction cuts with
  | nothing => exact fun _ _ _ => nofun
  | @token position gap text passed rest kind outcomes isGap lexeme _ ih =>
      rintro before split rfl
      simp only [← Position.afterAll_append] at ih ⊢
      refine List.forall_mem_cons.mpr ⟨?_, ih _ (by simpa using split) rfl⟩
      exact ⟨before ++ gap, text, passed ++ rest, by simpa using split, lexeme, rfl, rfl⟩
  | @unknown position gap passed rest c outcomes isGap blank opens unknown _ ih =>
      rintro before split rfl
      simp only [← Position.afterAll_append] at ih ⊢
      refine List.forall_mem_cons.mpr ⟨?_, ih _ (by simpa using split) rfl⟩
      exact ⟨before ++ gap, passed ++ rest, by simpa using split, unknown, rfl⟩

namespace Lexer

variable {source : String}

theorem partOf_of_mem {outcome : Except LexError Token} (member : outcome ∈ outcomes source) :
    PartOf source outcome
      ∨ outcome = .ok ⟨.endOfFile, "", Position.start.afterAll source.toList⟩ := by
  obtain ⟨passed, front, rest, split, cuts, same⟩ := exists_outcomes_cut source
  rw [same] at member
  rcases List.mem_append.mp member with inside | last
  · exact .inl (cuts.partOf [] split rfl outcome inside)
  · exact .inr (List.mem_singleton.mp last)

/-- A token is a lexeme of the text, or its end. -/
theorem lexemeOf_of_mem {token : Token} (member : .ok token ∈ outcomes source) :
    token.LexemeOf source ∨ token = ⟨.endOfFile, "", Position.start.afterAll source.toList⟩ :=
  (partOf_of_mem member).imp_right fun same => by injection same

theorem unknownIn_of_mem {error : LexError} (member : .error error ∈ outcomes source) :
    error.UnknownIn source :=
  (partOf_of_mem member).resolve_right nofun

end Lexer
end MiniPascal
