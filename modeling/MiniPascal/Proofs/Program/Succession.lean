import MiniPascal.Proofs.Program.Arranging
import MiniPascal.Proofs.Program.Origins
import MiniPascal.Proofs.Program.ParsingTaken
import MiniPascal.Proofs.Token.Tiling

/-! # The succession of tokens

A token stream has the outcomes of a lexer that is asked again and again, also behind the end of the
text. A session takes them one by one. Every token among them becomes the current one in its turn,
and every unknown character is left behind as soon as it is met. Between two calls of the parser no
token is looked at in advance, whether the calls succeed or fail. -/
set_option autoImplicit false
namespace MiniPascal

/-! ## Streams and lexers -/

/-- The tokens among the outcomes of the first steps of a lexer. -/
def Lexer.tokens (source : String) (steps : Nat) : List Token :=
  (List.range steps).filterMap fun step =>
    ((ofString source).afterSteps step).advance.1.toOption

theorem Lexer.tokens_succ (source : String) (steps : Nat) : tokens source (steps + 1)
    = tokens source steps ++ ((ofString source).afterSteps steps).advance.1.toOption.toList := by
  rw [tokens, List.range_succ, List.filterMap_append, ← tokens]
  congr 1

theorem Lexer.afterSteps_succ (lexer : Lexer) (steps : Nat) :
    lexer.afterSteps (steps + 1) = (lexer.afterSteps steps).advance.2 := by
  induction steps generalizing lexer with
  | zero => rfl
  | succ steps ih => rw [afterSteps, ih, ← afterSteps]

/-- A step fails at an unknown character. It leaves the last token in place, and what is passed is
this character with the blanks and comments before it. -/
structure Lexer.Drops (before : Lexer) (unknown : LexError) (after : Lexer) : Prop where
  failed : before.advance = (.error unknown, after)
  current : after.current = before.current
  passed : ∃ gap, Gap gap ∧ before.reader.Passes (gap ++ [unknown.character]) after.reader

theorem Lexer.drops_of_error {lexer after : Lexer} {error : LexError}
    (failed : lexer.advance = (.error error, after)) : lexer.Drops error after := by
  obtain ⟨current, _, gap, isGap, _, passes⟩ := advance_failed failed
  exact ⟨failed, current, gap, isGap, passes⟩

namespace TokenStream

def afterSteps : Nat → TokenStream → TokenStream
  | 0, stream => stream
  | steps + 1, stream => (afterSteps steps stream).advance.2

/-- The outcomes to come are those of the lexer, or the text has ended for both. -/
inductive Mirrors : TokenStream → Lexer → Prop where
  | running {lexer : Lexer} (bound : List Char) (taken : List Token) : lexer.Open →
    lexer.reader.remaining.length ≤ bound.length →
      Mirrors ⟨Lexer.outcomesWithin bound lexer, taken⟩ lexer
  | ended {lexer : Lexer} {last : Token} (taken : List Token) : lexer.current = some last →
    last.kind = .endOfFile → Mirrors ⟨[], last :: taken⟩ lexer

theorem Mirrors.advance {stream : TokenStream} {lexer : Lexer} (mirrors : stream.Mirrors lexer) :
    stream.advance.1 = lexer.advance.1 ∧ stream.advance.2.Mirrors lexer.advance.2 := by
  cases mirrors with
  | @ended _ last taken current kind =>
      rw [Lexer.advance_of_ended current kind]
      exact ⟨rfl, .ended taken current kind⟩
  | running bound taken isOpen enough =>
      rcases Lexer.advance_cases isOpen with
        ⟨exhausted, after, last, advanced, same, current⟩
        | ⟨⟨gap, text, outcome⟩, after, advanced, isOpen', fits, passes⟩
      · rw [Lexer.outcomesWithin_of_exhausted isOpen exhausted, ← same, advanced]
        exact ⟨rfl, .ended taken current (by rw [same])⟩
      · have shorter : after.reader.remaining.length < lexer.reader.remaining.length := by
          rw [passes.remaining, List.length_append]
          exact Nat.lt_add_of_pos_left (List.length_pos_iff.mpr fits.passed_ne_nil)
        cases bound with
        | nil => exact absurd (Nat.lt_of_lt_of_le shorter enough) (Nat.not_lt_zero _)
        | cons c bound =>
            have less : after.reader.remaining.length ≤ bound.length :=
              Nat.le_of_lt_succ (Nat.lt_of_lt_of_le shorter enough)
            rw [Lexer.outcomesWithin, advanced]
            cases outcome with
            | ok token =>
                have kind : token.kind ≠ .endOfFile := fits.2.1
                simp only [if_neg kind]
                exact ⟨rfl, .running bound _ isOpen' less⟩
            | error error => exact ⟨rfl, .running bound _ isOpen' less⟩

/-- However many steps a stream and a lexer of one text take, they go on in the same way. -/
theorem mirrors_afterSteps (source : String) (steps : Nat) :
    ((ofString source).afterSteps steps).Mirrors ((Lexer.ofString source).afterSteps steps) := by
  induction steps with
  | zero => exact .running _ _ (Lexer.open_ofString source) (Nat.le_refl _)
  | succ steps ih =>
      rw [Lexer.afterSteps_succ]
      exact ih.advance.2

end TokenStream

/-! ## Sessions -/

namespace Session

variable {source : String} {session : Session}

/-- The stream is that of the text after a number of steps. The tokens of these steps have been
current one after the other, but for one that is looked at in advance. -/
def Follows (source : String) (session : Session) : Prop :=
  ∃ steps, session.stream = (TokenStream.ofString source).afterSteps steps
    ∧ session.read.reverse ++ session.lookahead.toList = Lexer.tokens source steps

theorem Follows.shifted {token : Token} (follows : session.Follows source)
    (looked : session.lookahead = some token) :
    Follows source { session with read := token :: session.read, lookahead := none } := by
  obtain ⟨steps, stream, tokens⟩ := follows
  refine ⟨steps, stream, ?_⟩
  rw [looked] at tokens
  rw [List.reverse_cons, Option.toList_none, List.append_nil]
  exact tokens

theorem Follows.advanced {outcome : Except LexError Token} {stream : TokenStream}
    (follows : session.Follows source) (free : session.lookahead = none)
    (advanced : session.stream.advance = (outcome, stream)) :
    Follows source { session with stream := stream, lookahead := outcome.toOption } := by
  obtain ⟨steps, same, tokens⟩ := follows
  have step := (TokenStream.mirrors_afterSteps source steps).advance.1
  rw [← same, advanced] at step
  refine ⟨steps + 1, ?_, ?_⟩
  · rw [TokenStream.afterSteps, ← same, advanced]
  · rw [free, Option.toList_none, List.append_nil] at tokens
    rw [Lexer.tokens_succ, ← step, ← tokens]

/-- The operations of a session take one token after the other. -/
def Invariant.following (source : String) : Invariant where
  Holds := Follows source
  Rests := Follows source
  Good _ := True
  Head _ := True
  Bad _ := True
  rests := id
  current _ := trivial
  head _ _ _ := trivial
  shifted := Follows.shifted
  looked := Follows.advanced
  begun := Follows.advanced
  blocked {session error stream} follows free advanced := by
    have after := follows.advanced free advanced
    rw [show (Except.error error : Except LexError Token).toOption = session.lookahead from
      free.symm] at after
    exact ⟨after, trivial⟩
  numbered follows := follows
  learned _ follows := follows

/-- The session stands in front of outcomes that end with the end of the text. -/
theorem Draws.ready (draws : session.Draws source) (free : session.lookahead = none) :
    session.Ready := by
  obtain ⟨suffix, latest, ended⟩ := draws
  rw [upcoming_of_free free] at suffix ended
  refine ⟨free, ?_⟩
  cases pending : session.stream.pending with
  | nil =>
      obtain ⟨last, same, kind⟩ := Lexer.exists_of_suffix (ended pending)
      exact ⟨last, by rw [same]; rfl, kind⟩
  | cons outcome rest =>
      obtain ⟨front, last, same, kind⟩ := Lexer.exists_last source
      obtain ⟨before, whole⟩ := suffix
      refine Closed.cons ⟨last, ?_, kind⟩
      have final := congrArg List.getLast? whole
      rwa [pending, List.getLast?_append_cons, same, List.getLast?_concat] at final

/-- Between two calls the next token may be taken as well, and none is looked at in advance then. -/
theorem Draws.ready_of_consume {after : Session} (draws : session.Draws source)
    (free : session.lookahead = none) (left : Parse.Leaves consume session after) :
    after.Ready := by
  have rests := (Invariant.ofSource source).rests_of_leaves left (Parse.allows_consume draws)
  refine Draws.ready rests ?_
  rcases advanced : session.stream.advance with ⟨error | next, stream⟩
  · rw [Parse.Leaves, Parse.consume_of_blocked free advanced] at left
    obtain ⟨_, same⟩ | ⟨_, same⟩ := left
    · cases same
    · cases same
      exact free
  · rw [Parse.Leaves, Parse.consume_of_advanced free advanced] at left
    obtain ⟨_, same⟩ | ⟨_, same⟩ := left
    · cases same
      rfl
    · cases same

end Session

theorem Taken.ready_of_leaves {α : Type} {session after : Session} {parser second : Parse α}
    (taken : Taken session second (parser session)) (left : parser.Leaves session after) :
    after.Ready := by
  obtain ⟨_, done⟩ | ⟨_, done⟩ := left
  · rw [done] at taken
    cases taken with
    | ok _ _ ready _ => exact ready
  · rw [done] at taken
    cases taken with
    | stopped _ _ ready _ _ => exact ready
    | refused _ _ ready _ _ => exact ready

def Parse.after {α : Type} (parser : Parse α) (session : Session) : Session :=
  match parser session with
  | .ok _ after | .error _ after => after

theorem Parse.leaves_after {α : Type} (parser : Parse α) (session : Session) :
    parser.Leaves session (parser.after session) := by
  rw [Leaves, Parse.after]
  cases parser session with
  | ok value after => exact .inl ⟨value, rfl⟩
  | error error after => exact .inr ⟨error, rfl⟩

/-- Where two parsers in a row leave a session. -/
theorem Parse.Leaves.of_bind {α β : Type} {parser : Parse α} {further : α → Parse β}
    {session after : Session} (left : (parser >>= further).Leaves session after) :
    parser.Leaves session after
      ∨ ∃ value between, parser session = .ok value between
        ∧ (further value).Leaves between after := by
  cases done : parser session with
  | error error between =>
      rw [Leaves, bind_eq_error done] at left
      obtain ⟨_, same⟩ | ⟨_, same⟩ := left
      · cases same
      · cases same
        exact .inl (.inr ⟨error, done⟩)
  | ok value between =>
      rw [Leaves, bind_eq done] at left
      exact .inr ⟨value, between, rfl, left⟩

/-- Moving on and looking ahead fail only where the stream comes upon an unknown character, and
nothing but the stream is changed by that. -/
theorem Session.advance_of_failed {session after : Session} {error : ParseError}
    (failed : consume session = .error error after ∨ ∃ kind, isNext kind session = .error error after) :
    ∃ unknown stream, session.stream.advance = (.error unknown, stream)
      ∧ error = .lexical unknown ∧ after = { session with stream := stream } := by
  rcases failed with failed | ⟨kind, failed⟩
  · rw [consume] at failed
    split at failed
    · cases failed
    · split at failed
      · cases failed
      · rename_i unknown stream advanced
        cases failed
        exact ⟨unknown, stream, advanced, rfl, rfl⟩
  · rw [isNext] at failed
    split at failed
    · cases failed
    · split at failed
      · cases failed
      · rename_i unknown stream advanced
        cases failed
        exact ⟨unknown, stream, advanced, rfl, rfl⟩

namespace Session.Reaches

variable {source : String} {session : Session}

theorem draws (reaches : (ofString source).Reaches session) : session.Draws source :=
  have rests : (Invariant.ofSource source).Rests (ofString source) := Draws.ofString source
  reaches.rests rests

theorem follows (reaches : (ofString source).Reaches session) : session.Follows source :=
  have rests : (Invariant.following source).Rests (ofString source) := ⟨0, rfl, rfl⟩
  reaches.rests rests

/-- A call moves on first, and what comes behind that leaves a session that is ready again. -/
theorem free (reaches : (ofString source).Reaches session) : session.lookahead = none := by
  induction reaches with
  | refl => rfl
  | @parse before after reached left ih =>
      have draws := draws reached
      rcases Parse.Leaves.of_bind left with stopped | ⟨_, between, moved, left⟩
      · exact (draws.ready_of_consume ih stopped).free
      · have ready := draws.ready_of_consume ih (.inl ⟨_, moved⟩)
        have taken := Parser.takes_program (Nat.le_refl between.bound) between ready
          (Nat.lt_add_of_pos_right Nat.two_pos)
        have same : (get >>= fun session : Session => Parser.program session.bound) between
          = Parser.program between.bound between := rfl
        rw [Parse.Leaves, same] at left
        exact (taken.ready_of_leaves left).free
  | @expectEnd before after reached left ih =>
      have draws := draws reached
      rcases Parse.Leaves.of_bind left with stopped | ⟨_, between, moved, left⟩
      · exact (draws.ready_of_consume ih stopped).free
      · have ready := draws.ready_of_consume ih (.inl ⟨_, moved⟩)
        have takes : Parse.Takes between.bound
            (do if ← isAt .endOfFile then return () else refuse (.token .endOfFile))
            (do if ← isAt .endOfFile then return () else refuse (.token .endOfFile)) := by
          apply (Parse.Takes.isAt .endOfFile).bind
          intro found
          split
          · exact .pure ()
          · exact .refuse _
        exact ((takes between ready (Nat.lt_add_of_pos_right Nat.two_pos)).ready_of_leaves left).free

/-- Between any calls of the parser, no token is looked at in advance, and the tokens that have been
current are those of a lexer of the text up to a step, which is the next one for both. Wherever a
parse moves on or looks ahead and fails, only the stream is another one then: it goes on behind the
unknown character, which is all that the step of the lexer drops. -/
theorem succession (reaches : (ofString source).Reaches session) :
    session.lookahead = none
      ∧ (∃ steps, session.read.reverse = Lexer.tokens source steps
        ∧ session.stream = (TokenStream.ofString source).afterSteps steps
        ∧ session.stream.advance.1 = ((Lexer.ofString source).afterSteps steps).advance.1)
      ∧ ∀ (steps : Nat) (other after : Session) (error : ParseError),
        other.stream = (TokenStream.ofString source).afterSteps steps →
        (consume other = .error error after ∨ ∃ kind, isNext kind other = .error error after) →
          after = { other with stream := (TokenStream.ofString source).afterSteps (steps + 1) }
            ∧ ∃ unknown, error = .lexical unknown
              ∧ ((Lexer.ofString source).afterSteps steps).Drops unknown
                ((Lexer.ofString source).afterSteps (steps + 1)) := by
  refine ⟨reaches.free, ?_, ?_⟩
  · obtain ⟨steps, stream, tokens⟩ := reaches.follows
    rw [reaches.free, Option.toList_none, List.append_nil] at tokens
    refine ⟨steps, tokens, stream, ?_⟩
    rw [stream]
    exact (TokenStream.mirrors_afterSteps source steps).advance.1
  · intro steps other after error same failed
    obtain ⟨unknown, stream, advanced, rfl, rfl⟩ := advance_of_failed failed
    rw [same] at advanced
    have step := (TokenStream.mirrors_afterSteps source steps).advance.1
    rw [advanced] at step
    refine ⟨?_, unknown, rfl, ?_⟩
    · rw [TokenStream.afterSteps, advanced]
    · apply Lexer.drops_of_error
      rw [Lexer.afterSteps_succ]
      exact Prod.ext step.symm rfl

/-- A text with an unknown character inside of a program and one behind it. -/
def interrupted : String :=
  "PROGRAM $ BEGIN. $"

/-- Both calls for programs fail, and so do the first two of three calls for the end. -/
theorem succession_interrupted :
    let first := Parser.parse.after (ofString interrupted)
    let second := Parser.expectEnd.after (Parser.parse.after first)
    let last := Parser.expectEnd.after (Parser.expectEnd.after second)
    (ofString interrupted).Reaches last ∧ last.lookahead = none
      ∧ last.read.reverse.map Token.text = ["PROGRAM", "BEGIN", ".", ""]
      ∧ ∃ steps, last.read.reverse = Lexer.tokens interrupted steps := by
  intro first second last
  have reaches : (ofString interrupted).Reaches last := by
    apply Reaches.expectEnd _ (Parse.leaves_after _ _)
    apply Reaches.expectEnd _ (Parse.leaves_after _ _)
    apply Reaches.expectEnd _ (Parse.leaves_after _ _)
    apply Reaches.parse _ (Parse.leaves_after _ _)
    exact .parse .refl (Parse.leaves_after _ _)
  obtain ⟨free, ⟨steps, tokens, -⟩, -⟩ := succession reaches
  exact ⟨reaches, free, by decide +kernel, steps, tokens⟩

end Session.Reaches
end MiniPascal
