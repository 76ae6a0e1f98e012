import MiniPascal.Proofs.Program.Completeness
import MiniPascal.Proofs.Token.Reading

/-! # Parsing whole texts

A new parser works on the tokens of a text from its beginning. It accepts the text exactly if some
of its first tokens are derived as a program, and then yields the tree of the derivation. -/
set_option autoImplicit false
namespace MiniPascal

theorem ended_append {tokens : List Token} {last : Token}
    (more : ∀ token ∈ tokens, token.kind ≠ .endOfFile) (ends : last.kind = .endOfFile) :
    Ended (tokens ++ [last]) := by
  induction tokens with
  | nil => exact ends
  | cons token rest ih =>
      obtain ⟨first, others⟩ := List.forall_mem_cons.mp more
      cases rest with
      | nil => exact ⟨first, ends⟩
      | cons next rest => exact ⟨first, ih others⟩

/-- The tokens of a text up to its end or to the first unknown character. -/
theorem Lexer.exists_reach (source : String) : ∃ tokens beyond,
    outcomes source = tokens.map Except.ok ++ beyond ∧ Reach tokens beyond
      ∧ (beyond = [] ∨ ∃ error others, beyond = .error error :: others)
      ∧ ∀ token ∈ tokens, token.kind = .identifier →
        TokenKind.ofWord token.text = .identifier := by
  obtain ⟨passed, tokens, rest, split, reads, ends⟩ := exists_outcomes source
  rcases ends with ⟨_, last, kind, outcomes⟩ | ⟨error, others, outcomes⟩
  · refine ⟨tokens ++ [last], [], by rw [outcomes, List.append_nil],
      .ended (ended_append reads.kind_ne kind), Or.inl rfl, ?_⟩
    refine List.forall_mem_append.mpr ⟨reads.ofWord_of_identifier, ?_⟩
    refine List.forall_mem_singleton.mpr fun other => ?_
    rw [kind] at other
    cases other
  · exact ⟨tokens, _, outcomes, .stopped, Or.inr ⟨error, others, rfl⟩, reads.ofWord_of_identifier⟩

theorem exists_first_large {tokens : List Token} (large : ¬ ∀ token ∈ tokens, token.Fits) :
    ∃ before token after, tokens = before ++ token :: after ∧ (∀ token ∈ before, token.Fits)
      ∧ ¬ token.Fits := by
  induction tokens with
  | nil => exact absurd (by simp) large
  | cons token rest ih =>
      by_cases fits : token.Fits
      · obtain ⟨before, other, after, rfl, all, found⟩ :=
          ih fun others => large (List.forall_mem_cons.mpr ⟨fits, others⟩)
        exact ⟨token :: before, other, after, rfl, List.forall_mem_cons.mpr ⟨fits, all⟩, found⟩
      · exact ⟨[], token, rest, rfl, by simp, fits⟩

/-- A parser gets no further than to the first integer constant that is too large. -/
theorem Reach.exists_passable {tokens : List Token} {beyond : List (Except LexError Token)}
    (reach : Reach tokens beyond) : ∃ front back, tokens = front ++ back
      ∧ Reach front (back.map Except.ok ++ beyond)
      ∧ ∀ used, used <+: front → (∀ last ∈ used.getLast?, last.Fits) →
        ∀ token ∈ used, token.Fits := by
  by_cases small : ∀ token ∈ tokens, token.Fits
  · exact ⟨tokens, [], (List.append_nil _).symm, reach,
      fun used begins _ token member => small token (begins.subset member)⟩
  · obtain ⟨before, large, after, rfl, all, found⟩ := exists_first_large small
    refine ⟨before ++ [large], after, by simp, .large found, ?_⟩
    intro used begins last token member
    rcases List.prefix_concat_iff.mp begins with rfl | shorter
    · exact absurd (last large (by simp)) found
    · exact all token (shorter.subset member)

theorem Grammar.Program.last_fits {used : List Token} {tree : MiniPascal.Program}
    (derived : Grammar.Program used tree) : ∀ last ∈ used.getLast?, last.Fits := by
  cases derived with
  | @mk keyword name semicolon dot tokens block _ _ _ _ dots =>
      intro last same
      rw [← List.cons_append, ← List.cons_append, ← List.cons_append, List.getLast?_concat] at same
      cases same
      exact Token.fits_of_kind dots (by decide)

namespace Parser

variable {source : String} {tokens : List Token} {beyond : List (Except LexError Token)}

/-- Behind its first step a parser stands in front of all tokens. -/
theorem stands_of_consume (outcomes : Lexer.outcomes source = tokens.map Except.ok ++ beyond)
    (reach : Reach tokens beyond) {after : Session}
    (done : Session.consume (Session.ofString source) = .ok () after) : after.Stands tokens [] := by
  cases tokens with
  | nil =>
      generalize none : [] = tokens at reach
      cases reach with
      | ended ended =>
          subst none
          exact absurd ended id
      | stopped =>
          simp [Session.consume, Session.ofString, TokenStream.ofString, TokenStream.advance,
            outcomes] at done
      | large => simp at none
  | cons token rest =>
      simp only [Session.consume, Session.ofString, TokenStream.ofString, TokenStream.advance,
        outcomes, List.map_cons, List.cons_append] at done
      injection done with _ same
      subst same
      exact ⟨rfl, ⟨beyond, rfl, reach⟩, rfl⟩

theorem consume_eq {token : Token} (rest : List Token)
    (outcomes : Lexer.outcomes source = (token :: rest).map Except.ok ++ beyond)
    (reach : Reach (token :: rest) beyond) :
    ∃ after, Session.consume (Session.ofString source) = .ok () after
      ∧ after.Stands (token :: rest) [] ∧ rest.length ≤ after.stream.pending.length := by
  refine ⟨⟨⟨rest.map Except.ok ++ beyond, [token]⟩, [token], none, 0, []⟩, ?_,
    ⟨rfl, ⟨beyond, rfl, reach⟩, rfl⟩, by simp⟩
  simp only [Session.consume, Session.ofString, TokenStream.ofString, TokenStream.advance,
    outcomes, List.map_cons, List.cons_append]

/-- A program that is parsed is derived from the first tokens of the text. -/
theorem sound_parse {program : MiniPascal.Program} {after : Session}
    (done : parse (Session.ofString source) = .ok program after) :
    ∃ used, used.map Except.ok <+: Lexer.outcomes source ∧ (∀ token ∈ used, token.Fits)
      ∧ (∀ token ∈ used, token.kind = .identifier → TokenKind.ofWord token.text = .identifier)
      ∧ Grammar.Program used program.bare := by
  obtain ⟨tokens, beyond, outcomes, reach, _, words⟩ := Lexer.exists_reach source
  obtain ⟨front, back, rfl, reach, fits⟩ := reach.exists_passable
  rw [List.map_append, List.append_assoc] at outcomes
  obtain ⟨_, session, consumed, done⟩ := Parse.bind_eq_ok done
  have stands := stands_of_consume outcomes reach consumed
  obtain ⟨current, _, got, done⟩ := Parse.bind_eq_ok done
  injection got with _ same
  subst same
  obtain ⟨used, begins, derived⟩ := sound_program _ stands done
  refine ⟨used, ?_, fits used begins derived.last_fits, ?_, derived⟩
  · rw [outcomes]
    exact (begins.map _).trans (List.prefix_append _ _)
  · exact fun token member => words token (List.mem_append_left _ (begins.subset member))

theorem prefix_of_map_ok (ends : beyond = [] ∨ ∃ error others, beyond = .error error :: others) :
    ∀ {used tokens : List Token}, used.map Except.ok <+: tokens.map Except.ok ++ beyond →
      used <+: tokens := by
  intro used
  induction used with
  | nil => intro tokens _; exact List.nil_prefix
  | cons token used ih =>
      intro tokens begins
      cases tokens with
      | nil => rcases ends with rfl | ⟨error, others, rfl⟩ <;> simp at begins
      | cons other tokens =>
          simp only [List.map_cons, List.cons_append, List.cons_prefix_cons, Except.ok.injEq]
            at begins
          exact List.cons_prefix_cons.mpr ⟨begins.1, ih begins.2⟩

/-- What the first tokens of a text derive is the program that is parsed. -/
theorem complete_parse {used : List Token} {tree : MiniPascal.Program}
    (derived : Grammar.Program used tree) (small : ∀ token ∈ used, token.Fits)
    (begins : used.map Except.ok <+: Lexer.outcomes source) :
    ∃ program after, parse (Session.ofString source) = .ok program after ∧ program.bare = tree := by
  obtain ⟨tokens, beyond, outcomes, reach, ends, _⟩ := Lexer.exists_reach source
  have among : used <+: tokens := by
    rw [outcomes] at begins
    exact prefix_of_map_ok ends begins
  obtain ⟨rest, rfl⟩ := among
  have first : ∃ token others, used = token :: others := by
    cases derived with
    | mk => exact ⟨_, _, rfl⟩
  obtain ⟨token, others, rfl⟩ := first
  obtain ⟨session, consumed, stands, enough⟩ :=
    consume_eq (others ++ rest) outcomes reach
  obtain ⟨program, after, parsed, bare⟩ :=
    complete_program session.bound derived (by
      simp only [List.length_append, List.length_cons, Session.bound] at enough ⊢
      omega) small stands
  refine ⟨program, after, ?_, bare⟩
  rw [parse, Parse.bind_eq consumed]
  exact parsed

/-- A new parser accepts a text without unknown characters and without too large constants exactly
if some prefix of its tokens is derived as a program, and the tree that it then yields is the one of
the derivation. -/
theorem parse_iff_derives (lexed : Lexer.outcomes source = tokens.map Except.ok)
    (small : ∀ token ∈ tokens, token.Fits) (tree : MiniPascal.Program) :
    (∃ program after, parse (Session.ofString source) = .ok program after ∧ program.bare = tree)
      ↔ ∃ used, used <+: tokens ∧ Grammar.Program used tree := by
  constructor
  · rintro ⟨program, after, done, rfl⟩
    obtain ⟨used, begins, _, _, derived⟩ := sound_parse done
    rw [lexed] at begins
    refine ⟨used, prefix_of_map_ok (Or.inl rfl) ?_, derived⟩
    rwa [List.append_nil]
  · rintro ⟨used, begins, derived⟩
    refine complete_parse derived (fun token member => small token (begins.subset member)) ?_
    rw [lexed]
    exact begins.map _

/-- A text with a procedure that is called without arguments, and the tokens of it. -/
def calling : String × List Token :=
  ("PROGRAM p; PROCEDURE q; BEGIN END; BEGIN q; x := 1 END.",
    (Lexer.outcomes "PROGRAM p; PROCEDURE q; BEGIN END; BEGIN q; x := 1 END.").filterMap
      Except.toOption)

theorem parse_iff_derives_calling :
    Lexer.outcomes calling.1 = calling.2.map Except.ok ∧ (∀ token ∈ calling.2, token.Fits)
      ∧ ∀ tree,
        (∃ program after, parse (Session.ofString calling.1) = .ok program after
          ∧ program.bare = tree) ↔ ∃ used, used <+: calling.2 ∧ Grammar.Program used tree := by
  have lexed : Lexer.outcomes calling.1 = calling.2.map Except.ok := by rfl
  have small : ∀ token ∈ calling.2, token.Fits := by decide
  exact ⟨lexed, small, parse_iff_derives lexed small⟩

end Parser
end MiniPascal
