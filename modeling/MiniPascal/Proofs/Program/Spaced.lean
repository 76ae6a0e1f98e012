import MiniPascal.Proofs.Program.Correctness
import MiniPascal.Proofs.Program.Fronts
import MiniPascal.Proofs.Program.ParsingUnplaced
import MiniPascal.Proofs.Program.RenderedExpressions
import MiniPascal.Proofs.Program.Viability
import MiniPascal.Proofs.Token.Cutting

/-! # Texts for given tokens

Tokens that lexers yield are written into a text of their own, with a blank in front of each. The
text reads as these tokens again, at other positions. If they are derived as a program, the text is
parsed to it. -/
set_option autoImplicit false
namespace MiniPascal

open Reader (Stops)

/-- A lexer yields the token somewhere. -/
def Token.Lexes (token : Token) : Prop :=
  ∃ rest, Lexeme token.text.toList token.kind rest

/-- A lexeme ends in front of a blank. -/
theorem Lexeme.before_blank {text rest : List Char} {kind : TokenKind}
    (lexeme : Lexeme text kind rest) (other : List Char) : Lexeme text kind (' ' :: other) := by
  have stops : ∀ {p : Char → Bool}, p ' ' = false → Stops p (' ' :: other) := by
    rintro p blank c ⟨⟩
    exact blank
  refine lexeme.of_endsAlike ⟨fun _ => stops rfl, fun _ => stops rfl, ?_, ?_⟩
  · exact fun _ same => absurd (Option.some.inj same) (by decide)
  · intro _ _ d behind same
    injection same with first
    exact absurd first (by decide)

theorem Token.Fills.lexes {token : Token} (fills : token.Fills) : token.Lexes := by
  have word : ∀ first others, Alphabet.isLetter first = true →
      others.all Alphabet.isWordChar = true →
      Lexeme (first :: others) (TokenKind.ofWord (String.ofList (first :: others))) [] :=
    fun first others letter all => .word letter (List.all_eq_true.mp all) (by simp [Stops])
  obtain ⟨same, more, integer, real⟩ := fills
  rw [same]
  refine ⟨[], ?_⟩
  cases kind : token.kind <;> first
    | exact absurd kind more
    | exact absurd kind integer
    | exact absurd kind real
    | exact .symbol rfl
    | exact .assign
    | exact .colon (by simp)
    | exact word _ _ rfl rfl

theorem Token.Fills.fits {token : Token} (fills : token.Fills) : token.Fits :=
  Token.fits_of_ne fills.2.2.1

/-- The tokens with a blank in front of each. -/
def Token.spaced (tokens : List Token) : List Char :=
  tokens.flatMap fun token => ' ' :: token.text.toList

theorem Token.exists_reads_spaced {tokens : List Token} (lexed : ∀ token ∈ tokens, token.Lexes) :
    ∀ position : Position, ∃ placed, placed.map Token.unplaced = tokens.map Token.unplaced
      ∧ Reads position (Token.spaced tokens) placed [' '] := by
  induction tokens with
  | nil => exact fun position => ⟨[], rfl, .nothing⟩
  | cons token rest ih =>
      intro position
      obtain ⟨⟨_, lexeme⟩, others⟩ := List.forall_mem_cons.mp lexed
      obtain ⟨placed, same, reads⟩ := ih others (position.afterAll ([' '] ++ token.text.toList))
      have blank : ∃ behind, Token.spaced rest ++ [' '] = ' ' :: behind := by
        cases rest with
        | nil => exact ⟨[], rfl⟩
        | cons next rest => exact ⟨_, rfl⟩
      obtain ⟨behind, blank⟩ := blank
      have gap : Gap [' '] := .blanks (List.forall_mem_singleton.mpr (by decide))
      refine ⟨⟨token.kind, String.ofList token.text.toList, position.afterAll [' ']⟩ :: placed,
        ?_, .token gap (blank ▸ lexeme.before_blank behind) reads⟩
      rw [List.map_cons, List.map_cons, same, String.ofList_toList]
      rfl

/-- There is a text of exactly these tokens. -/
theorem Token.exists_source {tokens : List Token} (lexed : ∀ token ∈ tokens, token.Lexes) :
    ∃ source placed last, placed.map Token.unplaced = tokens.map Token.unplaced
      ∧ last.kind = .endOfFile ∧ Lexer.outcomes source = (placed ++ [last]).map Except.ok := by
  obtain ⟨placed, same, reads⟩ := Token.exists_reads_spaced lexed Position.start
  have split : (String.ofList (Token.spaced tokens ++ [' '])).toList
      = Token.spaced tokens ++ [' '] := String.toList_ofList
  have blank : Exhausted [' '] :=
    ⟨[' '], [], rfl, .blanks (List.forall_mem_singleton.mpr (by decide)), .nothing⟩
  obtain ⟨last, kind, outcomes⟩ := Lexer.outcomes_of_reads split reads blank
  exact ⟨_, placed, last, same, kind, outcomes⟩

/-! ## Sessions behind the first token -/

/-- A session whose first token has been taken, with these outcomes to come. -/
def Session.begun (token : Token) (rest : List (Except LexError Token)) : Session :=
  ⟨⟨rest, [token]⟩, [token], none, 0, []⟩

theorem Session.unplaced_begun {token other : Token} {first second : List Token}
    (same : (token :: first).map Token.unplaced = (other :: second).map Token.unplaced)
    (rest : List (Except LexError Token)) :
    (begun token (first.map Except.ok ++ rest)).unplaced
      = (begun other (second.map Except.ok ++ rest)).unplaced := by
  have outcomes : ∀ tokens : List Token, (tokens.map Except.ok).map unplacedOutcome
      = (tokens.map Token.unplaced).map Except.ok := by
    intro tokens
    rw [List.map_map, List.map_map]
    rfl
  rw [List.map_cons, List.map_cons] at same
  injection same with heads tails
  simp only [begun, Session.unplaced, TokenStream.unplaced, List.map_append, outcomes, tails,
    List.map_cons, List.map_nil, heads]

namespace Parser

theorem stands_begun {token : Token} {others : List Token} {beyond : List (Except LexError Token)}
    (reach : Reach (token :: others) beyond) :
    (Session.begun token (others.map Except.ok ++ beyond)).Stands (token :: others) [] :=
  ⟨rfl, ⟨beyond, rfl, reach⟩, rfl⟩

/-- Where the tokens stand makes no difference to whether a program is parsed. -/
theorem exists_ok_of_unplaced {token other : Token} {first second : List Token} {bound : Nat}
    {rest : List (Except LexError Token)} {program : MiniPascal.Program} {after : Session}
    (done : Parser.program bound (Session.begun token (first.map Except.ok ++ rest))
      = .ok program after)
    (same : (token :: first).map Token.unplaced = (other :: second).map Token.unplaced) :
    ∃ value later, Parser.program bound (Session.begun other (second.map Except.ok ++ rest))
      = .ok value later := by
  have left := mirrors_program bound (Session.begun token (first.map Except.ok ++ rest))
  have right := mirrors_program bound (Session.begun other (second.map Except.ok ++ rest))
  rw [Session.unplaced_begun same, right, done] at left
  cases parsed : Parser.program bound (Session.begun other (second.map Except.ok ++ rest)) with
  | ok value later => exact ⟨value, later, rfl⟩
  | error error later =>
      rw [parsed] at left
      cases left

/-- A text is parsed if its tokens derive a program, wherever they stand. -/
theorem exists_parsed_of_unplaced {tokens placed : List Token} {last : Token} {source : String}
    {tree : MiniPascal.Program} (derived : Grammar.Program tokens tree)
    (small : ∀ token ∈ tokens, token.Fits) (more : ∀ token ∈ tokens, token.kind ≠ .endOfFile)
    (same : placed.map Token.unplaced = tokens.map Token.unplaced) (kind : last.kind = .endOfFile)
    (outcomes : Lexer.outcomes source = (placed ++ [last]).map Except.ok) :
    ∃ program after, parse (Session.ofString source) = .ok program after := by
  have equal : placed.length = tokens.length := by simpa using congrArg List.length same
  obtain ⟨first, others, rfl⟩ : ∃ first others, tokens = first :: others := by
    cases derived with
    | mk => exact ⟨_, _, rfl⟩
  obtain ⟨head, tail, rfl⟩ := List.exists_cons_of_length_pos (by rw [equal]; simp)
  rw [List.map_append, List.map_cons, List.cons_append] at outcomes
  have stands : (Session.begun first (others.map Except.ok ++ [.ok last])).Stands
      ((first :: others) ++ [last]) [] := by
    have reach := Reach.ended (ended_append more kind)
    simpa using stands_begun reach
  obtain ⟨value, after, done, _⟩ := complete_program
    ((tail.map Except.ok ++ [.ok last] : List (Except LexError Token)).length + 2) derived
    (by simp at equal ⊢; omega) small stands
  obtain ⟨program, after, parsed⟩ := exists_ok_of_unplaced done same.symm
  rw [parse_of_ok outcomes]
  exact ⟨program, after, parsed⟩

end Parser
end MiniPascal
