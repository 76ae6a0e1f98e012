import Mathlib.Data.List.Basic
import MiniPascal.Proofs.Program.ParsingTaken
import MiniPascal.Proofs.Token.Cutting

/-! # The first error of a text

What follows the place of an error has no influence on which error is found, with one exception. A
literal that is too large is refused only after the token behind it has been taken. If the literal
is the last token of a text and an unknown character is put behind it, that character is reported
and the literal is not. -/
set_option autoImplicit false
namespace MiniPascal.Parser

/-- Parsing the text fails with the error. -/
def FailsWith (source : String) (error : ParseError) : Prop :=
  ∃ after, parse (Session.ofString source) = .error error after

/-- The error that parsing the text fails with, if it fails. -/
def error? (source : String) : Option ParseError :=
  match parse (Session.ofString source) with
  | .error error _ => some error
  | .ok _ _ => none

theorem error?_eq_some_iff {source : String} {error : ParseError} :
    error? source = some error ↔ FailsWith source error := by
  unfold error? FailsWith
  cases parse (Session.ofString source) <;> simp

instance (source : String) (error : ParseError) : Decidable (FailsWith source error) :=
  decidable_of_iff _ error?_eq_some_iff

/-- The error is a literal that is refused at the end of the text, and an unknown character is the
next outcome if the given text stands behind a blank. -/
def Overtaken (source text : String) (error : ParseError) (after : Session) (unknown : LexError) :
    Prop :=
  (∃ literal, error = .invalidLiteral literal) ∧ after.current.kind = .endOfFile
    ∧ (Lexer.outcomes (source ++ " " ++ text))[(Lexer.outcomes source).length - 1]?
      = some (.error unknown)

theorem FailsWith.eq {source : String} {error other : ParseError} (fails : FailsWith source error)
    (fails' : FailsWith source other) : error = other := by
  rw [← error?_eq_some_iff] at fails fails'
  exact Option.some.inj (fails.symm.trans fails')

/-- The end is the last outcome, so all outcomes in front of it have been passed. -/
theorem eq_of_ended {used front after : List (Except LexError Token)} {token last : Token}
    (free : ∀ token, .ok token ∈ front → token.kind ≠ .endOfFile) (ended : token.kind = .endOfFile)
    (same : front ++ [.ok last] = used ++ .ok token :: after) : front = used := by
  cases after with
  | nil => exact List.append_inj_left' same rfl
  | cons first rest =>
      rw [List.append_cons used] at same
      obtain ⟨between, rfl⟩ := exists_of_append_eq (List.cons_ne_nil _ _) same
      exact absurd ended (free token (by simp))

/-- Nothing of a text is taken but its end: then the end is what is not expected. -/
theorem parse_of_ended {source : String} {last : Token}
    (outcomes : Lexer.outcomes source = [.ok last]) (kind : last.kind = .endOfFile) :
    ∃ after, parse (Session.ofString source)
      = .error (.unexpectedToken (.token .program) last) after := by
  refine ⟨(Session.ofString source).moved last [], ?_⟩
  rw [parse_of_ok outcomes]
  apply Parse.bind_eq_error
  have other : last.kind ≠ .program := kind ▸ by decide
  rw [Session.expect, Parse.bind_eq (show Session.currentToken _ = .ok last _ from rfl),
    if_neg other]
  rfl

/-- A text that goes on behind a blank is a run of the same parser on other outcomes, which differ
only in place of the end. -/
theorem exists_taken {source : String} {error : ParseError} {after : Session}
    (failed : parse (Session.ofString source) = .error error after)
    (early : ∀ expected got, error = .unexpectedToken expected got → got.kind ≠ .endOfFile)
    (text : String) :
    ((∃ unknown, error = .lexical unknown) ∧ FailsWith (source ++ " " ++ text) error)
      ∨ ∃ (start : Session) (second : Parse Program) (front : List (Except LexError Token))
        (last : Token) (outcome : Except LexError Token) (others : List (Except LexError Token)),
        start.stream.pending = front ++ [.ok last]
          ∧ (∀ token, .ok token ∈ front → token.kind ≠ .endOfFile)
          ∧ Taken start second (.error error after)
          ∧ (∀ other, (∃ later, second (start.awaiting (front ++ outcome :: others))
            = .error other later) → FailsWith (source ++ " " ++ text) other)
          ∧ (Lexer.outcomes (source ++ " " ++ text))[(Lexer.outcomes source).length - 1]?
            = some outcome := by
  obtain ⟨front, last, more, outcomes, kind, free, nonempty, longer⟩ :=
    Lexer.exists_front source text
  obtain ⟨outcome, others, rfl⟩ := List.exists_cons_of_ne_nil nonempty
  have next : (Lexer.outcomes (source ++ " " ++ text))[(Lexer.outcomes source).length - 1]?
      = some outcome := by
    simp [outcomes, longer]
  cases front with
  | nil =>
      obtain ⟨later, same⟩ := parse_of_ended outcomes kind
      rw [failed] at same
      injection same with same
      exact absurd kind (early _ _ same)
  | cons first front =>
      rw [List.cons_append] at outcomes longer
      cases first with
      | error unknown =>
          rw [parse_of_error outcomes] at failed
          injection failed with same
          subst same
          exact .inl ⟨⟨unknown, rfl⟩, _, parse_of_error longer⟩
      | ok token =>
          have closed : Closed (.ok token :: (front ++ [.ok last])) :=
            ⟨last, by rw [← List.cons_append, List.getLast?_concat], kind⟩
          obtain ⟨start, second, pending, taken, again⟩ := taken_parse outcomes closed longer (by
            simp only [List.length_append, List.length_cons, List.length_nil]
            omega)
          rw [failed] at taken
          refine .inr ⟨start, second, front, last, outcome, others, pending,
            fun token member => free token (List.mem_cons_of_mem _ member), taken, ?_, next⟩
          rintro other ⟨later, same⟩
          exact ⟨later, again.trans same⟩

/-- Whatever follows a text behind a blank, parsing fails with the error that the text alone fails
with. The exception is a literal that is refused at the end of the text: an unknown character that
then is the next outcome is the error instead. -/
theorem failsWith_append_iff {source : String} {error : ParseError} {after : Session}
    (failed : parse (Session.ofString source) = .error error after)
    (early : ∀ expected got, error = .unexpectedToken expected got → got.kind ≠ .endOfFile)
    (text : String) :
    (FailsWith (source ++ " " ++ text) error
        ↔ ¬ ∃ unknown, Overtaken source text error after unknown)
      ∧ ∀ unknown, Overtaken source text error after unknown →
        FailsWith (source ++ " " ++ text) (.lexical unknown) := by
  have kept : FailsWith (source ++ " " ++ text) error →
      (∀ unknown, ¬ Overtaken source text error after unknown) →
      (FailsWith (source ++ " " ++ text) error
          ↔ ¬ ∃ unknown, Overtaken source text error after unknown)
        ∧ ∀ unknown, Overtaken source text error after unknown →
          FailsWith (source ++ " " ++ text) (.lexical unknown) := by
    intro fails never
    exact ⟨⟨fun _ ⟨unknown, overtaken⟩ => never unknown overtaken, fun _ => fails⟩,
      fun unknown overtaken => absurd overtaken (never unknown)⟩
  rcases exists_taken failed early text with ⟨⟨unknown, rfl⟩, fails⟩
    | ⟨start, second, front, last, outcome, others, pending, free, taken, fails, next⟩
  · refine kept fails ?_
    rintro other ⟨⟨_, impossible⟩, _⟩
    cases impossible
  · cases taken with
    | @stopped _ _ used split ready blames again =>
        -- The parser has stopped in front of the end, where the longer text has the same tokens.
        rw [pending] at split
        obtain ⟨between, rfl⟩ := ready.exists_between (blames.more early) split
        refine kept (fails _ ?_) ?_
        · rw [List.append_assoc]
          exact again _
        · rintro unknown ⟨⟨literal, rfl⟩, _⟩
          exact blames
    | @refused literal _ used split ready again overtaken =>
        by_cases ended : after.current.kind = .endOfFile
        -- What was the end behind the literal is another outcome in the longer text.
        · rw [pending] at split
          obtain rfl := eq_of_ended free ended split
          cases outcome with
          | ok token =>
              refine kept (fails _ (again token others)) ?_
              rintro unknown ⟨_, _, same⟩
              rw [next] at same
              cases same
          | error unknown =>
              have overtakes : Overtaken source text (.invalidLiteral literal) after unknown :=
                ⟨⟨literal, rfl⟩, ended, next⟩
              have instead := fails _ (overtaken unknown others)
              refine ⟨⟨fun same => ?_, fun never => absurd ⟨unknown, overtakes⟩ never⟩, ?_⟩
              · cases same.eq instead
              · rintro other ⟨_, _, same⟩
                rw [next] at same
                cases same
                exact instead
        · rw [pending, List.append_cons used] at split
          obtain ⟨between, rfl⟩ := ready.exists_between ended split
          refine kept (fails _ ?_) ?_
          · rw [List.append_assoc, List.append_assoc, List.singleton_append]
            exact again _ _
          · rintro unknown ⟨_, same, _⟩
            exact ended same

/-- A text that ends with a literal one greater than the greatest. -/
def large : String :=
  "PROGRAM p; BEGIN x := 9223372036854775808"

def largeLiteral : Token :=
  ⟨.integerConst, "9223372036854775808", ⟨1, 23⟩⟩

theorem failsWith_append_iff_large : FailsWith large (.invalidLiteral largeLiteral)
    ∧ FailsWith (large ++ " " ++ "END. $") (.invalidLiteral largeLiteral) := by
  have fails : FailsWith large (.invalidLiteral largeLiteral) := by decide +kernel
  have known : (Lexer.outcomes (large ++ " " ++ "END. $"))[(Lexer.outcomes large).length - 1]?
      = some (.ok ⟨.finish, "END", ⟨1, 43⟩⟩) := by decide +kernel
  obtain ⟨after, failed⟩ := fails
  refine ⟨⟨after, failed⟩, (failsWith_append_iff failed (by rintro _ _ ⟨⟩) "END. $").1.mpr ?_⟩
  rintro ⟨unknown, _, _, same⟩
  rw [known] at same
  cases same

/-- An unknown character behind the literal hides it. -/
theorem not_failsWith_large : FailsWith large (.invalidLiteral largeLiteral)
    ∧ FailsWith (large ++ " " ++ "$") (.lexical ⟨⟨1, 43⟩, '$'⟩)
    ∧ ¬ FailsWith (large ++ " " ++ "$") (.invalidLiteral largeLiteral) := by
  decide +kernel

end MiniPascal.Parser
