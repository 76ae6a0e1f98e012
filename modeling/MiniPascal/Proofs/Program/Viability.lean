import MiniPascal.Proofs.Program.Succession
import MiniPascal.Proofs.Token.Places

/-! # What has been taken can be completed

A parser refuses a token only where no other choice is left. What it has taken in front of that
token is the beginning of something that it parses: a few tokens of fixed texts complete it. They
say as little as possible, an empty statement or a single name, and call no procedure. -/
set_option autoImplicit false
namespace MiniPascal

/-! ## Tokens that complete -/

/-- A token of a kind with its usual text, and a name where a kind has many texts. -/
def Token.filler (kind : TokenKind) : Token :=
  ⟨kind, kind.spelling?.getD "x", Position.start⟩

theorem Token.kind_filler (kind : TokenKind) : (Token.filler kind).kind = kind :=
  rfl

/-- A name, a symbol or a reserved word. -/
def Token.Fills (token : Token) : Prop :=
  token = .filler token.kind ∧ token.kind ≠ .endOfFile ∧ token.kind ≠ .integerConst
    ∧ token.kind ≠ .realConst

instance (token : Token) : Decidable token.Fills :=
  inferInstanceAs (Decidable (_ ∧ _ ∧ _ ∧ _))

/-- With some tokens of fixed texts behind them the tokens derive something. -/
def Completable {β : Type} (Derives : List Token → β → Prop) (tokens : List Token) : Prop :=
  ∃ ahead tree, (∀ token ∈ ahead, token.Fills) ∧ Derives (tokens ++ ahead) tree

/-- What completes a part completes the whole with what comes behind the part. -/
theorem Completable.wrap {β γ : Type} {Derives : List Token → β → Prop}
    {Whole : List Token → γ → Prop} {used : List Token} (begun : Completable Derives used)
    (before more : List Token) (fills : ∀ token ∈ more, token.Fills)
    (wraps : ∀ tokens tree, Derives tokens tree →
      ∃ whole, Whole (before ++ (tokens ++ more)) whole) :
    Completable Whole (before ++ used) := by
  obtain ⟨ahead, tree, own, derived⟩ := begun
  obtain ⟨whole, derived⟩ := wraps _ tree derived
  exact ⟨ahead ++ more, whole, List.forall_mem_append.mpr ⟨own, fills⟩, by simpa using derived⟩

theorem Completable.of_derived {β : Type} {Derives : List Token → β → Prop} {used : List Token}
    {tree : β} (derived : Derives used tree) : Completable Derives used :=
  ⟨[], tree, by simp, by simpa using derived⟩

theorem Completable.map {β γ : Type} {Derives : List Token → β → Prop}
    {Whole : List Token → γ → Prop} {used : List Token} (begun : Completable Derives used)
    (whole : ∀ tokens tree, Derives tokens tree → ∃ whole, Whole tokens whole) :
    Completable Whole used :=
  begun.wrap [] [] (by simp) fun tokens tree derived => by simpa using whole tokens tree derived

/-- Behind an opening bracket and a beginning, the rest and the closing bracket are missing. -/
theorem Completable.bracket {α : Type} {opening closing : TokenKind}
    {Inner : List Token → α → Prop} {used : List Token} (begun : Completable Inner used)
    {first : Token} (opens : first.kind = opening) (fills : (Token.filler closing).Fills) :
    Completable (Grammar.Bracketed opening closing Inner) (first :: used) :=
  begun.wrap [first] [.filler closing] (by simpa using fills) fun _ tree inner =>
    ⟨tree, .mk opens inner rfl⟩

/-- The refused token stands behind tokens with the property, and the session has stopped there. -/
def Refused (tokens : List Token) (got : Token) (after : Session) (Before : List Token → Prop) :
    Prop :=
  ∃ used rest known, tokens = used ++ got :: rest ∧ Before used ∧ after.Stands (got :: rest) known

theorem Refused.behind {rest : List Token} {got : Token} {after : Session}
    {Before Whole : List Token → Prop} (refused : Refused rest got after Before)
    (first : List Token) (further : ∀ used, Before used → Whole (first ++ used)) :
    Refused (first ++ rest) got after Whole := by
  obtain ⟨used, others, known, rfl, holds, stood⟩ := refused
  exact ⟨first ++ used, others, known, by simp, further used holds, stood⟩

namespace Session

variable {session after : Session} {tokens : List Token} {known : List String} {got : Token}
  {expected : Expectation} {Before : List Token → Prop}

theorem consume_ne_unexpected :
    consume session ≠ .error (.unexpectedToken expected got) after := by
  intro failed
  obtain ⟨_, _, _, same, _⟩ := advance_of_failed (.inl failed)
  cases same

theorem isNext_ne_unexpected {kind : TokenKind} :
    isNext kind session ≠ .error (.unexpectedToken expected got) after := by
  intro failed
  obtain ⟨_, _, _, same, _⟩ := advance_of_failed (.inr ⟨kind, failed⟩)
  cases same

end Session

namespace Parse

variable {α β : Type} {parser : Parse α} {further : α → Parse β} {session after : Session}
  {error : ParseError}

/-- A sequence fails in its first part or behind it. -/
theorem error_of_bind (failed : (parser >>= further) session = .error error after) :
    parser session = .error error after ∨ ∃ value between,
      parser session = .ok value between ∧ further value between = .error error after := by
  cases done : parser session with
  | error other between =>
      rw [bind_eq_error done] at failed
      injection failed with same stays
      exact .inl (by rw [same, stays])
  | ok value between =>
      rw [bind_eq done] at failed
      exact .inr ⟨value, between, rfl, failed⟩

end Parse

namespace Session

variable {session after : Session} {tokens : List Token} {known : List String} {got : Token}
  {expected : Expectation} {Before : List Token → Prop} {kind : TokenKind}

theorem accept_ne_unexpected :
    accept kind session ≠ .error (.unexpectedToken expected got) after := by
  intro failed
  obtain failed | ⟨found, between, _, failed⟩ := Parse.error_of_bind failed
  · cases failed
  · split at failed
    · obtain failed | ⟨_, _, _, failed⟩ := Parse.error_of_bind failed
      · exact consume_ne_unexpected failed
      · cases failed
    · cases failed

namespace Stands

/-- Refusing a token stops in front of it. -/
theorem refused {α : Type} {other : Expectation} (stands : session.Stands tokens known)
    (failed : (refuse other : Parse α) session = .error (.unexpectedToken expected got) after)
    (before : Before []) : Refused tokens got after Before := by
  obtain ⟨rest, rfl⟩ := stands.exists_cons
  cases failed
  exact ⟨[], rest, known, rfl, before, stands⟩

theorem refused_of_expect (stands : session.Stands tokens known)
    (failed : expect kind session = .error (.unexpectedToken expected got) after)
    (before : Before []) : Refused tokens got after Before := by
  obtain failed | ⟨token, between, looked, failed⟩ := Parse.error_of_bind failed
  · cases failed
  cases looked
  split at failed
  · obtain failed | ⟨_, _, _, failed⟩ := Parse.error_of_bind failed
    · exact absurd failed consume_ne_unexpected
    · cases failed
  · exact stands.refused failed before

end Stands
end Session

/-- What the parser has taken in front of a token that it refuses is the beginning of something
derived. -/
def Parse.Viable {α β : Type} (known : List String) (parser : Parse α)
    (Derives : List Token → β → Prop) : Prop :=
  ∀ ⦃session : Session⦄ ⦃tokens : List Token⦄, session.Stands tokens known →
    ∀ ⦃expected : Expectation⦄ ⦃got : Token⦄ ⦃after : Session⦄,
      parser session = .error (.unexpectedToken expected got) after →
        Refused tokens got after (Completable Derives)

end MiniPascal
