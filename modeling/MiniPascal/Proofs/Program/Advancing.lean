import MiniPascal.Proofs.Program.Origins
import MiniPascal.Proofs.Program.Viability

/-! # What a parser reads

Unless a parser meets an unknown character or refuses a literal, it reads every token that it takes:
no outcome is passed over. It moves behind an integer constant only if the constant is small
enough. -/
set_option autoImplicit false
namespace MiniPascal

namespace Session

/-- The tokens that have been read, and the outcomes to come. -/
def met (session : Session) : List (Except LexError Token) :=
  session.read.reverse.map Except.ok ++ session.upcoming

/-- The later session goes on where the first one stands. What is read is still met, and the tokens
that have been moved behind are constants that fit, or no constants. -/
structure Advances (session after : Session) : Prop where
  met : session.met <+: after.met
  fits : (∀ token ∈ session.read.tail, token.Fits) → ∀ token ∈ after.read.tail, token.Fits

theorem Advances.refl (session : Session) : session.Advances session :=
  ⟨List.prefix_refl _, id⟩

theorem Advances.trans {first second third : Session} (left : first.Advances second)
    (right : second.Advances third) : first.Advances third :=
  ⟨left.met.trans right.met, right.fits ∘ left.fits⟩

/-- The result is a session that the first one advances to, unless a character is unknown or a
literal is refused. -/
def AdvancesTo {α : Type} (session : Session) : EStateM.Result ParseError Session α → Prop
  | .ok _ after | .error (.unexpectedToken _ _) after => session.Advances after
  | .error _ _ => True

theorem AdvancesTo.trans {α : Type} {first second : Session}
    {outcome : EStateM.Result ParseError Session α} (left : first.Advances second)
    (right : second.AdvancesTo outcome) : first.AdvancesTo outcome := by
  match outcome, right with
  | .ok _ _, right | .error (.unexpectedToken _ _) _, right => exact left.trans right
  | .error (.lexical _) _, _ | .error (.invalidLiteral _) _, _ => trivial

/-- Looking at the next outcome. -/
theorem met_of_advanced {session : Session} {token : Token} {stream : TokenStream}
    (free : session.lookahead = none) (advanced : session.stream.advance = (.ok token, stream)) :
    session.met <+: met { session with stream := stream, lookahead := some token } := by
  obtain ⟨⟨pending, taken⟩, read, _, nextId, procedures⟩ := session
  subst free
  cases pending with
  | nil =>
      simp only [met, upcoming]
      exact List.prefix_append_right_inj _ |>.mpr List.nil_prefix
  | cons outcome rest =>
      cases outcome with
      | ok next =>
          cases advanced
          exact List.prefix_refl _
      | error error => cases advanced

/-- The next token becomes the current one. -/
theorem advances_of_looked {session : Session} {token : Token}
    (looked : session.lookahead = some token) (fits : session.current.Fits) :
    session.Advances { session with read := token :: session.read, lookahead := none } := by
  obtain ⟨stream, read, _, nextId, procedures⟩ := session
  subst looked
  refine ⟨?_, fun small => ?_⟩
  · simp [met, upcoming]
  · cases read with
    | nil => exact fun _ member => absurd member List.not_mem_nil
    | cons current others => exact List.forall_mem_cons.mpr ⟨fits, small⟩

end Session

namespace Parse

/-- A parser reads what it takes. -/
def Advances {α : Type} (parser : Parse α) : Prop :=
  ∀ session : Session, session.AdvancesTo (parser session)

/-- The same for sessions with the given current token. -/
def AdvancesFrom {α : Type} (current : Token) (parser : Parse α) : Prop :=
  ∀ session : Session, session.current = current → session.AdvancesTo (parser session)

variable {α β : Type} {parser : Parse α} {further : α → Parse β} {current : Token}

theorem advancesTo_bind {session : Session} (first : session.AdvancesTo (parser session))
    (second : ∀ value after, parser session = .ok value after →
      after.AdvancesTo (further value after)) :
    session.AdvancesTo ((parser >>= further) session) := by
  cases done : parser session with
  | ok value after =>
      rw [done] at first
      rw [bind_eq done]
      exact .trans first (second value after done)
  | error error after =>
      rw [done] at first
      rw [bind_eq_error done]
      cases error <;> exact first

namespace Advances

theorem pure (value : α) : Advances (pure value : Parse α) :=
  fun session => .refl session

theorem bind (first : Advances parser) (second : ∀ value, Advances (further value)) :
    Advances (parser >>= further) :=
  fun session => advancesTo_bind (first session) fun value after _ => second value after

theorem anywhere (advances : Advances parser) : AdvancesFrom current parser :=
  fun session _ => advances session

theorem refuse (expected : Expectation) : Advances (Session.refuse expected : Parse α) :=
  fun session => .refl session

theorem throw (literal : Token) :
    Advances (throw (.invalidLiteral literal) : Parse α) :=
  fun _ => trivial

theorem freshId : Advances Session.freshId :=
  fun _ => ⟨List.prefix_refl _, id⟩

theorem learn (name : String) : Advances (Session.learn name) :=
  fun _ => ⟨List.prefix_refl _, id⟩

theorem knows (name : String) : Advances (Session.knows name) :=
  fun session => .refl session

theorem isAt (kind : TokenKind) : Advances (Session.isAt kind) :=
  fun session => .refl session

theorem isNext (kind : TokenKind) : Advances (Session.isNext kind) := by
  intro session
  rw [Session.isNext]
  split
  · exact .refl session
  · rename_i free
    split
    · rename_i advanced
      exact ⟨Session.met_of_advanced free advanced, id⟩
    · trivial

theorem currentToken {further : Token → Parse β}
    (behind : ∀ token, AdvancesFrom token (further token)) :
    Advances (Session.currentToken >>= further) :=
  fun session => behind session.current session rfl

end Advances

theorem advancesTo_consume {session : Session} (fits : session.current.Fits) :
    session.AdvancesTo (Session.consume session) := by
  cases looked : session.lookahead with
  | some next =>
      rw [consume_of_looked looked]
      exact Session.advances_of_looked looked fits
  | none =>
      rcases advanced : session.stream.advance with ⟨error | next, stream⟩
      · rw [consume_of_blocked looked advanced]
        trivial
      · rw [consume_of_advanced looked advanced]
        let middle : Session := { session with stream := stream, lookahead := some next }
        have first : session.Advances middle := ⟨Session.met_of_advanced looked advanced, id⟩
        have second : middle.current.Fits := fits
        exact first.trans (Session.advances_of_looked rfl second)

/-- A token that fits is moved behind. -/
theorem AdvancesFrom.consume {further : Unit → Parse β} (fits : current.Fits)
    (behind : Advances (further ())) :
    AdvancesFrom current (Session.consume >>= further) := by
  rintro session rfl
  exact advancesTo_bind (advancesTo_consume fits) fun _ after _ => behind after

namespace Advances

theorem expect {kind : TokenKind} (other : kind ≠ .integerConst) :
    Advances (Session.expect kind) := by
  refine currentToken fun token => ?_
  split
  · rename_i same
    exact .consume (Token.fits_of_kind same other) (.pure token)
  · exact (refuse _).anywhere

theorem accept {kind : TokenKind} (other : kind ≠ .integerConst) :
    Advances (Session.accept kind) := by
  intro session
  refine advancesTo_bind (.refl session) fun found after looked => ?_
  cases looked
  by_cases same : session.current.kind = kind
  · rw [if_pos (decide_eq_true same)]
    exact AdvancesFrom.consume (Token.fits_of_kind same other) (.pure true) session rfl
  · rw [if_neg (by simpa using same)]
    exact .refl session

end Advances
end Parse
end MiniPascal
