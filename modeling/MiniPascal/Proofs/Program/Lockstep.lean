import MiniPascal.Proofs.Program.Keeping

/-! # Parsers in lockstep

A session goes on by the operations of a parse, which asks the lexer for a token only where the
current one is not the end of the text. Two parsers that do the same in a session and go on in this
way are twins there. Behind a token that has been taken it is enough that they are twins in later
sessions. -/
set_option autoImplicit false
namespace MiniPascal

namespace Session

/-- What a session becomes by the operations of a parse. The lexer is asked for a token only where
none is looked at in advance and the current one does not end the text. -/
inductive Goes : Session → Session → Prop where
  | refl (session : Session) : Goes session session
  | shifted {start session : Session} {token : Token} : Goes start session →
      session.lookahead = some token →
      Goes start { session with read := token :: session.read, lookahead := none }
  | advanced {start session : Session} {token : Token} {stream : TokenStream} :
      Goes start session → session.lookahead = none → session.current.kind ≠ .endOfFile →
      session.stream.advance = (.ok token, stream) →
      Goes start { session with stream := stream, read := token :: session.read, lookahead := none }
  | looked {start session : Session} {token : Token} {stream : TokenStream} :
      Goes start session → session.lookahead = none → session.current.kind ≠ .endOfFile →
      session.stream.advance = (.ok token, stream) →
      Goes start { session with stream := stream, lookahead := some token }
  | numbered {start session : Session} : Goes start session →
      Goes start { session with nextId := session.nextId + 1 }
  | learned {start session : Session} (name : String) : Goes start session →
      Goes start { session with procedures := name :: session.procedures }

/-- The last thing that a parse has done is to ask for a token in vain, in a session where it may
ask. -/
structure Blocked (start : Session) (error : ParseError) (after : Session) : Prop where
  asked : ∃ last unknown stream, start.Goes last ∧ last.lookahead = none
    ∧ last.current.kind ≠ .endOfFile ∧ last.stream.advance = (.error unknown, stream)
    ∧ error = .lexical unknown ∧ after = { last with stream := stream }

/-- Where a parse has come to, whether it succeeds or fails, it has come by the operations of a
session. -/
def Walked {α : Type} (start : Session) : EStateM.Result ParseError Session α → Prop
  | .ok _ after => start.Goes after
  | .error error after => start.Goes after ∨ start.Blocked error after

variable {start session after : Session}

theorem Goes.trans (goes : start.Goes session) (further : session.Goes after) :
    start.Goes after := by
  induction further with
  | refl => exact goes
  | shifted _ looked ih => exact ih.shifted looked
  | advanced _ free more advanced ih => exact ih.advanced free more advanced
  | looked _ free more advanced ih => exact ih.looked free more advanced
  | numbered _ ih => exact ih.numbered
  | learned name _ ih => exact ih.learned name

/-- Tokens that have been read stay. -/
theorem Goes.read_le (goes : start.Goes session) : start.read.length ≤ session.read.length := by
  induction goes with
  | refl => exact Nat.le_refl _
  | shifted _ _ ih => exact Nat.le_succ_of_le ih
  | advanced _ _ _ _ ih => exact Nat.le_succ_of_le ih
  | looked _ _ _ _ ih => exact ih
  | numbered _ ih => exact ih
  | learned _ _ ih => exact ih

theorem Walked.of_goes {α : Type} {result : EStateM.Result ParseError Session α}
    (goes : start.Goes session) (walked : session.Walked result) : start.Walked result := by
  cases result with
  | ok value after => exact goes.trans walked
  | error error after =>
      rcases walked with further | ⟨last, unknown, stream, further, rest⟩
      · exact .inl (goes.trans further)
      · exact .inr ⟨last, unknown, stream, goes.trans further, rest⟩

end Session

/-! ## Parsers that do the same -/

namespace Parse

variable {α β : Type} {start session : Session} {first second : Parse α}
  {further further' : α → Parse β}

/-- In this session the two parsers do the same, by the operations of a session. -/
structure Twins (session : Session) (first second : Parse α) : Prop where
  same : first session = second session
  walked : session.Walked (first session)

/-- Twins that come to a value only behind a token. -/
structure Strides (session : Session) (first second : Parse α) : Prop
    extends Twins session first second where
  ahead : ∀ value after, first session = .ok value after →
    session.read.length < after.read.length

/-- The two parsers are twins in all later sessions with more tokens read. -/
def Behind (start : Session) (first second : Parse α) : Prop :=
  ∀ session, start.Goes session → start.read.length < session.read.length →
    Twins session first second

theorem Behind.mono (behind : Behind start first second) (goes : start.Goes session) :
    Behind session first second :=
  fun later further more => behind later (goes.trans further)
    (Nat.lt_of_le_of_lt goes.read_le more)

theorem Behind.of_all (all : ∀ session, Twins session first second) :
    Behind start first second :=
  fun session _ _ => all session

namespace Twins

theorem bind (twins : Twins start first second)
    (rest : ∀ value after, first start = .ok value after → start.Goes after →
      Twins after (further value) (further' value)) :
    Twins start (first >>= further) (second >>= further') := by
  obtain ⟨same, walked⟩ := twins
  cases done : first start with
  | ok value after =>
      rw [done] at walked
      have more := rest value after done walked
      constructor
      · rw [bind_eq done, bind_eq (same.symm.trans done), more.same]
      · rw [bind_eq done]
        exact more.walked.of_goes walked
  | error error after =>
      rw [done] at walked
      constructor
      · rw [bind_eq_error done, bind_eq_error (same.symm.trans done)]
      · rw [bind_eq_error done]
        exact walked

theorem then_all (twins : Twins start first second)
    (rest : ∀ value session, Twins session (further value) (further' value)) :
    Twins start (first >>= further) (second >>= further') :=
  twins.bind fun value after _ _ => rest value after

theorem pure (value : α) (session : Session) :
    Twins session (Pure.pure value) (Pure.pure value) :=
  ⟨rfl, .refl session⟩

theorem refuse (expected : Expectation) (session : Session) :
    Twins session (Session.refuse expected : Parse α) (Session.refuse expected) :=
  ⟨rfl, .inl (.refl session)⟩

theorem throw (error : ParseError) (session : Session) :
    Twins session (throw error : Parse α) (throw error) :=
  ⟨rfl, .inl (.refl session)⟩

theorem freshId (session : Session) : Twins session Session.freshId Session.freshId :=
  ⟨rfl, .numbered (.refl session)⟩

theorem learn (name : String) (session : Session) :
    Twins session (Session.learn name) (Session.learn name) :=
  ⟨rfl, .learned name (.refl session)⟩

theorem knows (name : String) (session : Session) :
    Twins session (Session.knows name) (Session.knows name) :=
  ⟨rfl, .refl session⟩

theorem isAt (kind : TokenKind) (session : Session) :
    Twins session (Session.isAt kind) (Session.isAt kind) :=
  ⟨rfl, .refl session⟩

theorem currentToken {further further' : Token → Parse β}
    (rest : Twins start (further start.current) (further' start.current)) :
    Twins start (Session.currentToken >>= further) (Session.currentToken >>= further') :=
  ⟨rest.same, rest.walked⟩

/-- The token behind the current one may be looked at unless that ends the text. -/
theorem isNext (kind : TokenKind) (more : start.current.kind ≠ .endOfFile) :
    Twins start (Session.isNext kind) (Session.isNext kind) := by
  refine ⟨rfl, ?_⟩
  rw [Session.isNext]
  split
  · exact .refl start
  · rename_i free
    split
    · rename_i advanced
      exact .looked (.refl start) free more advanced
    · rename_i error stream advanced
      exact .inr ⟨start, error, stream, .refl start, free, more, advanced, rfl, rfl⟩

end Twins

namespace Strides

/-- The next token may be taken unless the current one ends the text. -/
theorem consume (more : start.current.kind ≠ .endOfFile) :
    Strides start Session.consume Session.consume := by
  cases looked : start.lookahead with
  | some token =>
      have done := consume_of_looked looked
      refine ⟨⟨rfl, ?_⟩, fun value after same => ?_⟩
      · rw [done]
        exact .shifted (.refl start) looked
      · rw [done] at same
        cases same
        exact Nat.lt_succ_self _
  | none =>
      rcases advanced : start.stream.advance with ⟨error | token, stream⟩
      · have done := consume_of_blocked looked advanced
        refine ⟨⟨rfl, ?_⟩, fun value after same => ?_⟩
        · rw [done]
          exact .inr ⟨start, error, stream, .refl start, looked, more, advanced, rfl, rfl⟩
        · rw [done] at same
          cases same
      · have done := consume_of_advanced looked advanced
        refine ⟨⟨rfl, ?_⟩, fun value after same => ?_⟩
        · rw [done]
          exact .advanced (.refl start) looked more advanced
        · rw [done] at same
          cases same
          exact Nat.lt_succ_self _

/-- Behind a token that has been taken, the others need to be twins only there. -/
theorem bind (strides : Strides start first second)
    (rest : ∀ value, Behind start (further value) (further' value)) :
    Strides start (first >>= further) (second >>= further') := by
  have twins : Twins start (first >>= further) (second >>= further') :=
    strides.toTwins.bind fun value after done goes =>
      rest value after goes (strides.ahead value after done)
  refine ⟨twins, fun value after done => ?_⟩
  obtain ⟨middle, between, taken, ended⟩ := bind_eq_ok done
  have ahead := strides.ahead middle between taken
  have goes := strides.walked
  rw [taken] at goes
  have further := (rest middle between goes ahead).walked
  rw [ended] at further
  exact Nat.lt_of_lt_of_le ahead further.read_le

theorem expect {kind : TokenKind} (more : kind ≠ .endOfFile) :
    Strides start (Session.expect kind) (Session.expect kind) := by
  have opened : Session.expect kind start = (if start.current.kind = kind then
      Session.consume >>= fun _ => Pure.pure start.current
      else Session.refuse (.token kind) : Parse Token) start := rfl
  by_cases same : start.current.kind = kind
  · rw [if_pos same] at opened
    have taken : Strides start (Session.consume >>= fun _ => Pure.pure start.current)
        (Session.consume >>= fun _ => Pure.pure start.current) :=
      (consume (same ▸ more)).bind fun _ => .of_all (.pure _)
    refine ⟨⟨rfl, ?_⟩, fun value after done => ?_⟩
    · rw [opened]
      exact taken.walked
    · rw [opened] at done
      exact taken.ahead value after done
  · rw [if_neg same] at opened
    refine ⟨⟨rfl, ?_⟩, fun value after done => ?_⟩
    · rw [opened]
      exact .inl (.refl start)
    · rw [opened] at done
      cases done

end Strides

/-- An optional token: behind it the others need to be twins only there. -/
theorem Twins.accept {kind : TokenKind} {further further' : Bool → Parse β}
    (more : kind ≠ .endOfFile) (found : Behind start (further true) (further' true))
    (other : Twins start (further false) (further' false)) :
    Twins start (Session.accept kind >>= further) (Session.accept kind >>= further') := by
  have opened := fun further : Bool → Parse β => accept_bind_eq kind further start
  by_cases same : start.current.kind = kind
  · have taken : Strides start (Session.consume >>= fun _ => further true)
        (Session.consume >>= fun _ => further' true) :=
      (Strides.consume (same ▸ more)).bind fun _ => found
    constructor
    · rw [opened, opened, if_pos same, if_pos same, taken.same]
    · rw [opened, if_pos same]
      exact taken.walked
  · constructor
    · rw [opened, opened, if_neg same, if_neg same, other.same]
    · rw [opened, if_neg same]
      exact other.walked

theorem Behind.bind (behind : Behind start first second)
    (rest : ∀ value, Behind start (further value) (further' value)) :
    Behind start (first >>= further) (second >>= further') :=
  fun session goes more => (behind session goes more).bind fun value after _ onward =>
    rest value after (goes.trans onward) (Nat.lt_of_lt_of_le more onward.read_le)

theorem Behind.accept {kind : TokenKind} {further further' : Bool → Parse β}
    (more : kind ≠ .endOfFile) (found : Behind start (further true) (further' true))
    (other : Behind start (further false) (further' false)) :
    Behind start (Session.accept kind >>= further) (Session.accept kind >>= further') :=
  fun session goes ahead => .accept more (found.mono goes) (other session goes ahead)

theorem Behind.expect {kind : TokenKind} (more : kind ≠ .endOfFile) :
    Behind start (Session.expect kind) (Session.expect kind) :=
  fun _ _ _ => (Strides.expect more).toTwins

/-- A node gets its number last. -/
theorem Behind.node (make : NodeId → α) :
    Behind start (do return make (← Session.freshId)) (do return make (← Session.freshId)) :=
  .of_all fun session => (Twins.freshId session).then_all fun _ => .pure _

end Parse
end MiniPascal
