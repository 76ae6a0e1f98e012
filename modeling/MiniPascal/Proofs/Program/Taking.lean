import MiniPascal.Proofs.Program.Standing

/-! # What a parser takes

A parser takes some of the outcomes to come and never looks at the others: with others in their
place it does the same, and so does the same parser with another bound. An error is about the
current token or about the unknown character taken last. Only a literal is refused later than it is
seen: the parser has moved to the token behind it by then, and if an unknown character stands there,
that is the error instead. -/
set_option autoImplicit false
namespace MiniPascal

/-- The last outcome is the end of a text. -/
def Closed (outcomes : List (Except LexError Token)) : Prop :=
  ∃ last, outcomes.getLast? = some (.ok last) ∧ last.kind = .endOfFile

theorem Closed.tail {first second : Except LexError Token} {rest : List (Except LexError Token)}
    (closed : Closed (first :: second :: rest)) : Closed (second :: rest) := by
  rwa [Closed, List.getLast?_cons_cons] at closed

theorem Closed.cons {first : Except LexError Token} {rest : List (Except LexError Token)}
    (closed : Closed rest) : Closed (first :: rest) := by
  cases rest with
  | nil =>
      obtain ⟨_, none, _⟩ := closed
      cases none
  | cons second rest => rwa [Closed, List.getLast?_cons_cons]

/-- An error is not the last outcome. -/
theorem Closed.of_error {error : LexError} {rest : List (Except LexError Token)}
    (closed : Closed (.error error :: rest)) : Closed rest := by
  cases rest with
  | nil =>
      obtain ⟨_, same, _⟩ := closed
      cases same
  | cons => exact closed.tail

/-- What is passed before the last outcome is a part of the outcomes in front of it. -/
theorem exists_of_append_eq {α : Type} {used front after : List α} {last : α} (more : after ≠ [])
    (same : front ++ [last] = used ++ after) : ∃ between, front = used ++ between := by
  obtain ⟨between, final, rfl⟩ := List.eq_nil_or_concat after |>.resolve_left more
  rw [List.concat_eq_append, ← List.append_assoc] at same
  exact ⟨between, List.append_inj_left' same rfl⟩

namespace Session

/-- The session with other outcomes to come. -/
def awaiting (session : Session) (pending : List (Except LexError Token)) : Session :=
  { session with stream := { session.stream with pending := pending } }

/-- The session behind the next token. -/
def moved (session : Session) (token : Token) (rest : List (Except LexError Token)) : Session :=
  { session with
    stream := ⟨rest, token :: session.stream.taken⟩
    read := token :: session.read }

/-- No token is looked at in advance, and the end of the text is still to come or is reached. -/
structure Ready (session : Session) : Prop where
  free : session.lookahead = none
  closed : Closed (.ok session.current :: session.stream.pending)

variable {session : Session} {token : Token} {error : LexError}
  {rest : List (Except LexError Token)}

theorem Ready.exists_cons (ready : session.Ready) (more : session.current.kind ≠ .endOfFile) :
    ∃ outcome rest, session.stream.pending = outcome :: rest := by
  cases pending : session.stream.pending with
  | nil =>
      obtain ⟨last, same, kind⟩ := ready.closed
      rw [pending, List.getLast?_singleton] at same
      injection same with same
      injection same with same
      exact absurd (same ▸ kind) more
  | cons outcome rest => exact ⟨outcome, rest, rfl⟩

/-- What has been passed before the end is reached is a part of what is in front of the last
outcome. -/
theorem Ready.exists_between {used front : List (Except LexError Token)}
    {last : Except LexError Token} (ready : session.Ready)
    (more : session.current.kind ≠ .endOfFile)
    (split : front ++ [last] = used ++ session.stream.pending) :
    ∃ between, front = used ++ between := by
  obtain ⟨outcome, rest, pending⟩ := ready.exists_cons more
  rw [pending] at split
  exact exists_of_append_eq (List.cons_ne_nil _ _) split

theorem Ready.moved (ready : session.Ready) (pending : session.stream.pending = .ok token :: rest) :
    (session.moved token rest).Ready := by
  have closed := ready.closed
  rw [pending] at closed
  exact ⟨ready.free, closed.tail⟩

theorem Ready.awaiting (ready : session.Ready)
    (pending : session.stream.pending = .error error :: rest) : (session.awaiting rest).Ready := by
  have closed := ready.closed
  rw [pending] at closed
  exact ⟨ready.free, closed.tail.of_error.cons⟩

theorem consume_of_ok (free : session.lookahead = none)
    (pending : session.stream.pending = .ok token :: rest) :
    consume session = .ok () (session.moved token rest) := by
  obtain ⟨⟨_, taken⟩, read, _, nextId, procedures⟩ := session
  subst free pending
  rfl

theorem consume_of_error (free : session.lookahead = none)
    (pending : session.stream.pending = .error error :: rest) :
    consume session = .error (.lexical error) (session.awaiting rest) := by
  obtain ⟨⟨_, taken⟩, read, _, nextId, procedures⟩ := session
  subst free pending
  rfl

end Session

/-- The error is about the current token of the session, or about a character behind a token that
does not end the text. -/
def ParseError.Blames (error : ParseError) (after : Session) : Prop :=
  match error with
  | .lexical _ => after.current.kind ≠ .endOfFile
  | .unexpectedToken _ got => got = after.current
  | .invalidLiteral _ => False

theorem ParseError.Blames.more {error : ParseError} {after : Session} (blames : error.Blames after)
    (early : ∀ expected got, error = .unexpectedToken expected got → got.kind ≠ .endOfFile) :
    after.current.kind ≠ .endOfFile := by
  cases error with
  | lexical unknown => exact blames
  | unexpectedToken expected got => exact (show got = _ from blames) ▸ early _ _ rfl
  | invalidLiteral literal => exact False.elim blames

/-- What a parser has taken of a session, where the second parser takes the same and has the same
outcome whatever else is to come. -/
inductive Taken {α : Type} (session : Session) (second : Parse α) :
    EStateM.Result ParseError Session α → Prop where
  | ok {value : α} {after : Session} (used : List (Except LexError Token))
    (split : session.stream.pending = used ++ after.stream.pending) (ready : after.Ready)
    (again : ∀ others, second (session.awaiting (used ++ others))
      = .ok value (after.awaiting others)) :
    Taken session second (.ok value after)
  | stopped {error : ParseError} {after : Session} (used : List (Except LexError Token))
    (split : session.stream.pending = used ++ after.stream.pending) (ready : after.Ready)
    (blames : error.Blames after)
    (again : ∀ others, ∃ later, second (session.awaiting (used ++ others)) = .error error later) :
    Taken session second (.error error after)
  | refused {literal : Token} {after : Session} (used : List (Except LexError Token))
    (split : session.stream.pending = used ++ .ok after.current :: after.stream.pending)
    (ready : after.Ready)
    (again : ∀ token others, ∃ later, second (session.awaiting (used ++ .ok token :: others))
      = .error (.invalidLiteral literal) later)
    (overtaken : ∀ error others, ∃ later, second (session.awaiting (used ++ .error error :: others))
      = .error (.lexical error) later) :
    Taken session second (.error (.invalidLiteral literal) after)

/-- The second parser takes what the first one takes, in sessions with fewer outcomes to come than
the given number. -/
def Parse.Takes {α : Type} (size : Nat) (first second : Parse α) : Prop :=
  ∀ session, session.Ready → session.stream.pending.length < size →
    Taken session second (first session)

/-- The same for sessions with the given current token. -/
def Parse.TakesFrom {α : Type} (current : Token) (size : Nat) (first second : Parse α) : Prop :=
  ∀ session, session.Ready → session.current = current → session.stream.pending.length < size →
    Taken session second (first session)

/-- The parsers also take at least one outcome if they succeed. -/
structure Parse.Moves {α : Type} (size : Nat) (first second : Parse α) : Prop where
  takes : Takes size first second
  shorter : ∀ session value after, session.Ready → session.stream.pending.length < size →
    first session = .ok value after →
      after.stream.pending.length < session.stream.pending.length

namespace Parse

variable {α β : Type} {size : Nat} {first second : Parse α} {further further' : α → Parse β}

theorem bind_eq_error {session after : Session} {error : ParseError}
    (failed : first session = .error error after) :
    (first >>= further) session = .error error after := by
  show EStateM.bind first further session = _
  rw [EStateM.bind, failed]

end Parse

/-- What two parsers in a row take. -/
theorem Taken.bind {α β : Type} {session : Session} {first second : Parse α}
    {further further' : α → Parse β} (taken : Taken session second (first session))
    (behind : ∀ value after, first session = .ok value after → after.Ready →
      after.stream.pending.length ≤ session.stream.pending.length →
        Taken after (further' value) (further value after)) :
    Taken session (second >>= further') ((first >>= further) session) := by
  generalize done : first session = outcome at taken
  cases taken with
  | @ok value after used split ready again =>
      have shorter : after.stream.pending.length ≤ session.stream.pending.length := by
        rw [split, List.length_append]
        exact Nat.le_add_left _ _
      have next := behind value after done ready shorter
      rw [Parse.bind_eq done]
      generalize further value after = outcome at next
      cases next with
      | @ok value' final used' split' ready' again' =>
          refine .ok (used ++ used') ?_ ready' fun others => ?_
          · rw [split, split', List.append_assoc]
          · rw [List.append_assoc, Parse.bind_eq (again _), again']
      | @stopped error final used' split' ready' blames again' =>
          refine .stopped (used ++ used') ?_ ready' blames fun others => ?_
          · rw [split, split', List.append_assoc]
          · rw [List.append_assoc, Parse.bind_eq (again _)]
            exact again' others
      | @refused literal final used' split' ready' again' overtaken =>
          refine .refused (used ++ used') ?_ ready' (fun token others => ?_)
            fun error others => ?_
          · rw [split, split', List.append_assoc]
          · rw [List.append_assoc, Parse.bind_eq (again _)]
            exact again' token others
          · rw [List.append_assoc, Parse.bind_eq (again _)]
            exact overtaken error others
  | @stopped error after used split ready blames again =>
      rw [Parse.bind_eq_error done]
      refine .stopped used split ready blames fun others => ?_
      obtain ⟨later, failed⟩ := again others
      exact ⟨later, Parse.bind_eq_error failed⟩
  | @refused literal after used split ready again overtaken =>
      rw [Parse.bind_eq_error done]
      refine .refused used split ready (fun token others => ?_) fun error others => ?_
      · obtain ⟨later, failed⟩ := again token others
        exact ⟨later, Parse.bind_eq_error failed⟩
      · obtain ⟨later, failed⟩ := overtaken error others
        exact ⟨later, Parse.bind_eq_error failed⟩

theorem Taken.congr {α : Type} {session : Session} {second other : Parse α}
    {outcome : EStateM.Result ParseError Session α} (taken : Taken session other outcome)
    (same : ∀ pending, second (session.awaiting pending) = other (session.awaiting pending)) :
    Taken session second outcome := by
  cases taken with
  | ok used split ready again =>
      exact .ok used split ready fun others => (same _).trans (again others)
  | stopped used split ready blames again =>
      refine .stopped used split ready blames fun others => ?_
      rw [same]
      exact again others
  | refused used split ready again overtaken =>
      refine .refused used split ready (fun token others => ?_) fun error others => ?_
      · rw [same]
        exact again token others
      · rw [same]
        exact overtaken error others

/-- What is taken behind the first outcome. -/
theorem Taken.cons {α : Type} {session between : Session} {second further : Parse α}
    {first : Except LexError Token} {outcome : EStateM.Result ParseError Session α}
    (taken : Taken between further outcome)
    (pending : session.stream.pending = first :: between.stream.pending)
    (same : ∀ others, second (session.awaiting (first :: others))
      = further (between.awaiting others)) :
    Taken session second outcome := by
  cases taken with
  | @ok value after used split ready again =>
      refine .ok (first :: used) (by rw [pending, split, List.cons_append]) ready ?_
      exact fun others => (same _).trans (again others)
  | @stopped error after used split ready blames again =>
      refine .stopped (first :: used) (by rw [pending, split, List.cons_append]) ready
        blames fun others => ?_
      rw [List.cons_append, same]
      exact again others
  | @refused literal after used split ready again overtaken =>
      refine .refused (first :: used) (by rw [pending, split, List.cons_append]) ready
        (fun token others => ?_) fun error others => ?_
      · rw [List.cons_append, same]
        exact again token others
      · rw [List.cons_append, same]
        exact overtaken error others

open Session

/-! ## Steps of a session -/

/-- Moving on takes one outcome. -/
theorem Taken.consume {session : Session} (ready : session.Ready)
    (more : session.current.kind ≠ .endOfFile) :
    Taken session Session.consume (Session.consume session) := by
  obtain ⟨outcome, rest, pending⟩ := ready.exists_cons more
  cases outcome with
  | ok token =>
      rw [consume_of_ok ready.free pending]
      refine .ok [.ok token] pending (ready.moved pending) fun others => ?_
      exact consume_of_ok ready.free rfl
  | error error =>
      rw [consume_of_error ready.free pending]
      refine .stopped [.error error] pending (ready.awaiting pending) more fun others => ?_
      exact ⟨_, consume_of_error ready.free rfl⟩

theorem shorter_of_consume {session after : Session} {value : Unit} (ready : session.Ready)
    (more : session.current.kind ≠ .endOfFile) (done : consume session = .ok value after) :
    after.stream.pending.length < session.stream.pending.length := by
  obtain ⟨outcome, rest, pending⟩ := ready.exists_cons more
  cases outcome with
  | ok token =>
      rw [consume_of_ok ready.free pending] at done
      cases done
      rw [pending]
      exact Nat.lt_succ_self _
  | error error =>
      rw [consume_of_error ready.free pending] at done
      cases done

theorem expect_of_ok {kind : TokenKind} {session : Session} {token : Token}
    {rest : List (Except LexError Token)} (same : session.current.kind = kind)
    (free : session.lookahead = none) (pending : session.stream.pending = .ok token :: rest) :
    expect kind session = .ok session.current (session.moved token rest) := by
  rw [expect, Parse.bind_eq (show currentToken session = .ok session.current session from rfl)]
  simp only [if_pos same]
  rw [Parse.bind_eq (consume_of_ok free pending)]
  rfl

theorem expect_of_error {kind : TokenKind} {session : Session} {error : LexError}
    {rest : List (Except LexError Token)} (same : session.current.kind = kind)
    (free : session.lookahead = none) (pending : session.stream.pending = .error error :: rest) :
    expect kind session = .error (.lexical error) (session.awaiting rest) := by
  rw [expect, Parse.bind_eq (show currentToken session = .ok session.current session from rfl)]
  simp only [if_pos same]
  exact Parse.bind_eq_error (consume_of_error free pending)

theorem current_of_expect {kind : TokenKind} {session after : Session} {token : Token}
    (done : expect kind session = .ok token after) :
    token = session.current ∧ session.current.kind = kind := by
  rw [expect, Parse.bind_eq (show currentToken session = .ok session.current session from rfl)]
    at done
  split at done
  · rename_i same
    obtain ⟨_, between, _, done⟩ := Parse.bind_eq_ok done
    exact ⟨(Parse.pure_eq_ok done).1.symm, same⟩
  · exact absurd done Parse.refuse_ne_ok

/-- The current token is of the kind that is looked for or not. -/
theorem accept_bind_eq {α : Type} (kind : TokenKind) (further : Bool → Parse α)
    (session : Session) : (accept kind >>= further) session
      = if session.current.kind = kind then (consume >>= fun _ => further true) session
        else further false session := by
  by_cases same : session.current.kind = kind
  · rw [if_pos same]
    simp only [accept, isAt, bind, EStateM.bind, pure, EStateM.pure, same, decide_true, if_true]
    cases consume session <;> rfl
  · rw [if_neg same]
    simp only [accept, isAt, bind, EStateM.bind, pure, EStateM.pure, same, decide_false,
      Bool.false_eq_true, if_false]

namespace Parse

variable {α β : Type} {size small : Nat} {first second : Parse α} {further further' : α → Parse β}
  {current : Token}

namespace Takes

theorem shrink (takes : Takes size first second) (smaller : small ≤ size) :
    Takes small first second :=
  fun session ready short => takes session ready (Nat.lt_of_lt_of_le short smaller)

theorem pure (value : α) : Takes size (pure value) (pure value) :=
  fun _ ready _ => .ok [] rfl ready fun _ => rfl

theorem refuse (expected : Expectation) :
    Takes size (refuse expected : Parse α) (Session.refuse expected) :=
  fun _ ready _ => .stopped [] rfl ready rfl fun _ => ⟨_, rfl⟩

theorem freshId : Takes size freshId Session.freshId :=
  fun _ ready _ => .ok [] rfl ⟨ready.free, ready.closed⟩ fun _ => rfl

theorem learn (name : String) : Takes size (learn name) (Session.learn name) :=
  fun _ ready _ => .ok [] rfl ⟨ready.free, ready.closed⟩ fun _ => rfl

theorem isAt (kind : TokenKind) : Takes size (isAt kind) (Session.isAt kind) :=
  fun _ ready _ => .ok [] rfl ready fun _ => rfl

theorem bind (takes : Takes size first second)
    (behind : ∀ value, Takes size (further value) (further' value)) :
    Takes size (first >>= further) (second >>= further') :=
  fun session ready short => (takes session ready short).bind fun value after _ ready' shorter =>
    behind value after ready' (Nat.lt_of_le_of_lt shorter short)

/-- What is done with the current token may use that the session stands there. -/
theorem currentToken {further further' : Token → Parse β}
    (behind : ∀ token, TakesFrom token size (further token) (further' token)) :
    Takes size (Session.currentToken >>= further) (Session.currentToken >>= further') :=
  fun session ready short =>
    (behind session.current session ready rfl short).congr fun _ => rfl

theorem anywhere (takes : Takes size first second) : TakesFrom current size first second :=
  fun session ready _ short => takes session ready short

end Takes

namespace Moves

/-- Behind a parser that moves on there is less to come. -/
theorem step (moves : Moves size first second) (fits : size ≤ small + 1)
    (behind : ∀ value, Takes small (further value) (further' value)) :
    Moves size (first >>= further) (second >>= further') where
  takes session ready short := (moves.takes session ready short).bind
    fun value after done ready' _ => behind value after ready' (by
      have := moves.shorter session value after ready short done
      omega)
  shorter session value after ready short done := by
    obtain ⟨middle, between, one, done⟩ := bind_eq_ok done
    have less := moves.shorter session middle between ready short one
    have taken := moves.takes session ready short
    rw [one] at taken
    cases taken with
    | ok _ split ready' _ =>
        have next := behind middle between ready' (by omega)
        rw [done] at next
        cases next with
        | ok _ split' => rw [split', List.length_append] at less; omega

theorem expect {kind : TokenKind} (more : kind ≠ .endOfFile) :
    Moves size (expect kind) (Session.expect kind) where
  takes := by
    rw [Session.expect]
    apply Takes.currentToken
    intro token session ready current short
    by_cases same : token.kind = kind
    · rw [if_pos same]
      refine (Taken.consume ready (by rw [current, same]; exact more)).bind ?_
      exact fun _ after _ ready' _ => .ok [] rfl ready' fun _ => rfl
    · rw [if_neg same]
      exact Takes.refuse _ session ready short
  shorter session value after ready short done := by
    obtain ⟨token, between, found, done⟩ := bind_eq_ok done
    obtain ⟨rfl, rfl⟩ : session.current = token ∧ session = between := by
      injection found with token between
      exact ⟨token, between⟩
    split at done
    · rename_i same
      obtain ⟨_, middle, moved, done⟩ := bind_eq_ok done
      obtain ⟨_, rfl⟩ := pure_eq_ok done
      exact shorter_of_consume ready (same ▸ more) moved
    · exact absurd done refuse_ne_ok

end Moves

theorem TakesFrom.currentToken {further further' : Token → Parse β}
    (behind : TakesFrom current size (further current) (further' current)) :
    TakesFrom current size (Session.currentToken >>= further)
      (Session.currentToken >>= further') := by
  intro session ready same short
  subst same
  exact (behind session ready rfl short).congr fun _ => rfl

/-- A token that does not end the text is moved behind. -/
theorem TakesFrom.consume {further further' : Unit → Parse β} (more : current.kind ≠ .endOfFile)
    (fits : size ≤ small + 1) (behind : Takes small (further ()) (further' ())) :
    TakesFrom current size (Session.consume >>= further) (Session.consume >>= further') := by
  intro session ready same short
  have moves : session.current.kind ≠ .endOfFile := same ▸ more
  refine (Taken.consume ready moves).bind fun _ after done ready' _ => ?_
  have := shorter_of_consume ready moves done
  exact behind after ready' (by omega)

/-- An optional token is moved behind or not. -/
theorem Takes.accept {further further' : Bool → Parse β} {kind : TokenKind}
    (more : kind ≠ .endOfFile) (fits : size ≤ small + 1)
    (found : Takes small (further true) (further' true))
    (other : Takes size (further false) (further' false)) :
    Takes size (Session.accept kind >>= further) (Session.accept kind >>= further') := by
  intro session ready short
  rw [accept_bind_eq]
  by_cases same : session.current.kind = kind
  · rw [if_pos same]
    have takes : TakesFrom session.current size (Session.consume >>= fun _ => further true)
        (Session.consume >>= fun _ => further' true) :=
      TakesFrom.consume (by rw [same]; exact more) fits found
    refine (takes session ready rfl short).congr fun pending => ?_
    rw [accept_bind_eq]
    exact if_pos same
  · rw [if_neg same]
    refine (other session ready short).congr fun pending => ?_
    rw [accept_bind_eq]
    exact if_neg same

end Parse
end MiniPascal
