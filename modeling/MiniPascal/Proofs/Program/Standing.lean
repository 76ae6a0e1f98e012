import MiniPascal.Program.Parser

/-! # Where a session stands

A session is known by the tokens from its current one on and by the procedures it knows. The tokens
go up to what stops every parser: the end of the text, a lexical error, or an integer constant that
is too large. Each operation of a session is described in these terms: what it does in front of
another token, and where the session stands if it has succeeded. -/
set_option autoImplicit false
namespace MiniPascal

/-- Tokens up to an end of file, which is the last one and the only one. -/
def Ended : List Token → Prop
  | [] => False
  | [last] => last.kind = .endOfFile
  | token :: next :: rest => token.kind ≠ .endOfFile ∧ Ended (next :: rest)

theorem Ended.tail {token : Token} {rest : List Token} (ended : Ended (token :: rest))
    (more : token.kind ≠ .endOfFile) : Ended rest := by
  cases rest with
  | nil => exact absurd ended more
  | cons next rest => exact ended.2

/-- An integer constant that a program can have, or no integer constant at all. -/
def Token.Fits (token : Token) : Prop :=
  token.kind = .integerConst → Number.digitsValue token.text.toList ≤ 9223372036854775807

instance (token : Token) : Decidable token.Fits :=
  inferInstanceAs (Decidable (_ → _))

theorem Token.fits_of_ne {token : Token} (other : token.kind ≠ .integerConst) : token.Fits :=
  fun kind => absurd kind other

theorem Token.fits_of_kind {token : Token} {kind : TokenKind} (same : token.kind = kind)
    (other : kind ≠ .integerConst) : token.Fits :=
  Token.fits_of_ne (same ▸ other)

/-- The tokens reach up to the end of the text, a lexical error or too large a constant. -/
inductive Reach : List Token → List (Except LexError Token) → Prop where
  | ended {tokens : List Token} : Ended tokens → Reach tokens []
  | stopped {tokens : List Token} {error : LexError} {others : List (Except LexError Token)} :
    Reach tokens (.error error :: others)
  | large {before : List Token} {token : Token} {beyond : List (Except LexError Token)} :
    ¬ token.Fits → Reach (before ++ [token]) beyond

theorem Reach.tail {token : Token} {rest : List Token} {beyond : List (Except LexError Token)}
    (reach : Reach (token :: rest) beyond) (more : token.kind ≠ .endOfFile)
    (passes : rest ≠ [] ∨ token.Fits) : Reach rest beyond := by
  generalize whole : token :: rest = tokens at reach
  cases reach with
  | ended ended => exact .ended (Ended.tail (whole ▸ ended) more)
  | stopped => exact .stopped
  | @large before last _ large =>
      cases before with
      | nil =>
          injection whole with same none
          subst same none
          exact absurd large (not_not_intro (passes.resolve_left (not_not_intro rfl)))
      | cons first others =>
          injection whole with _ same
          exact same ▸ .large large

/-- The session has these tokens in front of it, the current one first, and knows these
procedures. -/
structure Session.Stands (session : Session) (tokens : List Token) (known : List String) :
    Prop where
  current : tokens.head? = some session.current
  coming : ∃ beyond, session.lookahead.toList.map Except.ok ++ session.stream.pending
    = tokens.tail.map Except.ok ++ beyond ∧ Reach tokens beyond
  procedures : session.procedures = known

namespace Session

variable {session : Session} {tokens rest : List Token} {known : List String} {token : Token}

namespace Stands

theorem exists_cons (stands : session.Stands tokens known) :
    ∃ rest, tokens = session.current :: rest := by
  have current := stands.current
  cases tokens with
  | nil => cases current
  | cons token rest =>
      injection current with same
      exact ⟨rest, by rw [same]⟩

theorem current_eq (stands : session.Stands (token :: rest) known) : session.current = token := by
  have current := stands.current
  injection current with same
  exact same.symm

/-- Moving on leaves the current token behind. -/
theorem consume (stands : session.Stands (token :: rest) known) (more : token.kind ≠ .endOfFile)
    (further : rest ≠ []) :
    ∃ after, Session.consume session = .ok () after ∧ after.Stands rest known := by
  obtain ⟨stream, read, lookahead, nextId, procedures⟩ := session
  obtain ⟨beyond, coming, reach⟩ := stands.coming
  have same := stands.procedures
  cases rest with
  | nil => exact absurd rfl further
  | cons next rest =>
      cases lookahead with
      | some looked =>
          simp only [Option.toList_some, List.map_cons, List.map_nil, List.cons_append,
            List.nil_append, List.tail_cons, List.cons.injEq, Except.ok.injEq] at coming
          obtain ⟨rfl, others⟩ := coming
          exact ⟨_, rfl, rfl, ⟨beyond, others, reach.tail more (Or.inl further)⟩, same⟩
      | none =>
          simp only [Option.toList_none, List.map_nil, List.nil_append, List.tail_cons,
            List.map_cons, List.cons_append] at coming
          refine ⟨⟨⟨rest.map Except.ok ++ beyond, next :: stream.taken⟩, next :: read, none, nextId,
            procedures⟩, ?_, rfl, ⟨beyond, rfl, reach.tail more (Or.inl further)⟩, same⟩
          simp only [Session.consume, TokenStream.advance, coming]

/-- Behind the last of the tokens there is no moving on. -/
theorem exists_error (stands : session.Stands [token] known) (more : token.kind ≠ .endOfFile)
    (fits : token.Fits) : session.lookahead = none ∧ ∃ error others,
      session.stream.pending = .error error :: others := by
  obtain ⟨beyond, coming, reach⟩ := stands.coming
  generalize whole : [token] = tokens at reach
  cases reach with
  | ended ended =>
      subst whole
      exact absurd ended more
  | @stopped _ error others =>
      cases looked : session.lookahead with
      | some token => simp [looked] at coming
      | none => exact ⟨rfl, error, others, by simpa [looked] using coming⟩
  | @large before last _ large =>
      have same : token = last := by simpa using congrArg List.getLast? whole
      exact absurd (same ▸ fits) large

theorem of_consume (stands : session.Stands (token :: rest) known)
    (more : token.kind ≠ .endOfFile) (fits : token.Fits) {after : Session}
    (done : Session.consume session = .ok () after) : after.Stands rest known := by
  cases rest with
  | nil =>
      obtain ⟨looked, error, others, coming⟩ := stands.exists_error more fits
      simp [Session.consume, TokenStream.advance, looked, coming] at done
  | cons next rest =>
      obtain ⟨behind, moved, stood⟩ := stands.consume more (List.cons_ne_nil next rest)
      rw [moved] at done
      injection done with _ same
      exact same ▸ stood

/-- Looking at the token after the current one changes nothing. -/
theorem isNext {next : Token} (stands : session.Stands (token :: next :: rest) known)
    (kind : TokenKind) :
    ∃ after, Session.isNext kind session = .ok (decide (next.kind = kind)) after
      ∧ after.Stands (token :: next :: rest) known := by
  obtain ⟨stream, read, lookahead, nextId, procedures⟩ := session
  obtain ⟨current, ⟨beyond, coming, reach⟩, same⟩ := stands
  cases lookahead with
  | some looked =>
      simp only [Option.toList_some, List.map_cons, List.map_nil, List.cons_append,
        List.nil_append, List.tail_cons, List.cons.injEq, Except.ok.injEq] at coming
      obtain ⟨rfl, others⟩ := coming
      exact ⟨_, rfl, current, ⟨beyond, by simp [others], reach⟩, same⟩
  | none =>
      simp only [Option.toList_none, List.map_nil, List.nil_append, List.tail_cons,
        List.map_cons, List.cons_append] at coming
      refine ⟨⟨⟨rest.map Except.ok ++ beyond, next :: stream.taken⟩, read, some next, nextId,
        procedures⟩, ?_, current, ⟨beyond, rfl, reach⟩, same⟩
      simp only [Session.isNext, TokenStream.advance, coming]

theorem of_isNext (stands : session.Stands tokens known)
    (more : session.current.kind ≠ .endOfFile) (fits : session.current.Fits) {kind : TokenKind}
    {found : Bool} {after : Session}
    (done : Session.isNext kind session = .ok found after) : after.Stands tokens known := by
  obtain ⟨rest, rfl⟩ := stands.exists_cons
  cases rest with
  | nil =>
      obtain ⟨looked, error, others, coming⟩ := stands.exists_error more fits
      simp [Session.isNext, TokenStream.advance, looked, coming] at done
  | cons next rest =>
      obtain ⟨behind, looked, stood⟩ := stands.isNext kind
      rw [looked] at done
      injection done with _ same
      exact same ▸ stood

theorem freshId (stands : session.Stands tokens known) :
    ∃ id after, Session.freshId session = .ok id after ∧ after.Stands tokens known :=
  ⟨session.nextId, _, rfl, stands.current, stands.coming, stands.procedures⟩

theorem learn (stands : session.Stands tokens known) (name : String) :
    ∃ after, Session.learn name session = .ok () after ∧ after.Stands tokens (name :: known) :=
  ⟨_, rfl, stands.current, stands.coming, congrArg (name :: ·) stands.procedures⟩

theorem knows (stands : session.Stands tokens known) (name : String) :
    Session.knows name session = .ok (known.contains name) session := by
  rw [Session.knows, stands.procedures]

theorem currentToken (stands : session.Stands (token :: rest) known) :
    Session.currentToken session = .ok token session := by
  rw [Session.currentToken, stands.current_eq]

theorem isAt (stands : session.Stands (token :: rest) known) (kind : TokenKind) :
    Session.isAt kind session = .ok (decide (token.kind = kind)) session := by
  rw [Session.isAt, stands.current_eq]

end Stands
end Session

/-! ## Running parsers -/

namespace Parse

variable {α β : Type} {parser : Parse α} {further : α → Parse β} {session : Session}

theorem bind_eq {value : α} {after : Session} (first : parser session = .ok value after) :
    (parser >>= further) session = further value after := by
  simp only [Bind.bind, EStateM.bind, first]

/-- A sequence succeeds only if both of its parts do. -/
theorem bind_eq_ok {value : β} {after : Session}
    (done : (parser >>= further) session = .ok value after) :
    ∃ middle between, parser session = .ok middle between
      ∧ further middle between = .ok value after := by
  simp only [Bind.bind, EStateM.bind] at done
  cases first : parser session with
  | ok middle between =>
      rw [first] at done
      exact ⟨middle, between, rfl, done⟩
  | error error between =>
      rw [first] at done
      cases done

theorem pure_eq_ok {value result : α} {after : Session}
    (done : (pure value : Parse α) session = .ok result after) : value = result ∧ session = after := by
  injection done with values sessions
  exact ⟨values, sessions⟩

theorem refuse_ne_ok {expected : Expectation} {value : α} {after : Session} :
    (Session.refuse expected : Parse α) session ≠ .ok value after := by
  intro impossible
  cases impossible

end Parse

namespace Session.Stands

variable {session : Session} {tokens rest : List Token} {known : List String} {token : Token}

/-- A token of the expected kind is taken. -/
theorem expects (stands : session.Stands (token :: rest) known) {kind : TokenKind}
    (same : token.kind = kind) (more : kind ≠ .endOfFile) (further : rest ≠ []) :
    ∃ after, Session.expect kind session = .ok token after ∧ after.Stands rest known := by
  obtain ⟨after, moved, behind⟩ := stands.consume (same ▸ more) further
  refine ⟨after, ?_, behind⟩
  rw [Session.expect, Parse.bind_eq stands.currentToken, if_pos same, Parse.bind_eq moved]
  rfl

/-- What has been taken is of the expected kind. -/
theorem of_expect_fits (stands : session.Stands tokens known) {kind : TokenKind}
    (more : kind ≠ .endOfFile) (fits : token.Fits) {after : Session}
    (done : Session.expect kind session = .ok token after) :
    ∃ rest, tokens = token :: rest ∧ token.kind = kind ∧ after.Stands rest known := by
  obtain ⟨rest, rfl⟩ := stands.exists_cons
  rw [Session.expect, Parse.bind_eq stands.currentToken] at done
  split at done
  · rename_i same
    obtain ⟨_, moved, consumed, done⟩ := Parse.bind_eq_ok done
    obtain ⟨rfl, rfl⟩ := Parse.pure_eq_ok done
    exact ⟨rest, rfl, same, stands.of_consume (same ▸ more) fits consumed⟩
  · exact absurd done Parse.refuse_ne_ok

theorem kind_of_expect {kind : TokenKind} {after : Session}
    (done : Session.expect kind session = .ok token after) : token.kind = kind := by
  obtain ⟨current, between, looked, done⟩ := Parse.bind_eq_ok done
  split at done
  · rename_i same
    obtain ⟨_, moved, consumed, done⟩ := Parse.bind_eq_ok done
    obtain ⟨rfl, _⟩ := Parse.pure_eq_ok done
    exact same
  · exact absurd done Parse.refuse_ne_ok

theorem of_expect (stands : session.Stands tokens known) {kind : TokenKind}
    (more : kind ≠ .endOfFile ∧ kind ≠ .integerConst) {after : Session}
    (done : Session.expect kind session = .ok token after) :
    ∃ rest, tokens = token :: rest ∧ token.kind = kind ∧ after.Stands rest known :=
  stands.of_expect_fits more.1 (Token.fits_of_kind (kind_of_expect done) more.2) done

theorem accept (stands : session.Stands (token :: rest) known) {kind : TokenKind}
    (same : token.kind = kind) (more : kind ≠ .endOfFile) (further : rest ≠ []) :
    ∃ after, Session.accept kind session = .ok true after ∧ after.Stands rest known := by
  obtain ⟨after, moved, behind⟩ := stands.consume (same ▸ more) further
  refine ⟨after, ?_, behind⟩
  rw [Session.accept, Parse.bind_eq (stands.isAt kind), decide_eq_true same, if_pos rfl,
    Parse.bind_eq moved]
  rfl

theorem not_accept (stands : session.Stands (token :: rest) known) {kind : TokenKind}
    (other : token.kind ≠ kind) : Session.accept kind session = .ok false session := by
  rw [Session.accept, Parse.bind_eq (stands.isAt kind), decide_eq_false other]
  rfl

/-- A kind is accepted if it stands there, and otherwise left alone. -/
theorem of_accept (stands : session.Stands tokens known) {kind : TokenKind}
    (more : kind ≠ .endOfFile ∧ kind ≠ .integerConst) {accepted : Bool} {after : Session}
    (done : Session.accept kind session = .ok accepted after) :
    (accepted = true ∧ ∃ token rest, tokens = token :: rest ∧ token.kind = kind
        ∧ after.Stands rest known)
      ∨ (accepted = false ∧ after.Stands tokens known) := by
  obtain ⟨rest, rfl⟩ := stands.exists_cons
  by_cases same : session.current.kind = kind
  · rw [Session.accept, Parse.bind_eq (stands.isAt kind), decide_eq_true same, if_pos rfl] at done
    obtain ⟨_, moved, consumed, done⟩ := Parse.bind_eq_ok done
    have behind := stands.of_consume (same ▸ more.1) (Token.fits_of_kind same more.2) consumed
    obtain ⟨rfl, rfl⟩ := Parse.pure_eq_ok done
    exact Or.inl ⟨rfl, _, rest, rfl, same, behind⟩
  · rw [stands.not_accept same] at done
    injection done with values sessions
    subst values sessions
    exact Or.inr ⟨rfl, stands⟩

theorem current_unique (stands : session.Stands tokens known) {other : Session}
    (stood : other.Stands tokens known) : session.current = other.current :=
  Option.some.inj (stands.current.symm.trans stood.current)

theorem of_freshId (stands : session.Stands tokens known) {id : NodeId} {after : Session}
    (done : Session.freshId session = .ok id after) : after.Stands tokens known := by
  obtain ⟨_, behind, fresh, stood⟩ := stands.freshId
  rw [fresh] at done
  injection done with _ same
  exact same ▸ stood

theorem of_learn (stands : session.Stands tokens known) {name : String} {after : Session}
    (done : Session.learn name session = .ok () after) : after.Stands tokens (name :: known) := by
  obtain ⟨behind, learned, stood⟩ := stands.learn name
  rw [learned] at done
  injection done with _ same
  exact same ▸ stood

/-- A node gets its number last. -/
theorem numbered {α : Type} (stands : session.Stands tokens known) (node : NodeId → α) :
    ∃ id after, (Session.freshId >>= fun id => pure (node id) : Parse α) session
        = .ok (node id) after ∧ after.Stands tokens known := by
  obtain ⟨id, after, fresh, stood⟩ := stands.freshId
  refine ⟨id, after, ?_, stood⟩
  rw [Parse.bind_eq fresh]
  rfl

theorem of_numbered {α : Type} (stands : session.Stands tokens known) {node : NodeId → α}
    {value : α} {after : Session}
    (done : (Session.freshId >>= fun id => pure (node id) : Parse α) session = .ok value after) :
    (∃ id, value = node id) ∧ after.Stands tokens known := by
  obtain ⟨id, behind, numbered, stood⟩ := stands.numbered node
  rw [numbered] at done
  injection done with values sessions
  exact ⟨⟨id, values.symm⟩, sessions ▸ stood⟩

end Session.Stands
end MiniPascal
