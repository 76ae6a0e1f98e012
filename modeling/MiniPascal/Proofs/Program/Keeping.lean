import MiniPascal.Program.Visit
import MiniPascal.Proofs.Program.Soundness
import MiniPascal.Proofs.Program.Taking

/-! # What a parse keeps

A property of sessions that the operations of a session keep holds throughout a parse. What the
parser makes then consists of tokens that were current meanwhile, and an error is about one of these
or about a character that the session came upon. -/
set_option autoImplicit false
namespace MiniPascal

/-- A property that sessions have during a parse, and one that they have between two calls of the
parser: at the beginning, and where an error has stopped it. During a parse something is known of
every current token and more of one behind the keyword of a procedure, and of unknown characters
whenever they are met. -/
structure Session.Invariant where
  Holds : Session → Prop
  Rests : Session → Prop
  Good : Token → Prop
  Head : Token → Prop
  Bad : LexError → Prop
  rests : ∀ {session}, Holds session → Rests session
  current : ∀ {session}, Holds session → Good session.current
  head : ∀ {session token}, Holds session → session.lookahead = some token →
    session.current.kind = .procedure → Head token
  shifted : ∀ {session token}, Rests session → session.lookahead = some token →
    Holds { session with read := token :: session.read, lookahead := none }
  looked : ∀ {session token stream}, Holds session → session.lookahead = none →
    session.stream.advance = (.ok token, stream) →
    Holds { session with stream := stream, lookahead := some token }
  begun : ∀ {session token stream}, Rests session → session.lookahead = none →
    session.stream.advance = (.ok token, stream) →
    Rests { session with stream := stream, lookahead := some token }
  blocked : ∀ {session error stream}, Rests session → session.lookahead = none →
    session.stream.advance = (.error error, stream) →
    Rests { session with stream := stream } ∧ Bad error
  numbered : ∀ {session}, Holds session → Holds { session with nextId := session.nextId + 1 }
  learned : ∀ {session} (name : String), Holds session →
    Holds { session with procedures := name :: session.procedures }

namespace Session.Invariant

open Grammar

variable (kept : Session.Invariant)

/-- The error is about a token or a character that the session came upon. -/
def Explains : ParseError → Prop
  | .lexical error => kept.Bad error
  | .unexpectedToken _ got => kept.Good got
  | .invalidLiteral literal => kept.Good literal ∧ literal.kind = .integerConst

/-- What the parser yields has the property, and the session is as the invariant says. -/
def Allows {α : Type} (yields : α → Prop) : EStateM.Result ParseError Session α → Prop
  | .ok value after => kept.Holds after ∧ yields value
  | .error error after => kept.Rests after ∧ kept.Explains error

/-- A name stands where a token of this text was met. -/
def Names (name : String) (position : Position) : Prop :=
  kept.Good ⟨.identifier, name, position⟩

def Types (typeSpec : TypeSpec) : Prop :=
  ∃ kind text, TypeName kind typeSpec.dataType ∧ kept.Good ⟨kind, text, typeSpec.position⟩

/-- The value of a literal that was met. -/
def Literal (value : Number) : Prop :=
  ∃ literal, kept.Good literal
    ∧ (literal.kind = .integerConst ∧ Number.ofIntegerLiteral? literal.text = some value
      ∨ literal.kind = .realConst ∧ value = Number.ofRealLiteral literal.text)

/-- What is visited is made of tokens that were met, at their positions. -/
def Makes : Visit → Prop
  | .programStart program => ∃ position, kept.Names program.name position
  | .varDeclStart decl => kept.Types decl.typeSpec
  | .procedureStart procedure => kept.Names procedure.name procedure.position
    ∧ kept.Head ⟨.identifier, procedure.name, procedure.position⟩
  | .param param => kept.Types param.typeSpec
  | .declared name | .used name => kept.Names name.name name.position
  | .typeSpec typeSpec => kept.Types typeSpec
  | .call _ name position _ => kept.Names name position
  | .binary _ operator _ _ position => ∃ kind text,
    (Adding kind operator ∨ Multiplying kind operator) ∧ kept.Good ⟨kind, text, position⟩
  | .unary _ operator _ position =>
    ∃ kind text, Sign kind operator ∧ kept.Good ⟨kind, text, position⟩
  | .number _ value => kept.Literal value
  | _ => True

/-- All that is visited on a walk is made of tokens that were met. -/
def MakesAll (visits : List Visit) : Prop :=
  ∀ visit ∈ visits, kept.Makes visit

variable {kept} {visits others : List Visit}

theorem MakesAll.append (first : kept.MakesAll visits) (second : kept.MakesAll others) :
    kept.MakesAll (visits ++ others) :=
  List.forall_mem_append.mpr ⟨first, second⟩

theorem MakesAll.cons {visit : Visit} (first : kept.Makes visit) (second : kept.MakesAll others) :
    kept.MakesAll (visit :: others) :=
  List.forall_mem_cons.mpr ⟨first, second⟩

theorem MakesAll.nil : kept.MakesAll [] :=
  nofun

theorem MakesAll.single {visit : Visit} (only : kept.Makes visit) : kept.MakesAll [visit] :=
  .cons only .nil

theorem MakesAll.flatMap {α : Type} {walk : α → List Visit} {values : List α}
    (each : ∀ value ∈ values, kept.MakesAll (walk value)) :
    kept.MakesAll (values.flatMap walk) := by
  intro visit member
  obtain ⟨value, among, inside⟩ := List.mem_flatMap.mp member
  exact each value among visit inside

theorem MakesAll.map {α : Type} {visit : α → Visit} {values : List α}
    (each : ∀ value ∈ values, kept.Makes (visit value)) : kept.MakesAll (values.map visit) :=
  List.forall_mem_map.mpr each

theorem names_of_good {name : Token} (good : kept.Good name) (kind : name.kind = .identifier) :
    kept.Names name.text name.start := by
  rw [Names, ← kind]
  exact good

end Session.Invariant

namespace Parse

/-- A parser keeps the invariant, and what it yields has the property. -/
def Keeps {α : Type} (kept : Session.Invariant) (parser : Parse α) (yields : α → Prop) : Prop :=
  ∀ session, kept.Holds session → kept.Allows yields (parser session)

/-- The same for sessions with the given current token. -/
def KeepsFrom {α : Type} (kept : Session.Invariant) (token : Token) (parser : Parse α)
    (yields : α → Prop) : Prop :=
  ∀ session, kept.Holds session → session.current = token → kept.Allows yields (parser session)

variable {α β : Type} {kept : Session.Invariant} {parser : Parse α} {further : α → Parse β}
  {yields : α → Prop} {yields' : β → Prop} {token : Token}

theorem consume_of_looked {session : Session} {next : Token}
    (looked : session.lookahead = some next) : Session.consume session
      = .ok () { session with read := next :: session.read, lookahead := none } := by
  simp only [Session.consume, looked]

theorem consume_of_advanced {session : Session} {next : Token} {stream : TokenStream}
    (free : session.lookahead = none) (advanced : session.stream.advance = (.ok next, stream)) :
    Session.consume session
      = .ok ()
        { session with stream := stream, read := next :: session.read, lookahead := none } := by
  simp only [Session.consume, free, advanced]

theorem consume_of_blocked {session : Session} {error : LexError} {stream : TokenStream}
    (free : session.lookahead = none) (advanced : session.stream.advance = (.error error, stream)) :
    Session.consume session = .error (.lexical error) { session with stream := stream } := by
  simp only [Session.consume, free, advanced]

/-- Between two calls the next token may be taken as well. -/
theorem allows_consume {session : Session} (rests : kept.Rests session) :
    kept.Allows (fun _ => True) (Session.consume session) := by
  cases looked : session.lookahead with
  | some next =>
      rw [consume_of_looked looked]
      exact ⟨kept.shifted rests looked, trivial⟩
  | none =>
      rcases advanced : session.stream.advance with ⟨error | next, stream⟩
      · rw [consume_of_blocked looked advanced]
        exact kept.blocked rests looked advanced
      · rw [consume_of_advanced looked advanced]
        exact ⟨kept.shifted (kept.begun rests looked advanced) rfl, trivial⟩

theorem allows_bind {session : Session} (first : kept.Allows yields (parser session))
    (second : ∀ value after, parser session = .ok value after → kept.Holds after → yields value →
      kept.Allows yields' (further value after)) :
    kept.Allows yields' ((parser >>= further) session) := by
  cases done : parser session with
  | ok value after =>
      rw [done] at first
      rw [bind_eq done]
      exact second value after done first.1 first.2
  | error error after =>
      rw [done] at first
      rw [bind_eq_error done]
      exact first

namespace Keeps

theorem pure {value : α} (holds : yields value) : Keeps kept (pure value) yields :=
  fun _ held => ⟨held, holds⟩

theorem bind (first : Keeps kept parser yields)
    (second : ∀ value, yields value → Keeps kept (further value) yields') :
    Keeps kept (parser >>= further) yields' :=
  fun session held => allows_bind (first session held) fun value after _ held holds =>
    second value holds after held

theorem anywhere (keeps : Keeps kept parser yields) : KeepsFrom kept token parser yields :=
  fun session held _ => keeps session held

theorem refuse (expected : Expectation) : Keeps kept (Session.refuse expected) yields :=
  fun _ held => ⟨kept.rests held, kept.current held⟩

theorem freshId : Keeps kept Session.freshId fun _ => True :=
  fun _ held => ⟨kept.numbered held, trivial⟩

theorem learn (name : String) : Keeps kept (Session.learn name) fun _ => True :=
  fun _ held => ⟨kept.learned name held, trivial⟩

theorem knows (name : String) : Keeps kept (Session.knows name) fun _ => True :=
  fun _ held => ⟨held, trivial⟩

theorem isAt (kind : TokenKind) : Keeps kept (Session.isAt kind) fun _ => True :=
  fun _ held => ⟨held, trivial⟩

theorem isNext (kind : TokenKind) : Keeps kept (Session.isNext kind) fun _ => True := by
  intro session held
  rw [Session.isNext]
  split
  · exact ⟨held, trivial⟩
  · rename_i free
    split
    · rename_i advanced
      exact ⟨kept.looked held free advanced, trivial⟩
    · rename_i advanced
      exact kept.blocked (kept.rests held) free advanced

/-- A node gets its number last. -/
theorem node {make : NodeId → α} (holds : ∀ id, yields (make id)) :
    Keeps kept (do return make (← Session.freshId)) yields :=
  freshId.bind fun id _ => .pure (holds id)

theorem currentToken {further : Token → Parse β}
    (behind : ∀ token, kept.Good token → KeepsFrom kept token (further token) yields') :
    Keeps kept (Session.currentToken >>= further) yields' :=
  fun session held => behind session.current (kept.current held) session held rfl

end Keeps

namespace KeepsFrom

theorem bind (first : KeepsFrom kept token parser yields)
    (second : ∀ value, yields value → Keeps kept (further value) yields') :
    KeepsFrom kept token (parser >>= further) yields' :=
  fun session held same => allows_bind (first session held same) fun value after _ held holds =>
    second value holds after held

/-- Behind the current token comes a good one, with more to say if that was a keyword. -/
theorem consume {further : Unit → Parse β}
    (behind : ∀ next, (token.kind = .procedure → kept.Head next) →
      KeepsFrom kept next (further ()) yields') :
    KeepsFrom kept token (Session.consume >>= further) yields' := by
  intro session held same
  subst same
  cases looked : session.lookahead with
  | some next =>
      rw [bind_eq (consume_of_looked looked)]
      exact behind next (kept.head held looked) _ (kept.shifted (kept.rests held) looked) rfl
  | none =>
      rcases advanced : session.stream.advance with ⟨error | next, stream⟩
      · rw [bind_eq_error (consume_of_blocked looked advanced)]
        exact kept.blocked (kept.rests held) looked advanced
      · have held := kept.looked held looked advanced
        have head := kept.head held rfl
        rw [bind_eq (consume_of_advanced looked advanced)]
        exact behind next head _ (kept.shifted (kept.rests held) rfl) rfl

theorem expect (kind : TokenKind) :
    KeepsFrom kept token (Session.expect kind) fun got => got = token ∧ token.kind = kind := by
  intro session held same
  subst same
  by_cases same : session.current.kind = kind
  · have taken : KeepsFrom kept session.current
        (Session.consume >>= fun _ => Pure.pure session.current)
        fun got => got = session.current ∧ session.current.kind = kind :=
      .consume fun _ _ => Keeps.anywhere (.pure ⟨rfl, same⟩)
    have opened : Session.expect kind session
        = (Session.consume >>= fun _ => Pure.pure session.current) session := by
      rw [Session.expect, bind_eq (show Session.currentToken session = _ from rfl), if_pos same]
    rw [opened]
    exact taken session held rfl
  · have refused : Session.expect kind session
        = (Session.refuse (.token kind) : Parse Token) session := by
      rw [Session.expect, bind_eq (show Session.currentToken session = _ from rfl), if_neg same]
    rw [refused]
    exact Keeps.refuse _ session held

end KeepsFrom

namespace Keeps

theorem expect (kind : TokenKind) :
    Keeps kept (Session.expect kind) fun token => kept.Good token ∧ token.kind = kind := by
  intro session held
  have good := kept.current held
  have taken := KeepsFrom.expect kind session held rfl
  cases done : Session.expect kind session with
  | ok token after =>
      rw [done] at taken
      obtain ⟨held, rfl, same⟩ := taken
      exact ⟨held, good, same⟩
  | error error after =>
      rw [done] at taken
      exact taken

/-- An optional token is moved behind or not. -/
theorem accept {further : Bool → Parse β} {kind : TokenKind}
    (found : ∀ next, (kind = .procedure → kept.Head next) →
      KeepsFrom kept next (further true) yields')
    (other : Keeps kept (further false) yields') :
    Keeps kept (Session.accept kind >>= further) yields' := by
  intro session held
  rw [accept_bind_eq]
  split
  · rename_i same
    have moves : KeepsFrom kept session.current (Session.consume >>= fun _ => further true)
        yields' := .consume fun next head => found next fun keyword => head (same.trans keyword)
    exact moves session held rfl
  · exact other session held

end Keeps
end Parse
end MiniPascal
