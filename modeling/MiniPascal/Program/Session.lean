import MiniPascal.Program.Tree
import MiniPascal.Token.Stream

/-! # Parsing sessions

A session is what a parser works on: the tokens to come, those that have been read, at most one
token looked at in advance, the next free node number and the procedures whose names are known.
The current token is the one read last. A session goes on after an error from exactly the place
where the error arose. -/
set_option autoImplicit false
namespace MiniPascal

inductive Expectation where
  | token (kind : TokenKind)
  | dataType
  | expression
deriving DecidableEq

def Expectation.name : Expectation → String
  | .token kind => kind.name
  | .dataType => "INTEGER or REAL"
  | .expression => "expression"

inductive ParseError where
  | lexical (error : LexError)
  | unexpectedToken (expected : Expectation) (got : Token)
  | invalidLiteral (literal : Token)
deriving DecidableEq

namespace ParseError

def position : ParseError → Position
  | .lexical error => error.position
  | .unexpectedToken _ got => got.start
  | .invalidLiteral literal => literal.start

/-- Why a literal is refused: only integers can be too large. -/
def literalReason : String :=
  "number too large to fit in target type"

def message (source : String) : ParseError → String
  | .lexical error => error.message source
  | .unexpectedToken expected got =>
    got.start.shown ++ " Expected " ++ expected.name ++ ", got " ++ got.shown ++ "\n"
      ++ excerpt source got.start
  | .invalidLiteral literal =>
    literal.start.shown ++ " Invalid literal '" ++ literal.text ++ "': " ++ literalReason ++ "\n"
      ++ excerpt source literal.start

end ParseError

/-- The state of a parser. The tokens read are listed with the latest first. -/
structure Session where
  stream : TokenStream
  read : List Token
  lookahead : Option Token
  nextId : NodeId
  procedures : List String

/-- Parsers: they change a session and may fail, and the changes stay if they do. -/
abbrev Parse (α : Type) :=
  EStateM ParseError Session α

namespace Session

/-- A session at the beginning of a text, before any token has been taken. -/
def ofString (source : String) : Session :=
  ⟨TokenStream.ofString source, [], none, 0, []⟩

def current (session : Session) : Token :=
  session.read.headD Token.initial

/-- No more tokens than this can still be met: those to come, the one looked at in advance and the
current one. -/
def bound (session : Session) : Nat :=
  session.stream.pending.length + 2

def consume : Parse Unit := fun session =>
  match session.lookahead with
  | some token => .ok () { session with read := token :: session.read, lookahead := none }
  | none =>
    match session.stream.advance with
    | (.ok token, stream) =>
      .ok () { session with stream := stream, read := token :: session.read }
    | (.error error, stream) => .error (.lexical error) { session with stream := stream }

def currentToken : Parse Token := fun session =>
  .ok session.current session

/-- Fails because something else was expected in place of the current token. -/
def refuse {α : Type} (expected : Expectation) : Parse α := fun session =>
  .error (.unexpectedToken expected session.current) session

def isAt (kind : TokenKind) : Parse Bool := fun session =>
  .ok (decide (session.current.kind = kind)) session

def isNext (kind : TokenKind) : Parse Bool := fun session =>
  match session.lookahead with
  | some token => .ok (decide (token.kind = kind)) session
  | none =>
    match session.stream.advance with
    | (.ok token, stream) =>
      .ok (decide (token.kind = kind)) { session with stream := stream, lookahead := some token }
    | (.error error, stream) => .error (.lexical error) { session with stream := stream }

/-- Moves behind the current token, which has to be of the given kind, and yields it. -/
def expect (kind : TokenKind) : Parse Token := do
  let token ← currentToken
  if token.kind = kind then
    consume
    return token
  else refuse (.token kind)

/-- Moves behind the current token if it is of the given kind, and says whether it was. -/
def accept (kind : TokenKind) : Parse Bool := do
  if ← isAt kind then
    consume
    return true
  else return false

def freshId : Parse NodeId := fun session =>
  .ok session.nextId { session with nextId := session.nextId + 1 }

/-- Makes the name of a procedure known from here on. -/
def learn (name : String) : Parse Unit := fun session =>
  .ok () { session with procedures := name :: session.procedures }

def knows (name : String) : Parse Bool := fun session =>
  .ok (session.procedures.contains name) session

end Session
end MiniPascal
