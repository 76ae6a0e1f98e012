import MiniPascal.Proofs.Program.Soundness

/-! # Parsing without positions

A token without its position is a kind and a text. No parser decides anything by a position: on a
session without positions it does what it does on the session itself, so the trees and the errors
that it yields are the same but for their positions. The numbers of the nodes are not touched. -/
set_option autoImplicit false
namespace MiniPascal

/-! ## Computations that mirror each other -/

/-- The outcome of a computation with its errors, states and values mapped. -/
def mapOutcome {ε σ α β : Type} (errors : ε → ε) (states : σ → σ) (values : α → β) :
    EStateM.Result ε σ α → EStateM.Result ε σ β
  | .ok value after => .ok (values value) (states after)
  | .error error after => .error (errors error) (states after)

/-- On a mapped state the second computation has the mapped outcome of the first. -/
def Mirrors {ε σ α β : Type} (errors : ε → ε) (states : σ → σ) (values : α → β)
    (first : EStateM ε σ α) (second : EStateM ε σ β) : Prop :=
  ∀ state, second (states state) = mapOutcome errors states values (first state)

namespace Mirrors

variable {ε σ α β α' β' : Type} {errors : ε → ε} {states : σ → σ} {values : α → β}
  {values' : α' → β'}

theorem pure {value : α} : Mirrors errors states values (pure value) (pure (values value)) :=
  fun _ => rfl

theorem throw {error : ε} : Mirrors errors states values (throw error) (throw (errors error)) :=
  fun _ => rfl

theorem bind {first : EStateM ε σ α} {second : EStateM ε σ β} {further : α → EStateM ε σ α'}
    {further' : β → EStateM ε σ β'} (mirrors : Mirrors errors states values first second)
    (behind : ∀ value, Mirrors errors states values' (further value) (further' (values value))) :
    Mirrors errors states values' (first >>= further) (second >>= further') := by
  intro state
  have same := mirrors state
  show EStateM.bind second further' (states state)
    = mapOutcome errors states values' (EStateM.bind first further state)
  cases done : first state with
  | ok value after =>
      rw [done] at same
      simp only [EStateM.bind, same, done, mapOutcome]
      exact behind value after
  | error error after =>
      rw [done] at same
      simp only [EStateM.bind, same, done, mapOutcome]

end Mirrors

/-! ## What positions stand in -/

def Token.unplaced (token : Token) : Token :=
  { token with start := Position.start }

def LexError.unplaced (error : LexError) : LexError :=
  { error with position := Position.start }

/-- What a lexer yields, without the position. -/
def unplacedOutcome : Except LexError Token → Except LexError Token
  | .ok token => .ok token.unplaced
  | .error error => .error error.unplaced

def Variable.unplaced (name : Variable) : Variable :=
  { name with position := Position.start }

def TypeSpec.unplaced (typeSpec : TypeSpec) : TypeSpec :=
  { typeSpec with position := Position.start }

def VarDecl.unplaced (decl : VarDecl) : VarDecl :=
  ⟨decl.id, decl.names.map Variable.unplaced, decl.typeSpec.unplaced⟩

def Param.unplaced (param : Param) : Param :=
  ⟨param.id, param.declared.unplaced, param.typeSpec.unplaced⟩

def Expr.unplaced : Expr → Expr
  | .number id value => .number id value
  | .read source => .read source.unplaced
  | .unary id operator operand _ => .unary id operator operand.unplaced Position.start
  | .binary id operator left right _ =>
    .binary id operator left.unplaced right.unplaced Position.start

mutual

def Statement.unplaced : Statement → Statement
  | .compound id statements => .compound id (Statement.unplacedAll statements)
  | .assignment id target value => .assignment id target.unplaced value.unplaced
  | .call id name _ arguments => .call id name Position.start (arguments.map Expr.unplaced)
  | .empty id => .empty id

def Statement.unplacedAll : List Statement → List Statement
  | [] => []
  | statement :: rest => statement.unplaced :: Statement.unplacedAll rest

end

def Compound.unplaced (compound : Compound) : Compound :=
  ⟨compound.id, Statement.unplacedAll compound.statements⟩

mutual

def Block.unplaced : Block → Block
  | ⟨id, declarations, procedures, body⟩ =>
    ⟨id, declarations.map VarDecl.unplaced, Procedure.unplacedAll procedures, body.unplaced⟩

def Procedure.unplacedAll : List Procedure → List Procedure
  | [] => []
  | ⟨id, name, _, params, block⟩ :: rest =>
    ⟨id, name, Position.start, params.map Param.unplaced, block.unplaced⟩
      :: Procedure.unplacedAll rest

end

def Procedure.unplaced (procedure : Procedure) : Procedure :=
  ⟨procedure.id, procedure.name, Position.start, procedure.params.map Param.unplaced,
    procedure.block.unplaced⟩

/-- A program whose positions have all been put to the beginning of the text. -/
def Program.unplaced (program : Program) : Program :=
  ⟨program.id, program.name, program.block.unplaced⟩

def ParseError.unplaced : ParseError → ParseError
  | .lexical error => .lexical error.unplaced
  | .unexpectedToken expected got => .unexpectedToken expected got.unplaced
  | .invalidLiteral literal => .invalidLiteral literal.unplaced

def TokenStream.unplaced (stream : TokenStream) : TokenStream :=
  ⟨stream.pending.map unplacedOutcome, stream.taken.map Token.unplaced⟩

def Session.unplaced (session : Session) : Session :=
  { session with
    stream := session.stream.unplaced
    read := session.read.map Token.unplaced
    lookahead := session.lookahead.map Token.unplaced }

theorem Statement.unplacedAll_eq_map (statements : List Statement) :
    Statement.unplacedAll statements = statements.map Statement.unplaced := by
  induction statements with
  | nil => rfl
  | cons statement rest ih => rw [Statement.unplacedAll, ih, List.map_cons]

theorem Procedure.unplacedAll_eq_map (procedures : List Procedure) :
    Procedure.unplacedAll procedures = procedures.map Procedure.unplaced := by
  induction procedures with
  | nil => rfl
  | cons procedure rest ih =>
      obtain ⟨id, name, position, params, block⟩ := procedure
      rw [Procedure.unplacedAll, ih, List.map_cons]
      rfl

theorem Block.unplaced_eq (block : Block) : block.unplaced
    = ⟨block.id, block.declarations.map VarDecl.unplaced,
      block.procedures.map Procedure.unplaced, block.body.unplaced⟩ := by
  obtain ⟨id, declarations, procedures, body⟩ := block
  rw [Block.unplaced, Procedure.unplacedAll_eq_map]

namespace Session

/-- Outside of any text a token has the first position, which no mapping changes. -/
theorem unplaced_headD (tokens : List Token) :
    (tokens.map Token.unplaced).headD Token.initial = (tokens.headD Token.initial).unplaced := by
  cases tokens <;> rfl

theorem unplaced_current (session : Session) :
    session.unplaced.current = session.current.unplaced :=
  unplaced_headD session.read

theorem unplaced_bound (session : Session) : session.unplaced.bound = session.bound := by
  simp [bound, unplaced, TokenStream.unplaced]

end Session

theorem TokenStream.advance_unplaced (stream : TokenStream) :
    stream.unplaced.advance = (unplacedOutcome stream.advance.1, stream.advance.2.unplaced) := by
  obtain ⟨pending, taken⟩ := stream
  cases pending with
  | nil =>
      show ((.ok ((taken.map Token.unplaced).headD Token.initial) : Except LexError Token), _) = _
      rw [Session.unplaced_headD]
      rfl
  | cons outcome rest => cases outcome <;> rfl

/-! ## Steps of a session -/

/-- On the session without positions the second parser has the outcome of the first, but for
positions. -/
abbrev Parse.Mirrors {α β : Type} (values : α → β) (first : Parse α) (second : Parse β) : Prop :=
  MiniPascal.Mirrors ParseError.unplaced Session.unplaced values first second

namespace Parse.Mirrors

variable {α β : Type} {values : α → β}

theorem consume : Parse.Mirrors id Session.consume Session.consume := by
  intro session
  obtain ⟨stream, read, lookahead, nextId, procedures⟩ := session
  cases lookahead with
  | some token => rfl
  | none =>
      have same := stream.advance_unplaced
      simp only [Session.consume, Session.unplaced, Option.map_none, same]
      rcases stream.advance with ⟨outcome, moved⟩
      cases outcome <;> rfl

theorem currentToken : Parse.Mirrors Token.unplaced Session.currentToken Session.currentToken := by
  intro session
  show EStateM.Result.ok session.unplaced.current _ = _
  rw [session.unplaced_current]
  rfl

theorem refuse (expected : Expectation) :
    Parse.Mirrors values (Session.refuse expected) (Session.refuse expected) := by
  intro session
  show EStateM.Result.error (ParseError.unexpectedToken expected session.unplaced.current) _ = _
  rw [session.unplaced_current]
  rfl

theorem isAt (kind : TokenKind) : Parse.Mirrors id (Session.isAt kind) (Session.isAt kind) := by
  intro session
  show EStateM.Result.ok (decide (session.unplaced.current.kind = kind)) _ = _
  rw [session.unplaced_current]
  rfl

theorem isNext (kind : TokenKind) :
    Parse.Mirrors id (Session.isNext kind) (Session.isNext kind) := by
  intro session
  obtain ⟨stream, read, lookahead, nextId, procedures⟩ := session
  cases lookahead with
  | some token => rfl
  | none =>
      have same := stream.advance_unplaced
      simp only [Session.isNext, Session.unplaced, Option.map_none, same]
      rcases stream.advance with ⟨outcome, moved⟩
      cases outcome <;> rfl

theorem freshId : Parse.Mirrors id Session.freshId Session.freshId :=
  fun _ => rfl

theorem learn (name : String) : Parse.Mirrors id (Session.learn name) (Session.learn name) :=
  fun _ => rfl

theorem knows (name : String) : Parse.Mirrors id (Session.knows name) (Session.knows name) :=
  fun _ => rfl

theorem expect (kind : TokenKind) :
    Parse.Mirrors Token.unplaced (Session.expect kind) (Session.expect kind) := by
  rw [Session.expect]
  apply currentToken.bind
  intro token
  by_cases same : token.kind = kind
  · rw [if_pos same, if_pos (show token.unplaced.kind = kind from same)]
    exact consume.bind fun _ => .pure
  · rw [if_neg same, if_neg (show token.unplaced.kind ≠ kind from same)]
    exact refuse _

theorem accept (kind : TokenKind) :
    Parse.Mirrors id (Session.accept kind) (Session.accept kind) := by
  rw [Session.accept]
  apply (isAt kind).bind
  intro found
  cases found with
  | false => exact MiniPascal.Mirrors.pure
  | true => exact consume.bind fun _ => .pure

/-- A node takes the next number, whatever it is made of. -/
theorem node {make : NodeId → α} {make' : NodeId → β} (same : ∀ id, values (make id) = make' id) :
    Parse.Mirrors values (do return make (← Session.freshId))
      (do return make' (← Session.freshId)) := by
  apply freshId.bind
  intro id
  show Parse.Mirrors values (pure (make id)) (pure (make' id))
  rw [← same id]
  exact .pure

end Parse.Mirrors
end MiniPascal
