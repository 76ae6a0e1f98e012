import MiniPascal.Proofs.Program.Headers
import MiniPascal.Proofs.Program.Standing

/-! # What parsers yield is derived

Whatever a parser yields is derived, in its bare form, from the tokens that the parser has taken. No
bound matters here: a parser that runs out of it takes fewer tokens or fails. -/
set_option autoImplicit false
namespace MiniPascal

/-- What the parser yields is derived from the tokens that it takes, with these procedures known. -/
def Parse.Sound {α β : Type} (known : List String) (parser : Parse α) (bare : α → β)
    (Derives : List Token → β → Prop) : Prop :=
  ∀ ⦃session : Session⦄ ⦃tokens : List Token⦄, session.Stands tokens known →
    ∀ ⦃value : α⦄ ⦃after : Session⦄, parser session = .ok value after →
      ∃ used rest, tokens = used ++ rest ∧ Derives used (bare value) ∧ after.Stands rest known

namespace Parser

open Parse Session Grammar

variable {known : List String}

theorem sound_following {α β : Type} {item : Parse α} {bare : α → β}
    {Item : List Token → β → Prop} (items : Sound known item bare Item) {separator : TokenKind}
    (more : separator ≠ .endOfFile ∧ separator ≠ .integerConst) : ∀ (bound : Nat) {session : Session} {tokens : List Token},
      session.Stands tokens known → ∀ {values : List α} {after : Session},
        following item separator bound session = .ok values after →
        ∃ used rest, tokens = used ++ rest ∧ after.Stands rest known
          ∧ ∀ {before : List Token} {first : α}, Item before (bare first) →
            Separated separator Item (before ++ used) (bare first :: values.map bare) := by
  intro bound
  induction bound with
  | zero =>
      intro session tokens stands values after done
      obtain ⟨rfl, rfl⟩ := pure_eq_ok done
      exact ⟨[], tokens, rfl, stands, fun derived => by simpa using Separated.one derived⟩
  | succ bound ih =>
      intro session tokens stands values after done
      obtain ⟨accepted, between, found, done⟩ := bind_eq_ok done
      rcases stands.of_accept more found with ⟨rfl, token, rest, rfl, kind, stood⟩ | ⟨rfl, stood⟩
      · obtain ⟨second, middle, one, done⟩ := bind_eq_ok done
        obtain ⟨used, remaining, rfl, derived, stood⟩ := items stood one
        obtain ⟨others, last, several, done⟩ := bind_eq_ok done
        obtain ⟨rfl, rfl⟩ := pure_eq_ok done
        obtain ⟨further, final, rfl, stood, separated⟩ := ih stood several
        exact ⟨token :: (used ++ further), final, by simp, stood,
          fun first => .more first kind (separated derived)⟩
      · obtain ⟨rfl, rfl⟩ := pure_eq_ok done
        exact ⟨[], tokens, rfl, stood, fun derived => by simpa using Separated.one derived⟩

theorem sound_separated {α β : Type} {item : Parse α} {bare : α → β}
    {Item : List Token → β → Prop} (items : Sound known item bare Item) {separator : TokenKind}
    (more : separator ≠ .endOfFile ∧ separator ≠ .integerConst) (bound : Nat) :
    Sound known (separated item separator bound) (List.map bare) (Separated separator Item) := by
  intro session tokens stands values after done
  obtain ⟨first, between, one, done⟩ := bind_eq_ok done
  obtain ⟨used, rest, rfl, derived, stood⟩ := items stands one
  obtain ⟨others, last, several, done⟩ := bind_eq_ok done
  obtain ⟨rfl, rfl⟩ := pure_eq_ok done
  obtain ⟨further, final, rfl, stood, separated⟩ := sound_following items more bound stood several
  exact ⟨used ++ further, final, by simp, separated derived, stood⟩

theorem sound_variableName : Sound known variableName Variable.bare Name := by
  intro session tokens stands value after done
  obtain ⟨name, between, taken, done⟩ := bind_eq_ok done
  obtain ⟨rest, rfl, kind, stood⟩ := stands.of_expect (by decide) taken
  obtain ⟨⟨id, rfl⟩, stood⟩ := stood.of_numbered done
  exact ⟨[name], rest, rfl, .mk kind, stood⟩

/-! ## Expressions -/

theorem adding_eq_some_iff (kind : TokenKind) (operator : BinaryOperator) :
    adding kind = some operator ↔ Adding kind operator := by
  constructor
  · intro found
    cases kind <;> cases found <;> constructor
  · rintro (_ | _) <;> rfl

theorem multiplying_eq_some_iff (kind : TokenKind) (operator : BinaryOperator) :
    multiplying kind = some operator ↔ Multiplying kind operator := by
  constructor
  · intro found
    cases kind <;> cases found <;> constructor
  · rintro (_ | _ | _) <;> rfl

theorem sound_chain {operator? : TokenKind → Option BinaryOperator}
    {Operator : TokenKind → BinaryOperator → Prop}
    (operators : ∀ kind operator, operator? kind = some operator ↔ Operator kind operator)
    (ended : operator? .endOfFile = none) (literal : operator? .integerConst = none) {operand : Parse Expr}
    {Operand : List Token → Expr → Prop} (operands : Sound known operand Expr.bare Operand) :
    ∀ (bound : Nat) (left : Expr) {before : List Token}, Chain Operator Operand before left.bare →
      ∀ {session : Session} {tokens : List Token}, session.Stands tokens known →
      ∀ {value : Expr} {after : Session},
        chain operator? operand bound left session = .ok value after →
        ∃ used rest, tokens = used ++ rest
          ∧ Chain Operator Operand (before ++ used) value.bare ∧ after.Stands rest known := by
  intro bound
  induction bound with
  | zero =>
      intro left before derived session tokens stands value after done
      obtain ⟨rfl, rfl⟩ := pure_eq_ok done
      exact ⟨[], tokens, rfl, by simpa using derived, stands⟩
  | succ bound ih =>
      intro left before derived session tokens stands value after done
      obtain ⟨rest, rfl⟩ := stands.exists_cons
      rw [chain, bind_eq stands.currentToken] at done
      cases found : operator? session.current.kind with
      | none =>
          rw [found] at done
          obtain ⟨rfl, rfl⟩ := pure_eq_ok done
          exact ⟨[], _, rfl, by simpa using derived, stands⟩
      | some operator =>
          rw [found] at done
          have more : session.current.kind ≠ .endOfFile := by
            intro last
            rw [last, ended] at found
            cases found
          have fits : session.current.Fits := by
            refine Token.fits_of_ne fun constant => ?_
            rw [constant, literal] at found
            cases found
          obtain ⟨_, between, moved, done⟩ := bind_eq_ok done
          have stood := stands.of_consume more fits moved
          obtain ⟨right, behind, one, done⟩ := bind_eq_ok done
          obtain ⟨used, remaining, rfl, second, stood⟩ := operands stood one
          obtain ⟨id, numbered, fresh, done⟩ := bind_eq_ok done
          have stood := stood.of_freshId fresh
          have whole := derived.next ((operators _ _).mp found) second
          obtain ⟨further, final, rfl, chained, stood⟩ := ih _ whole stood done
          refine ⟨session.current :: (used ++ further), final, by simp, ?_, stood⟩
          simpa using chained

theorem sound_term {factor : Parse Expr} (factors : Sound known factor Expr.bare Factor)
    (bound : Nat) : Sound known (term factor bound) Expr.bare Term := by
  intro session tokens stands value after done
  obtain ⟨first, between, one, done⟩ := bind_eq_ok done
  obtain ⟨used, rest, rfl, derived, stood⟩ := factors stands one
  obtain ⟨further, final, rfl, chained, stood⟩ :=
    sound_chain multiplying_eq_some_iff rfl rfl factors bound first (.first derived) stood done
  exact ⟨used ++ further, final, by simp, chained, stood⟩

theorem sound_sum {factor : Parse Expr} (factors : Sound known factor Expr.bare Factor)
    (bound : Nat) : Sound known (sum factor bound) Expr.bare Expression := by
  intro session tokens stands value after done
  obtain ⟨first, between, one, done⟩ := bind_eq_ok done
  obtain ⟨used, rest, rfl, derived, stood⟩ := sound_term factors bound stands one
  obtain ⟨further, final, rfl, chained, stood⟩ :=
    sound_chain adding_eq_some_iff rfl rfl (sound_term factors bound) bound first (.first derived)
      stood done
  exact ⟨used ++ further, final, by simp, chained, stood⟩

theorem sound_signed {operand : Parse Expr} (operands : Sound known operand Expr.bare Factor)
    {operator : UnaryOperator} {session : Session} {tokens : List Token}
    (stands : session.Stands tokens known) (sign : Sign session.current.kind operator)
    {value : Expr} {after : Session} (done : signed operator operand session = .ok value after) :
    ∃ used rest, tokens = used ++ rest ∧ Factor used value.bare ∧ after.Stands rest known := by
  obtain ⟨rest, rfl⟩ := stands.exists_cons
  have more : session.current.kind ≠ .endOfFile ∧ session.current.kind ≠ .integerConst := by
    constructor <;> intro other <;> rw [other] at sign <;> cases sign
  rw [signed, bind_eq stands.currentToken] at done
  obtain ⟨_, between, moved, done⟩ := bind_eq_ok done
  have stood := stands.of_consume more.1 (Token.fits_of_ne more.2) moved
  obtain ⟨inner, behind, one, done⟩ := bind_eq_ok done
  obtain ⟨used, remaining, rfl, derived, stood⟩ := operands stood one
  obtain ⟨⟨id, rfl⟩, stood⟩ := stood.of_numbered done
  exact ⟨session.current :: used, remaining, rfl, .signed sign derived, stood⟩

/-- A literal that is accepted is small enough and stands for the value of its digits. -/
theorem ofIntegerLiteral?_eq_some {text : String} {number : Number}
    (accepted : Number.ofIntegerLiteral? text = some number) :
    Number.digitsValue text.toList ≤ 9223372036854775807
      ∧ number = .integer (Int64.ofNat (Number.digitsValue text.toList)) := by
  rw [Number.ofIntegerLiteral?, Number.ofExact] at accepted
  split at accepted
  · rename_i exact
    split at exact
    · rename_i small
      injection exact with same
      injection accepted with number
      refine ⟨Int.ofNat_le.mp small.2, ?_⟩
      rw [← number, ← same]
      rfl
    · cases exact
  · cases accepted

theorem sound_integerLiteral : Sound known integerLiteral Expr.bare Factor := by
  intro session tokens stands value after done
  obtain ⟨literal, between, taken, done⟩ := bind_eq_ok done
  cases found : Number.ofIntegerLiteral? literal.text with
  | none =>
      rw [found] at done
      cases done
  | some number =>
      rw [found] at done
      obtain ⟨small, rfl⟩ := ofIntegerLiteral?_eq_some found
      obtain ⟨rest, rfl, kind, stood⟩ := stands.of_expect_fits (by decide) (fun _ => small) taken
      obtain ⟨⟨id, rfl⟩, stood⟩ := stood.of_numbered done
      exact ⟨[literal], rest, rfl, .integer kind, stood⟩

theorem sound_realLiteral : Sound known realLiteral Expr.bare Factor := by
  intro session tokens stands value after done
  obtain ⟨literal, between, taken, done⟩ := bind_eq_ok done
  obtain ⟨rest, rfl, kind, stood⟩ := stands.of_expect (by decide) taken
  obtain ⟨⟨id, rfl⟩, stood⟩ := stood.of_numbered done
  exact ⟨[literal], rest, rfl, .real kind, stood⟩

theorem sound_factor : ∀ bound : Nat, Sound known (factor bound) Expr.bare Factor := by
  intro bound
  induction bound with
  | zero => intro session tokens stands value after done; exact absurd done refuse_ne_ok
  | succ bound ih =>
      intro session tokens stands value after done
      obtain ⟨rest, rfl⟩ := stands.exists_cons
      rw [factor, bind_eq stands.currentToken] at done
      cases kind : session.current.kind <;> rw [kind] at done
      case plus => exact sound_signed ih stands (kind ▸ .plus) done
      case minus => exact sound_signed ih stands (kind ▸ .minus) done
      case integerConst => exact sound_integerLiteral stands done
      case realConst => exact sound_realLiteral stands done
      case parenthesisLeft =>
          obtain ⟨_, between, moved, done⟩ := bind_eq_ok done
          have stood := stands.of_consume (by rw [kind]; decide)
            (Token.fits_of_kind kind (by decide)) moved
          obtain ⟨inner, behind, one, done⟩ := bind_eq_ok done
          obtain ⟨used, remaining, rfl, derived, stood⟩ := sound_sum ih bound stood one
          obtain ⟨closing, closed, taken, done⟩ := bind_eq_ok done
          obtain ⟨final, rfl, closes, stood⟩ := stood.of_expect (by decide) taken
          obtain ⟨rfl, rfl⟩ := pure_eq_ok done
          exact ⟨session.current :: (used ++ [closing]), final, by simp,
            .parentheses (.mk kind derived closes), stood⟩
      case identifier =>
          obtain ⟨source, behind, one, done⟩ := bind_eq_ok done
          obtain ⟨used, remaining, same, derived, stood⟩ := sound_variableName stands one
          obtain ⟨rfl, rfl⟩ := pure_eq_ok done
          have read : Factor used (Expr.read source).bare := by
            rw [Expr.bare]
            generalize source.bare = name at derived
            cases derived with
            | mk kind => exact .name kind
          exact ⟨used, remaining, same, read, stood⟩
      all_goals exact absurd done refuse_ne_ok

theorem sound_expression (bound : Nat) :
    Sound known (expression bound) Expr.bare Expression :=
  sound_sum (sound_factor bound) bound

/-! ## Statements -/

variable {callable : String → Prop}

theorem sound_emptyStatement :
    Sound known emptyStatement Statement.bare (Grammar.Statement callable) := by
  intro session tokens stands value after done
  obtain ⟨⟨id, rfl⟩, stood⟩ := stands.of_numbered done
  exact ⟨[], tokens, rfl, .empty, stood⟩

theorem sound_callWithArguments (bound : Nat) :
    Sound known (callWithArguments bound) Statement.bare (Grammar.Statement callable) := by
  intro session tokens stands value after done
  obtain ⟨name, _, taken, done⟩ := bind_eq_ok done
  obtain ⟨rest, rfl, kind, stood⟩ := stands.of_expect (by decide) taken
  obtain ⟨opening, _, taken, done⟩ := bind_eq_ok done
  obtain ⟨rest, rfl, opens, stood⟩ := stood.of_expect (by decide) taken
  obtain ⟨arguments, _, several, done⟩ := bind_eq_ok done
  obtain ⟨used, rest, rfl, derived, stood⟩ :=
    sound_separated (sound_expression bound) (by decide) bound stood several
  obtain ⟨closing, _, taken, done⟩ := bind_eq_ok done
  obtain ⟨rest, rfl, closes, stood⟩ := stood.of_expect (by decide) taken
  obtain ⟨⟨id, rfl⟩, stood⟩ := stood.of_numbered done
  exact ⟨name :: opening :: (used ++ [closing]), rest, by simp,
    .call kind (.mk opens derived closes), stood⟩

theorem sound_assignment (bound : Nat) :
    Sound known (assignment bound) Statement.bare (Grammar.Statement callable) := by
  intro session tokens stands value after done
  obtain ⟨target, _, named, done⟩ := bind_eq_ok done
  obtain ⟨first, rest, rfl, name, stood⟩ := sound_variableName stands named
  obtain ⟨sign, _, taken, done⟩ := bind_eq_ok done
  obtain ⟨rest, rfl, assigns, stood⟩ := stood.of_expect (by decide) taken
  obtain ⟨expr, _, evaluated, done⟩ := bind_eq_ok done
  obtain ⟨used, rest, rfl, derived, stood⟩ := sound_expression bound stood evaluated
  obtain ⟨⟨id, rfl⟩, stood⟩ := stood.of_numbered done
  refine ⟨first ++ sign :: used, rest, by simp, ?_, stood⟩
  rw [Statement.bare]
  generalize target.bare = declared at name
  cases name with
  | mk kind => exact .assignment kind assigns derived

theorem sound_bareCall {session : Session} {tokens : List Token}
    (stands : session.Stands tokens known) (called : callable session.current.text)
    {value : MiniPascal.Statement} {after : Session} (done : bareCall session = .ok value after) :
    ∃ used rest, tokens = used ++ rest ∧ Grammar.Statement callable used value.bare
      ∧ after.Stands rest known := by
  obtain ⟨name, _, taken, done⟩ := bind_eq_ok done
  obtain ⟨rest, rfl, kind, stood⟩ := stands.of_expect (by decide) taken
  obtain ⟨⟨id, rfl⟩, stood⟩ := stood.of_numbered done
  rw [stands.current_eq] at called
  exact ⟨[name], rest, rfl, .bareCall kind called, stood⟩

theorem sound_named (knows : ∀ name ∈ known, callable name) (bound : Nat) {session : Session}
    {tokens : List Token} (stands : session.Stands tokens known)
    (kind : session.current.kind = .identifier) {value : MiniPascal.Statement} {after : Session}
    (done : named bound session = .ok value after) :
    ∃ used rest, tokens = used ++ rest ∧ Grammar.Statement callable used value.bare
      ∧ after.Stands rest known := by
  obtain ⟨called, between, looked, done⟩ := bind_eq_ok done
  have stood := stands.of_isNext (by rw [kind]; decide) (Token.fits_of_kind kind (by decide))
    looked
  split at done
  · exact sound_callWithArguments bound stood done
  obtain ⟨assigned, middle, again, done⟩ := bind_eq_ok done
  have still : between.current.kind = .identifier := by
    rw [stood.current_unique stands, kind]
  have stood := stood.of_isNext (by rw [still]; decide) (Token.fits_of_kind still (by decide))
    again
  split at done
  · exact sound_assignment bound stood done
  obtain ⟨rest, rfl⟩ := stood.exists_cons
  rw [bind_eq stood.currentToken, bind_eq (stood.knows _)] at done
  split at done
  · rename_i listed
    exact sound_bareCall stood (knows _ (List.contains_iff_mem.mp listed)) done
  · exact sound_assignment bound stood done

theorem sound_compoundOf {item : Parse MiniPascal.Statement}
    (items : Sound known item Statement.bare (Grammar.Statement callable)) (bound : Nat) :
    Sound known (compoundOf item bound) (fun body => body.statements.map Statement.bare)
      (Grammar.Compound callable) := by
  intro session tokens stands value after done
  obtain ⟨opening, _, taken, done⟩ := bind_eq_ok done
  obtain ⟨rest, rfl, opens, stood⟩ := stands.of_expect (by decide) taken
  obtain ⟨statements, _, several, done⟩ := bind_eq_ok done
  obtain ⟨used, rest, rfl, derived, stood⟩ :=
    sound_separated items (by decide) bound stood several
  obtain ⟨closing, _, taken, done⟩ := bind_eq_ok done
  obtain ⟨rest, rfl, closes, stood⟩ := stood.of_expect (by decide) taken
  obtain ⟨⟨id, rfl⟩, stood⟩ := stood.of_numbered done
  exact ⟨opening :: (used ++ [closing]), rest, by simp, .mk opens derived closes, stood⟩

theorem sound_statement (knows : ∀ name ∈ known, callable name) : ∀ bound : Nat,
    Sound known (statement bound) Statement.bare (Grammar.Statement callable) := by
  intro bound
  induction bound with
  | zero => exact sound_emptyStatement
  | succ bound ih =>
      intro session tokens stands value after done
      obtain ⟨rest, rfl⟩ := stands.exists_cons
      rw [statement, bind_eq stands.currentToken] at done
      cases kind : session.current.kind <;> rw [kind] at done
      case begin =>
          obtain ⟨body, _, bracketed, done⟩ := bind_eq_ok done
          obtain ⟨used, remaining, same, derived, stood⟩ := sound_compoundOf ih bound stands bracketed
          obtain ⟨rfl, rfl⟩ := pure_eq_ok done
          refine ⟨used, remaining, same, ?_, stood⟩
          rw [Statement.bare, Statement.bareAll_eq_map]
          exact .compound derived
      case identifier => exact sound_named knows bound stands kind done
      all_goals exact sound_emptyStatement stands done

/-! ## Declarations -/

theorem sound_dataType : Sound known dataType Prod.fst
    (fun tokens dataType => ∃ token, tokens = [token] ∧ TypeName token.kind dataType) := by
  intro session tokens stands value after done
  obtain ⟨rest, rfl⟩ := stands.exists_cons
  rw [dataType, bind_eq stands.currentToken] at done
  cases kind : session.current.kind <;> rw [kind] at done
  case integer =>
      obtain ⟨_, between, moved, done⟩ := bind_eq_ok done
      have stood := stands.of_consume (by rw [kind]; decide)
        (Token.fits_of_kind kind (by decide)) moved
      obtain ⟨rfl, rfl⟩ := pure_eq_ok done
      exact ⟨[session.current], rest, rfl, ⟨_, rfl, kind ▸ .integer⟩, stood⟩
  case real =>
      obtain ⟨_, between, moved, done⟩ := bind_eq_ok done
      have stood := stands.of_consume (by rw [kind]; decide)
        (Token.fits_of_kind kind (by decide)) moved
      obtain ⟨rfl, rfl⟩ := pure_eq_ok done
      exact ⟨[session.current], rest, rfl, ⟨_, rfl, kind ▸ .real⟩, stood⟩
  all_goals exact absurd done refuse_ne_ok

/-- The parts of variables that share a type, as the two parsers for them begin. -/
theorem sound_variables (bound : Nat) {session : Session} {tokens : List Token}
    (stands : session.Stands tokens known) {names : List Variable} {between : Session}
    (listed : separated variableName .comma bound session = .ok names between) {colon : Token}
    {middle : Session} (taken : expect .colon between = .ok colon middle)
    {found : DataType × Position} {after : Session}
    (typed : dataType middle = .ok found after) :
    ∃ used rest, tokens = used ++ rest
      ∧ Variables used (names.map Variable.bare, found.1) ∧ after.Stands rest known := by
  obtain ⟨used, rest, rfl, derived, stood⟩ :=
    sound_separated sound_variableName (by decide) bound stands listed
  obtain ⟨rest, rfl, kind, stood⟩ := stood.of_expect (by decide) taken
  obtain ⟨last, rest, rfl, ⟨type, rfl, named⟩, behind⟩ := sound_dataType stood typed
  exact ⟨used ++ [colon, type], rest, by simp, .mk derived kind named, behind⟩

theorem sound_varDecl (bound : Nat) : Sound known (varDecl bound) VarDecl.bare
    (fun tokens decl => ∃ names dataType, decl = ⟨0, names, .ofType dataType⟩
      ∧ Variables tokens (names, dataType)) := by
  intro session tokens stands value after done
  obtain ⟨names, _, listed, done⟩ := bind_eq_ok done
  obtain ⟨colon, _, taken, done⟩ := bind_eq_ok done
  obtain ⟨⟨dataType, position⟩, _, typed, done⟩ := bind_eq_ok done
  obtain ⟨used, rest, rfl, derived, stood⟩ := sound_variables bound stands listed taken typed
  obtain ⟨first, numbered, fresh, done⟩ := bind_eq_ok done
  have stood := stood.of_freshId fresh
  obtain ⟨⟨id, rfl⟩, stood⟩ := stood.of_numbered done
  exact ⟨used, rest, rfl, ⟨names.map Variable.bare, dataType, rfl, derived⟩, stood⟩

theorem sound_varDecls : ∀ bound : Nat,
    Sound known (varDecls bound) (List.map VarDecl.bare) VarDecls := by
  intro bound
  induction bound with
  | zero => intro session tokens stands value after done; exact absurd done refuse_ne_ok
  | succ bound ih =>
      intro session tokens stands value after done
      obtain ⟨first, _, one, done⟩ := bind_eq_ok done
      obtain ⟨used, rest, rfl, ⟨names, dataType, same, derived⟩, stood⟩ :=
        sound_varDecl bound stands one
      obtain ⟨semicolon, between, taken, done⟩ := bind_eq_ok done
      obtain ⟨rest, rfl, kind, stood⟩ := stood.of_expect (by decide) taken
      obtain ⟨more, _, looked, done⟩ := bind_eq_ok done
      injection looked with answer sessions
      subst sessions
      split at done
      · obtain ⟨others, _, several, done⟩ := bind_eq_ok done
        obtain ⟨further, rest, rfl, separated, stood⟩ := ih stood several
        obtain ⟨rfl, rfl⟩ := pure_eq_ok done
        refine ⟨used ++ semicolon :: further, rest, by simp, ?_, stood⟩
        rw [List.map_cons, same]
        exact .more derived kind separated
      · obtain ⟨rfl, rfl⟩ := pure_eq_ok done
        refine ⟨used ++ [semicolon], rest, by simp, ?_, stood⟩
        rw [List.map_cons, same]
        exact .one derived kind

/-- Parameters get numbers of their own, and otherwise what their names and their type say. -/
theorem sound_paramsOf (type : DataType) (position : Position) : ∀ (names : List Variable)
    {session : Session} {tokens : List Token}, session.Stands tokens known →
    ∀ {params : List Param} {after : Session},
      paramsOf type position names session = .ok params after →
      params.map Param.bare
          = (names.map Variable.bare).map (fun name => ⟨0, name, .ofType type⟩)
        ∧ after.Stands tokens known := by
  intro names
  induction names with
  | nil =>
      intro session tokens stands params after done
      obtain ⟨rfl, rfl⟩ := pure_eq_ok done
      exact ⟨rfl, stands⟩
  | cons name rest ih =>
      intro session tokens stands params after done
      obtain ⟨_, _, fresh, done⟩ := bind_eq_ok done
      have stood := stands.of_freshId fresh
      obtain ⟨_, _, fresh, done⟩ := bind_eq_ok done
      have stood := stood.of_freshId fresh
      obtain ⟨others, _, several, done⟩ := bind_eq_ok done
      obtain ⟨same, stood⟩ := ih stood several
      obtain ⟨rfl, rfl⟩ := pure_eq_ok done
      refine ⟨?_, stood⟩
      rw [List.map_cons, same]
      rfl

theorem sound_paramGroup (bound : Nat) :
    Sound known (paramGroup bound) (List.map Param.bare) ParamGroup := by
  intro session tokens stands value after done
  obtain ⟨names, _, listed, done⟩ := bind_eq_ok done
  obtain ⟨colon, _, taken, done⟩ := bind_eq_ok done
  obtain ⟨⟨dataType, position⟩, _, typed, done⟩ := bind_eq_ok done
  obtain ⟨used, rest, rfl, derived, stood⟩ := sound_variables bound stands listed taken typed
  obtain ⟨same, stood⟩ := sound_paramsOf dataType position names stood done
  refine ⟨used, rest, rfl, ?_, stood⟩
  rw [same]
  exact .mk derived

theorem sound_params (bound : Nat) :
    Sound known (params bound) (List.map Param.bare) Params := by
  intro session tokens stands value after done
  obtain ⟨accepted, _, found, done⟩ := bind_eq_ok done
  rcases stands.of_accept (by decide) found with ⟨rfl, opening, rest, rfl, opens, stood⟩ | ⟨rfl, stood⟩
  · obtain ⟨groups, _, several, done⟩ := bind_eq_ok done
    obtain ⟨used, rest, rfl, derived, stood⟩ :=
      sound_separated (sound_paramGroup bound) (by decide) bound stood several
    obtain ⟨closing, _, taken, done⟩ := bind_eq_ok done
    obtain ⟨rest, rfl, closes, stood⟩ := stood.of_expect (by decide) taken
    obtain ⟨rfl, rfl⟩ := pure_eq_ok done
    refine ⟨opening :: (used ++ [closing]), rest, by simp, ?_, stood⟩
    rw [List.map_flatten]
    exact .some (.mk opens derived closes)
  · obtain ⟨rfl, rfl⟩ := pure_eq_ok done
    exact ⟨[], tokens, rfl, .none, stood⟩

/-! ## Blocks -/

/-- The same for parsers that learn names of procedures: what they know has been declared in what
has been taken so far. -/
def SoundBehind {α β : Type} (parser : Parse α) (bare : α → β)
    (Derives : List Token → List Token → β → Prop) : Prop :=
  ∀ ⦃session : Session⦄ ⦃tokens before : List Token⦄ ⦃known : List String⦄,
    session.Stands tokens known → (∀ name ∈ known, IsHeader before name) →
    ∀ ⦃value : α⦄ ⦃after : Session⦄, parser session = .ok value after →
      ∃ used rest further, tokens = used ++ rest ∧ Derives before used (bare value)
        ∧ after.Stands rest further ∧ ∀ name ∈ further, IsHeader (before ++ used) name

/-- Behind the header of a procedure its name is that of a header too. -/
theorem isHeader_of_learned {before : List Token} {known : List String} {keyword name : Token}
    (headers : ∀ other ∈ known, IsHeader before other) (opens : keyword.kind = .procedure)
    (kind : name.kind = .identifier) (more : List Token) :
    ∀ other ∈ name.text :: known, IsHeader (before ++ keyword :: name :: more) other := by
  intro other member
  rcases List.mem_cons.mp member with rfl | member
  · exact ⟨before, keyword, name, more, rfl, opens, kind, rfl⟩
  · exact isHeader_append (headers other member) _

/-- What is taken behind the keyword of a procedure, whatever procedures come next. -/
theorem sound_procedureOf {block : Parse Block}
    (blocks : SoundBehind block Block.bare Grammar.Block) (size : Nat) {session : Session}
    {tokens before : List Token} {known : List String} {keyword : Token}
    (opens : keyword.kind = .procedure) (stands : session.Stands tokens known)
    (headers : ∀ name ∈ known, IsHeader before name) {value : Procedure} {after : Session}
    (done : procedureOf block size session = .ok value after) :
    ∃ used rest further bare, tokens = used ++ rest ∧ after.Stands rest further
      ∧ (∀ name ∈ further, IsHeader (before ++ keyword :: used) name)
      ∧ (∀ values, Procedure.bareAll (value :: values) = bare :: Procedure.bareAll values)
      ∧ ∀ {others : List Token} {procedures : List Procedure},
        Procedures (before ++ keyword :: used) others procedures →
          Procedures before (keyword :: (used ++ others)) (bare :: procedures) := by
  obtain ⟨name, _, taken, done⟩ := bind_eq_ok done
  obtain ⟨rest, rfl, kind, stood⟩ := stands.of_expect (by decide) taken
  obtain ⟨_, _, learned, done⟩ := bind_eq_ok done
  have stood := stood.of_learn learned
  obtain ⟨params, _, listed, done⟩ := bind_eq_ok done
  obtain ⟨parameters, rest, rfl, derived, stood⟩ := sound_params size stood listed
  obtain ⟨semicolon, _, taken, done⟩ := bind_eq_ok done
  obtain ⟨rest, rfl, ends, stood⟩ := stood.of_expect (by decide) taken
  obtain ⟨body, _, nested, done⟩ := bind_eq_ok done
  have known := isHeader_of_learned headers opens kind (parameters ++ [semicolon])
  obtain ⟨inner, rest, further, rfl, blocked, stood, known⟩ := blocks stood known nested
  obtain ⟨last, _, taken, done⟩ := bind_eq_ok done
  obtain ⟨rest, rfl, closes, stood⟩ := stood.of_expect (by decide) taken
  obtain ⟨⟨id, rfl⟩, stood⟩ := stood.of_numbered done
  refine ⟨name :: (parameters ++ semicolon :: (inner ++ [last])), rest, further, _, by simp, stood,
    fun other member => ?_, fun _ => rfl, fun others => ?_⟩
  · simpa using isHeader_append (known other member) [last]
  · simpa using Procedures.more opens kind derived ends blocked closes others

theorem sound_proceduresOf {block : Parse Block}
    (blocks : SoundBehind block Block.bare Grammar.Block) (size : Nat) : ∀ bound : Nat,
    SoundBehind (proceduresOf block size bound) Procedure.bareAll Procedures := by
  intro bound
  induction bound with
  | zero =>
      intro session tokens before known stands headers value after done
      obtain ⟨rfl, rfl⟩ := pure_eq_ok done
      exact ⟨[], tokens, known, rfl, .none, stands, by simpa using headers⟩
  | succ bound ih =>
      intro session tokens before known stands headers value after done
      obtain ⟨accepted, _, found, done⟩ := bind_eq_ok done
      rcases stands.of_accept (by decide) found with
        ⟨rfl, keyword, rest, rfl, opens, stood⟩ | ⟨rfl, stood⟩
      · obtain ⟨first, _, one, done⟩ := bind_eq_ok done
        obtain ⟨used, rest, further, bare, rfl, stood, known, same, more⟩ :=
          sound_procedureOf blocks size opens stood headers one
        obtain ⟨others, _, several, done⟩ := bind_eq_ok done
        obtain ⟨rfl, rfl⟩ := pure_eq_ok done
        obtain ⟨later, rest, final, rfl, derivation, stood, known⟩ := ih stood known several
        refine ⟨keyword :: (used ++ later), rest, final, by simp, ?_, stood, by simpa using known⟩
        rw [same]
        exact more derivation
      · obtain ⟨rfl, rfl⟩ := pure_eq_ok done
        exact ⟨[], tokens, known, rfl, .none, stood, by simpa using headers⟩

/-- The optional declarations of variables, as a parser of their own. -/
def declarationsOf (bound : Nat) : Parse (List VarDecl) := do
  let accepted ← accept .var
  if accepted then varDecls bound else pure []

theorem block_succ (bound : Nat) :
    block (bound + 1) = (do
      let declarations ← declarationsOf bound
      let procedures ← proceduresOf (block bound) bound (bound + 1)
      let body ← compoundOf (statement bound) bound
      return ⟨← freshId, declarations, procedures, body⟩) := by
  rw [block, declarationsOf, bind_assoc]
  refine congrArg _ (funext fun accepted => ?_)
  cases accepted <;> rfl

theorem sound_declarationsOf (bound : Nat) :
    Sound known (declarationsOf bound) (List.map VarDecl.bare) Declarations := by
  intro session tokens stands value after done
  obtain ⟨accepted, _, found, done⟩ := bind_eq_ok done
  rcases stands.of_accept (by decide) found with
    ⟨rfl, keyword, rest, rfl, opens, stood⟩ | ⟨rfl, stood⟩
  · obtain ⟨used, rest, rfl, derived, stood⟩ := sound_varDecls bound stood done
    exact ⟨keyword :: used, rest, rfl, .some opens derived, stood⟩
  · obtain ⟨rfl, rfl⟩ := pure_eq_ok done
    exact ⟨[], tokens, rfl, .none, stood⟩

theorem sound_block : ∀ bound : Nat, SoundBehind (block bound) Block.bare Grammar.Block := by
  intro bound
  induction bound with
  | zero => intro session tokens before known _ _ value after done; exact absurd done refuse_ne_ok
  | succ bound ih =>
      intro session tokens before known stands headers value after done
      rw [block_succ] at done
      obtain ⟨declarations, _, declared, done⟩ := bind_eq_ok done
      obtain ⟨first, rest, rfl, derived, stood⟩ := sound_declarationsOf bound stands declared
      obtain ⟨procedures, _, nested, done⟩ := bind_eq_ok done
      obtain ⟨second, rest, further, rfl, procedural, stood, known⟩ :=
        sound_proceduresOf ih bound (bound + 1) stood
          (fun name member => isHeader_append (headers name member) first) nested
      obtain ⟨body, _, bracketed, done⟩ := bind_eq_ok done
      obtain ⟨third, rest, rfl, compound, stood⟩ :=
        sound_compoundOf (sound_statement known bound) bound stood bracketed
      obtain ⟨⟨id, rfl⟩, stood⟩ := stood.of_numbered done
      refine ⟨first ++ second ++ third, rest, further, by simp, ?_, stood, ?_⟩
      · rw [Block.bare, Statement.bareAll_eq_map]
        exact .mk derived procedural compound
      · intro name member
        simpa using isHeader_append (known name member) third

/-! ## Programs -/

/-- A program that is parsed is derived from the tokens that have been taken and the final dot. -/
theorem sound_program (bound : Nat) {session : Session} {tokens : List Token}
    (stands : session.Stands tokens []) {value : MiniPascal.Program} {after : Session}
    (done : program bound session = .ok value after) :
    ∃ used, used <+: tokens ∧ Grammar.Program used value.bare := by
  obtain ⟨keyword, _, taken, done⟩ := bind_eq_ok done
  obtain ⟨rest, rfl, opens, stood⟩ := stands.of_expect (by decide) taken
  obtain ⟨name, _, taken, done⟩ := bind_eq_ok done
  obtain ⟨rest, rfl, kind, stood⟩ := stood.of_expect (by decide) taken
  obtain ⟨semicolon, _, taken, done⟩ := bind_eq_ok done
  obtain ⟨rest, rfl, ends, stood⟩ := stood.of_expect (by decide) taken
  obtain ⟨body, between, blocked, done⟩ := bind_eq_ok done
  have none : ∀ called ∈ ([] : List String), IsHeader [keyword, name, semicolon] called := by simp
  obtain ⟨used, rest, further, rfl, derived, stood, _⟩ := sound_block bound stood none blocked
  obtain ⟨rest, rfl⟩ := stood.exists_cons
  rw [bind_eq (stood.isAt .dot)] at done
  split at done
  · rename_i same
    obtain ⟨⟨id, rfl⟩, _⟩ := stood.of_numbered done
    refine ⟨keyword :: name :: semicolon :: (used ++ [between.current]), ⟨rest, by simp⟩, ?_⟩
    exact .mk opens kind ends derived (of_decide_eq_true same)
  · exact absurd done refuse_ne_ok

end Parser
end MiniPascal
