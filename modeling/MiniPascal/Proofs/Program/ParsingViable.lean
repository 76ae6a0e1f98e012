import MiniPascal.Proofs.Program.Viability

/-! # Parsers stop at once

Wherever a parser refuses a token, what it has taken before is the beginning of something it parses.
No bound matters: a parser that runs out of it refuses the token that is the current one. -/
set_option autoImplicit false
namespace MiniPascal.Parser

open Parse Session Grammar

variable {known : List String}

theorem viable_following {α β : Type} {item : Parse α} {bare : α → β}
    {Item : List Token → β → Prop} (items : Sound known item bare Item)
    (viable : Viable known item Item) {separator : TokenKind}
    (more : separator ≠ .endOfFile ∧ separator ≠ .integerConst) :
    ∀ (bound : Nat) {session : Session} {tokens : List Token}, session.Stands tokens known →
      ∀ {expected : Expectation} {got : Token} {after : Session},
        following item separator bound session = .error (.unexpectedToken expected got) after →
        ∀ {before : List Token} {first : β}, Item before first →
          Refused tokens got after fun used =>
            Completable (Separated separator Item) (before ++ used) := by
  intro bound
  induction bound with
  | zero => intro session tokens _ expected got after failed; cases failed
  | succ bound ih =>
      intro session tokens stands expected got after failed before first derived
      obtain failed | ⟨accepted, between, found, failed⟩ := error_of_bind failed
      · exact absurd failed accept_ne_unexpected
      rcases stands.of_accept more found with ⟨rfl, token, rest, rfl, kind, stood⟩ | ⟨rfl, stood⟩
      · obtain failed | ⟨second, middle, one, failed⟩ := error_of_bind failed
        · refine (viable stood failed).behind [token] fun used begun => ?_
          simpa using begun.wrap (before ++ [token]) [] (by simp) fun tokens tree last =>
            ⟨_, by simpa using Separated.more derived kind (.one last)⟩
        obtain ⟨used, rest, rfl, next, stood⟩ := items stood one
        obtain failed | ⟨_, _, _, failed⟩ := error_of_bind failed
        · refine (ih stood failed next).behind (token :: used) fun others begun => ?_
          simpa using begun.wrap (before ++ [token]) [] (by simp) fun tokens trees several =>
            ⟨_, by simpa using Separated.more derived kind several⟩
        · cases failed
      · cases failed

theorem viable_separated {α β : Type} {item : Parse α} {bare : α → β}
    {Item : List Token → β → Prop} (items : Sound known item bare Item)
    (viable : Viable known item Item) {separator : TokenKind}
    (more : separator ≠ .endOfFile ∧ separator ≠ .integerConst) (bound : Nat) :
    Viable known (separated item separator bound) (Separated separator Item) := by
  intro session tokens stands expected got after failed
  obtain failed | ⟨first, between, one, failed⟩ := error_of_bind failed
  · refine (viable stands failed).behind [] fun used begun => ?_
    exact begun.map fun tokens tree only => ⟨_, .one only⟩
  obtain ⟨used, rest, rfl, derived, stood⟩ := items stands one
  obtain failed | ⟨_, _, _, failed⟩ := error_of_bind failed
  · exact (viable_following items viable more bound stood failed derived).behind used
      fun _ begun => begun
  · cases failed

theorem viable_variableName : Viable known variableName Name := by
  intro session tokens stands expected got after failed
  obtain failed | ⟨name, between, taken, failed⟩ := error_of_bind failed
  · exact stands.refused_of_expect failed ⟨[.filler .identifier], _, by decide, .mk rfl⟩
  · cases failed

/-! ## Expressions -/

theorem completable_factor : Completable Factor [] :=
  ⟨[.filler .identifier], _, by decide, .name rfl⟩

theorem viable_chain {operator? : TokenKind → Option BinaryOperator}
    {Operator : TokenKind → BinaryOperator → Prop}
    (operators : ∀ kind operator, operator? kind = some operator ↔ Operator kind operator)
    (ended : operator? .endOfFile = none) (literal : operator? .integerConst = none)
    {operand : Parse Expr} {Operand : List Token → Expr → Prop}
    (operands : Sound known operand Expr.bare Operand) (viable : Viable known operand Operand) :
    ∀ (bound : Nat) (left : Expr) {before : List Token}, Chain Operator Operand before left.bare →
      ∀ {session : Session} {tokens : List Token}, session.Stands tokens known →
      ∀ {expected : Expectation} {got : Token} {after : Session},
        chain operator? operand bound left session = .error (.unexpectedToken expected got) after →
        Refused tokens got after fun used =>
          Completable (Chain Operator Operand) (before ++ used) := by
  intro bound
  induction bound with
  | zero => intro left before _ session tokens _ expected got after failed; cases failed
  | succ bound ih =>
      intro left before derived session tokens stands expected got after failed
      obtain ⟨rest, rfl⟩ := stands.exists_cons
      rw [chain, bind_eq stands.currentToken] at failed
      cases found : operator? session.current.kind with
      | none =>
          rw [found] at failed
          cases failed
      | some operator =>
          rw [found] at failed
          have operates := (operators _ _).mp found
          have more : session.current.kind ≠ .endOfFile := by
            intro last
            rw [last, ended] at found
            cases found
          have fits : session.current.Fits := by
            refine Token.fits_of_ne fun constant => ?_
            rw [constant, literal] at found
            cases found
          obtain failed | ⟨_, between, moved, failed⟩ := error_of_bind failed
          · exact absurd failed consume_ne_unexpected
          have stood := stands.of_consume more fits moved
          obtain failed | ⟨right, behind, one, failed⟩ := error_of_bind failed
          · refine (viable stood failed).behind [session.current] fun used begun => ?_
            simpa using begun.wrap (before ++ [session.current]) [] (by simp)
              fun tokens tree last => ⟨_, by simpa using derived.next operates last⟩
          obtain ⟨used, rest, rfl, second, stood⟩ := operands stood one
          obtain failed | ⟨id, numbered, fresh, failed⟩ := error_of_bind failed
          · cases failed
          have stood := stood.of_freshId fresh
          refine (ih _ (derived.next operates second) stood failed).behind
            (session.current :: used) fun others begun => ?_
          simpa using begun

/-- An operand and a chain behind it. -/
theorem viable_chained {operator? : TokenKind → Option BinaryOperator}
    {Operator : TokenKind → BinaryOperator → Prop}
    (operators : ∀ kind operator, operator? kind = some operator ↔ Operator kind operator)
    (ended : operator? .endOfFile = none) (literal : operator? .integerConst = none)
    {operand : Parse Expr} {Operand : List Token → Expr → Prop}
    (operands : Sound known operand Expr.bare Operand) (viable : Viable known operand Operand)
    (bound : Nat) :
    Viable known (operand >>= chain operator? operand bound) (Chain Operator Operand) := by
  intro session tokens stands expected got after failed
  obtain failed | ⟨first, between, one, failed⟩ := error_of_bind failed
  · refine (viable stands failed).behind [] fun used begun => ?_
    exact begun.map fun tokens tree only => ⟨_, .first only⟩
  obtain ⟨used, rest, rfl, derived, stood⟩ := operands stands one
  exact (viable_chain operators ended literal operands viable bound first (.first derived)
    stood failed).behind used fun _ begun => begun

theorem viable_term {factor : Parse Expr} (factors : Sound known factor Expr.bare Factor)
    (viable : Viable known factor Factor) (bound : Nat) :
    Viable known (term factor bound) Term :=
  viable_chained multiplying_eq_some_iff rfl rfl factors viable bound

theorem viable_sum {factor : Parse Expr} (factors : Sound known factor Expr.bare Factor)
    (viable : Viable known factor Factor) (bound : Nat) :
    Viable known (sum factor bound) Expression :=
  viable_chained adding_eq_some_iff rfl rfl (sound_term factors bound)
    (viable_term factors viable bound) bound

theorem viable_signed {operand : Parse Expr} (viable : Viable known operand Factor)
    {operator : UnaryOperator} {session : Session} {tokens : List Token}
    (stands : session.Stands tokens known) (sign : Sign session.current.kind operator)
    {expected : Expectation} {got : Token} {after : Session}
    (failed : signed operator operand session = .error (.unexpectedToken expected got) after) :
    Refused tokens got after (Completable Factor) := by
  obtain ⟨rest, rfl⟩ := stands.exists_cons
  have more : session.current.kind ≠ .endOfFile ∧ session.current.kind ≠ .integerConst := by
    constructor <;> intro other <;> rw [other] at sign <;> cases sign
  rw [signed, bind_eq stands.currentToken] at failed
  obtain failed | ⟨_, between, moved, failed⟩ := error_of_bind failed
  · exact absurd failed consume_ne_unexpected
  have stood := stands.of_consume more.1 (Token.fits_of_ne more.2) moved
  obtain failed | ⟨_, _, _, failed⟩ := error_of_bind failed
  · refine (viable stood failed).behind [session.current] fun used begun => ?_
    exact begun.wrap [session.current] [] (by simp) fun tokens tree inner =>
      ⟨_, by simpa using Factor.signed sign inner⟩
  · cases failed

theorem viable_integerLiteral : Viable known integerLiteral Factor := by
  intro session tokens stands expected got after failed
  obtain failed | ⟨literal, between, taken, failed⟩ := error_of_bind failed
  · exact stands.refused_of_expect failed completable_factor
  · cases found : Number.ofIntegerLiteral? literal.text <;> rw [found] at failed <;> cases failed

theorem viable_realLiteral : Viable known realLiteral Factor := by
  intro session tokens stands expected got after failed
  obtain failed | ⟨literal, between, taken, failed⟩ := error_of_bind failed
  · exact stands.refused_of_expect failed completable_factor
  · cases failed

theorem viable_factor : ∀ bound : Nat, Viable known (factor bound) Factor := by
  intro bound
  induction bound with
  | zero =>
      intro session tokens stands expected got after failed
      exact stands.refused failed completable_factor
  | succ bound ih =>
      intro session tokens stands expected got after failed
      obtain ⟨rest, rfl⟩ := stands.exists_cons
      rw [factor, bind_eq stands.currentToken] at failed
      cases kind : session.current.kind <;> rw [kind] at failed
      case plus => exact viable_signed ih stands (kind ▸ .plus) failed
      case minus => exact viable_signed ih stands (kind ▸ .minus) failed
      case integerConst => exact viable_integerLiteral stands failed
      case realConst => exact viable_realLiteral stands failed
      case parenthesisLeft =>
          obtain failed | ⟨_, between, moved, failed⟩ := error_of_bind failed
          · exact absurd failed consume_ne_unexpected
          have stood := stands.of_consume (by rw [kind]; decide)
            (Token.fits_of_kind kind (by decide)) moved
          obtain failed | ⟨inner, behind, one, failed⟩ := error_of_bind failed
          · refine (viable_sum (sound_factor bound) ih bound stood failed).behind
              [session.current] fun used begun => ?_
            exact (begun.bracket kind (by decide)).map
              fun tokens tree inner => ⟨_, .parentheses inner⟩
          obtain ⟨used, rest, rfl, derived, stood⟩ := sound_sum (sound_factor bound) bound stood one
          obtain failed | ⟨_, _, _, failed⟩ := error_of_bind failed
          · refine (stood.refused_of_expect failed ?_).behind (session.current :: used)
              fun _ begun => begun
            rw [List.append_nil]
            exact ((Completable.of_derived derived).bracket kind (by decide)).map
              fun tokens tree inner => ⟨_, .parentheses inner⟩
          · cases failed
      case identifier =>
          obtain failed | ⟨_, _, _, failed⟩ := error_of_bind failed
          · refine (viable_variableName stands failed).behind [] fun used begun => ?_
            refine begun.map fun tokens tree name => ?_
            cases name with
            | mk kind => exact ⟨_, .name kind⟩
          · cases failed
      all_goals exact stands.refused failed completable_factor

theorem viable_expression (bound : Nat) : Viable known (expression bound) Expression :=
  viable_sum (sound_factor bound) (viable_factor bound) bound

/-! ## Statements -/

variable {callable : String → Prop}

theorem completable_statement : Completable (Grammar.Statement callable) [] :=
  ⟨[], _, by simp, .empty⟩

/-- A name in front of anything is the beginning of an assignment. -/
theorem completable_named {name : Token} (kind : name.kind = .identifier) :
    Completable (Grammar.Statement callable) [name] :=
  ⟨[.filler .assign, .filler .identifier], _, by decide,
    .assignment kind rfl (.first (.first (.name rfl)))⟩

/-- Behind a name and the beginning of its arguments, the rest of them and a parenthesis are
missing. -/
theorem viable_callWithArguments (bound : Nat) :
    Viable known (callWithArguments bound) (Grammar.Statement callable) := by
  intro session tokens stands expected got after failed
  obtain failed | ⟨name, _, taken, failed⟩ := error_of_bind failed
  · exact stands.refused_of_expect failed completable_statement
  obtain ⟨rest, rfl, kind, stood⟩ := stands.of_expect (by decide) taken
  obtain failed | ⟨opening, _, taken, failed⟩ := error_of_bind failed
  · exact (stood.refused_of_expect failed (completable_named kind)).behind [name]
      fun _ begun => begun
  obtain ⟨rest, rfl, opens, stood⟩ := stood.of_expect (by decide) taken
  have behind : ∀ {used}, Completable (Grammar.Bracketed .parenthesisLeft .parenthesisRight
      (Separated .comma Expression)) used →
      Completable (Grammar.Statement callable) (name :: used) :=
    fun begun => begun.wrap [name] [] (by simp) fun tokens trees listed =>
      ⟨_, by simpa using Grammar.Statement.call kind listed⟩
  obtain failed | ⟨arguments, _, several, failed⟩ := error_of_bind failed
  · refine (viable_separated (sound_expression bound) (viable_expression bound) (by decide) bound
      stood failed).behind [name, opening] fun used begun => ?_
    exact behind (begun.bracket opens (by decide))
  obtain ⟨used, rest, rfl, derived, stood⟩ :=
    sound_separated (sound_expression bound) (by decide) bound stood several
  obtain failed | ⟨closing, _, taken, failed⟩ := error_of_bind failed
  · refine (stood.refused_of_expect failed ?_).behind (name :: opening :: used) fun _ begun => begun
    rw [List.append_nil]
    exact behind ((Completable.of_derived derived).bracket opens (by decide))
  · cases failed

theorem viable_assignment (bound : Nat) :
    Viable known (assignment bound) (Grammar.Statement callable) := by
  intro session tokens stands expected got after failed
  obtain failed | ⟨target, _, named, failed⟩ := error_of_bind failed
  · obtain failed | ⟨_, _, _, failed⟩ := error_of_bind failed
    · exact stands.refused_of_expect failed completable_statement
    · cases failed
  obtain ⟨first, rest, rfl, name, stood⟩ := sound_variableName stands named
  generalize target.bare = declared at name
  obtain ⟨kind⟩ := name
  obtain failed | ⟨sign, _, taken, failed⟩ := error_of_bind failed
  · exact (stood.refused_of_expect failed (completable_named kind)).behind [_]
      fun _ begun => begun
  obtain ⟨rest, rfl, assigns, stood⟩ := stood.of_expect (by decide) taken
  obtain failed | ⟨_, _, _, failed⟩ := error_of_bind failed
  · refine (viable_expression bound stood failed).behind [_, sign] fun used begun => ?_
    exact begun.wrap [_, sign] [] (by simp) fun tokens tree value =>
      ⟨_, by simpa using Grammar.Statement.assignment kind assigns value⟩
  · cases failed

theorem viable_bareCall : Viable known bareCall (Grammar.Statement callable) := by
  intro session tokens stands expected got after failed
  obtain failed | ⟨name, _, taken, failed⟩ := error_of_bind failed
  · exact stands.refused_of_expect failed completable_statement
  · cases failed

theorem viable_named (bound : Nat) {session : Session} {tokens : List Token}
    (stands : session.Stands tokens known) (kind : session.current.kind = .identifier)
    {expected : Expectation} {got : Token} {after : Session}
    (failed : named bound session = .error (.unexpectedToken expected got) after) :
    Refused tokens got after (Completable (Grammar.Statement callable)) := by
  obtain failed | ⟨called, between, looked, failed⟩ := error_of_bind failed
  · exact absurd failed isNext_ne_unexpected
  have stood := stands.of_isNext (by rw [kind]; decide) (Token.fits_of_kind kind (by decide))
    looked
  split at failed
  · exact viable_callWithArguments bound stood failed
  obtain failed | ⟨assigned, middle, again, failed⟩ := error_of_bind failed
  · exact absurd failed isNext_ne_unexpected
  have still : between.current.kind = .identifier := by
    rw [stood.current_unique stands, kind]
  have stood := stood.of_isNext (by rw [still]; decide) (Token.fits_of_kind still (by decide))
    again
  split at failed
  · exact viable_assignment bound stood failed
  obtain ⟨rest, rfl⟩ := stood.exists_cons
  rw [bind_eq stood.currentToken, bind_eq (stood.knows _)] at failed
  split at failed
  · exact viable_bareCall stood failed
  · exact viable_assignment bound stood failed

theorem completable_compound : Completable (Grammar.Compound callable) [] :=
  have whole : Grammar.Compound callable (.filler .begin :: ([] ++ [.filler .finish])) [.empty 0] :=
    .mk rfl (.one .empty) rfl
  ⟨[.filler .begin, .filler .finish], _, by decide, whole⟩

theorem viable_compoundOf {item : Parse MiniPascal.Statement}
    (items : Sound known item Statement.bare (Grammar.Statement callable))
    (viable : Viable known item (Grammar.Statement callable)) (bound : Nat) :
    Viable known (compoundOf item bound) (Grammar.Compound callable) := by
  intro session tokens stands expected got after failed
  obtain failed | ⟨opening, _, taken, failed⟩ := error_of_bind failed
  · exact stands.refused_of_expect failed completable_compound
  obtain ⟨rest, rfl, opens, stood⟩ := stands.of_expect (by decide) taken
  obtain failed | ⟨statements, _, several, failed⟩ := error_of_bind failed
  · refine (viable_separated items viable (by decide) bound stood failed).behind [opening]
      fun used begun => ?_
    exact begun.bracket opens (by decide)
  obtain ⟨used, rest, rfl, derived, stood⟩ :=
    sound_separated items (by decide) bound stood several
  obtain failed | ⟨closing, _, taken, failed⟩ := error_of_bind failed
  · refine (stood.refused_of_expect failed ?_).behind (opening :: used) fun _ begun => begun
    rw [List.append_nil]
    exact (Completable.of_derived derived).bracket opens (by decide)
  · cases failed

theorem viable_statement (knows : ∀ name ∈ known, callable name) : ∀ bound : Nat,
    Viable known (statement bound) (Grammar.Statement callable) := by
  intro bound
  induction bound with
  | zero => intro session tokens _ expected got after failed; cases failed
  | succ bound ih =>
      intro session tokens stands expected got after failed
      obtain ⟨rest, rfl⟩ := stands.exists_cons
      rw [statement, bind_eq stands.currentToken] at failed
      cases kind : session.current.kind <;> rw [kind] at failed
      case begin =>
          obtain failed | ⟨_, _, _, failed⟩ := error_of_bind failed
          · refine (viable_compoundOf (sound_statement knows bound) ih bound stands
              failed).behind [] fun used begun => ?_
            exact begun.map fun tokens trees body => ⟨_, .compound body⟩
          · cases failed
      case identifier => exact viable_named bound stands kind failed
      all_goals cases failed

/-! ## Declarations -/

theorem completable_dataType : Completable
    (fun tokens dataType => ∃ token, tokens = [token] ∧ TypeName token.kind dataType) [] :=
  ⟨[.filler .integer], _, by decide, _, rfl, .integer⟩

theorem viable_dataType : Viable known dataType
    (fun tokens dataType => ∃ token, tokens = [token] ∧ TypeName token.kind dataType) := by
  intro session tokens stands expected got after failed
  obtain ⟨rest, rfl⟩ := stands.exists_cons
  rw [dataType, bind_eq stands.currentToken] at failed
  cases kind : session.current.kind <;> rw [kind] at failed
  case integer | real =>
      obtain failed | ⟨_, _, _, failed⟩ := error_of_bind failed
      · exact absurd failed consume_ne_unexpected
      · cases failed
  all_goals exact stands.refused failed completable_dataType

/-- Where one of the parts of variables that share a type is refused. -/
theorem viable_variables {α : Type} (bound : Nat)
    {further : List Variable → DataType × Position → Parse α}
    (total : ∀ names typed session error after, further names typed session ≠ .error error after)
    {session : Session} {tokens : List Token} (stands : session.Stands tokens known)
    {expected : Expectation} {got : Token} {after : Session}
    (failed : (do
      let names ← separated variableName .comma bound
      let _ ← expect .colon
      let typed ← dataType
      further names typed) session = .error (.unexpectedToken expected got) after) :
    Refused tokens got after (Completable Variables) := by
  obtain failed | ⟨names, _, listed, failed⟩ := error_of_bind failed
  · refine (viable_separated sound_variableName viable_variableName (by decide) bound stands
      failed).behind [] fun used begun => ?_
    exact begun.wrap [] [.filler .colon, .filler .integer] (by decide)
      fun tokens names listed => ⟨_, .mk listed rfl .integer⟩
  obtain ⟨used, rest, rfl, derived, stood⟩ :=
    sound_separated sound_variableName (by decide) bound stands listed
  obtain failed | ⟨colon, _, taken, failed⟩ := error_of_bind failed
  · refine (stood.refused_of_expect failed ?_).behind used fun _ begun => begun
    exact ⟨[.filler .colon, .filler .integer], _, by decide, by
      simpa using Variables.mk derived rfl .integer⟩
  obtain ⟨rest, rfl, kind, stood⟩ := stood.of_expect (by decide) taken
  obtain failed | ⟨typed, _, _, failed⟩ := error_of_bind failed
  · rw [List.append_cons]
    refine (viable_dataType stood failed).behind (used ++ [colon]) fun others begun => ?_
    refine begun.wrap (used ++ [colon]) [] (by simp) fun tokens dataType named => ?_
    obtain ⟨type, rfl, named⟩ := named
    exact ⟨_, by simpa using Variables.mk derived kind named⟩
  · exact absurd failed (total _ _ _ _ _)

theorem viable_varDecl (bound : Nat) : Viable known (varDecl bound)
    (fun tokens (decl : VarDecl) => ∃ names dataType, decl = ⟨0, names, .ofType dataType⟩
      ∧ Variables tokens (names, dataType)) := by
  intro session tokens stands expected got after failed
  refine (viable_variables bound (by intros; nofun) stands failed).behind [] fun used begun => ?_
  exact begun.map fun tokens declared derived => ⟨_, _, _, rfl, derived⟩

theorem completable_varDecls : Completable VarDecls [] :=
  have declared : Variables ([.filler .identifier] ++ [.filler .colon, .filler .integer]) _ :=
    .mk (.one (.mk rfl)) rfl .integer
  have whole : VarDecls ([.filler .identifier, .filler .colon, .filler .integer]
    ++ [.filler .semicolon]) _ := .one declared rfl
  ⟨_, _, by decide, whole⟩

theorem viable_varDecls : ∀ bound : Nat, Viable known (varDecls bound) VarDecls := by
  intro bound
  induction bound with
  | zero =>
      intro session tokens stands expected got after failed
      exact stands.refused failed completable_varDecls
  | succ bound ih =>
      intro session tokens stands expected got after failed
      obtain failed | ⟨first, _, one, failed⟩ := error_of_bind failed
      · refine (viable_varDecl bound stands failed).behind [] fun used begun => ?_
        refine begun.wrap [] [.filler .semicolon] (by decide) fun tokens decl declares => ?_
        obtain ⟨names, dataType, -, derived⟩ := declares
        exact ⟨_, .one derived rfl⟩
      obtain ⟨used, rest, rfl, ⟨names, dataType, -, derived⟩, stood⟩ :=
        sound_varDecl bound stands one
      obtain failed | ⟨semicolon, between, taken, failed⟩ := error_of_bind failed
      · refine (stood.refused_of_expect failed ?_).behind used fun _ begun => begun
        exact ⟨[.filler .semicolon], _, by decide, by simpa using VarDecls.one derived rfl⟩
      obtain ⟨rest, rfl, kind, stood⟩ := stood.of_expect (by decide) taken
      obtain failed | ⟨more, _, looked, failed⟩ := error_of_bind failed
      · cases failed
      cases looked
      split at failed
      · obtain failed | ⟨_, _, _, failed⟩ := error_of_bind failed
        · rw [List.append_cons]
          refine (ih stood failed).behind (used ++ [semicolon]) fun others begun => ?_
          exact begun.wrap (used ++ [semicolon]) [] (by simp) fun tokens trees declares =>
            ⟨_, by simpa using VarDecls.more derived kind declares⟩
        · cases failed
      · cases failed

theorem paramsOf_ne_error (type : DataType) (position : Position) : ∀ (names : List Variable)
    {session after : Session} {error : ParseError},
      paramsOf type position names session ≠ .error error after := by
  intro names
  induction names with
  | nil => intro session after error failed; cases failed
  | cons name rest ih =>
      intro session after error failed
      obtain failed | ⟨_, _, _, failed⟩ := error_of_bind failed
      · cases failed
      obtain failed | ⟨_, _, _, failed⟩ := error_of_bind failed
      · cases failed
      obtain failed | ⟨_, _, _, failed⟩ := error_of_bind failed
      · exact ih failed
      · cases failed

theorem viable_paramGroup (bound : Nat) : Viable known (paramGroup bound) ParamGroup := by
  intro session tokens stands expected got after failed
  have total : ∀ (names : List Variable) (typed : DataType × Position) (session : Session)
      (error : ParseError) (after : Session),
      paramsOf typed.1 typed.2 names session ≠ .error error after :=
    fun names typed _ _ _ => paramsOf_ne_error typed.1 typed.2 names
  refine (viable_variables bound total stands failed).behind [] fun used begun => ?_
  exact begun.map fun tokens declared derived => ⟨_, .mk derived⟩

theorem viable_params (bound : Nat) : Viable known (params bound) Params := by
  intro session tokens stands expected got after failed
  obtain failed | ⟨accepted, _, found, failed⟩ := error_of_bind failed
  · exact absurd failed accept_ne_unexpected
  rcases stands.of_accept (by decide) found with
    ⟨rfl, opening, rest, rfl, opens, stood⟩ | ⟨rfl, stood⟩
  · obtain failed | ⟨groups, _, several, failed⟩ := error_of_bind failed
    · refine (viable_separated (sound_paramGroup bound) (viable_paramGroup bound) (by decide) bound
        stood failed).behind [opening] fun used begun => ?_
      exact (begun.bracket opens (by decide)).map fun tokens groups listed => ⟨_, .some listed⟩
    obtain ⟨used, rest, rfl, derived, stood⟩ :=
      sound_separated (sound_paramGroup bound) (by decide) bound stood several
    obtain failed | ⟨_, _, _, failed⟩ := error_of_bind failed
    · refine (stood.refused_of_expect failed ?_).behind (opening :: used) fun _ begun => begun
      rw [List.append_nil]
      exact ((Completable.of_derived derived).bracket opens (by decide)).map
        fun tokens groups listed => ⟨_, .some listed⟩
    · cases failed
  · cases failed

/-! ## Blocks -/

/-- The same for parsers that learn names of procedures. -/
def ViableBehind {α β : Type} (parser : Parse α) (Derives : List Token → List Token → β → Prop) :
    Prop :=
  ∀ ⦃session : Session⦄ ⦃tokens before : List Token⦄ ⦃known : List String⦄,
    session.Stands tokens known → (∀ name ∈ known, IsHeader before name) →
    ∀ ⦃expected : Expectation⦄ ⦃got : Token⦄ ⦃after : Session⦄,
      parser session = .error (.unexpectedToken expected got) after →
        Refused tokens got after (Completable (Derives before))

theorem exists_block (before : List Token) :
    ∃ tree, Grammar.Block before [.filler .begin, .filler .finish] tree :=
  have body : Grammar.Compound (IsHeader (before ++ [] ++ []))
    (.filler .begin :: ([] ++ [.filler .finish])) [.empty 0] := .mk rfl (.one .empty) rfl
  ⟨_, .mk .none .none body⟩

/-- What stands behind the parameters of a procedure that does nothing. -/
def procedureFillers : List Token :=
  [.filler .semicolon, .filler .begin, .filler .finish, .filler .semicolon]

theorem exists_procedures {before parameters : List Token} {keyword name : Token}
    {params : List Param} (opens : keyword.kind = .procedure) (kind : name.kind = .identifier)
    (listed : Params parameters params) :
    ∃ trees, Procedures before (keyword :: name :: (parameters ++ procedureFillers)) trees := by
  obtain ⟨tree, block⟩ :=
    exists_block (before ++ keyword :: name :: (parameters ++ [.filler .semicolon]))
  exact ⟨_, .more opens kind listed rfl block rfl .none⟩

/-- Where something behind the keyword of a procedure is refused. -/
theorem viable_procedureOf {block : Parse Block}
    (blocks : SoundBehind block Block.bare Grammar.Block)
    (viable : ViableBehind block Grammar.Block) (size : Nat) {session : Session}
    {tokens before : List Token} {known : List String} {keyword : Token}
    (opens : keyword.kind = .procedure) (stands : session.Stands tokens known)
    (headers : ∀ name ∈ known, IsHeader before name) {expected : Expectation} {got : Token}
    {after : Session}
    (failed : procedureOf block size session = .error (.unexpectedToken expected got) after) :
    Refused tokens got after fun used => Completable (Procedures before) (keyword :: used) := by
  obtain failed | ⟨name, _, taken, failed⟩ := error_of_bind failed
  · refine stands.refused_of_expect failed ?_
    obtain ⟨trees, derived⟩ := exists_procedures opens (Token.kind_filler _) .none
    exact ⟨_, trees, by decide, derived⟩
  obtain ⟨rest, rfl, kind, stood⟩ := stands.of_expect (by decide) taken
  obtain failed | ⟨_, _, learned, failed⟩ := error_of_bind failed
  · cases failed
  have stood := stood.of_learn learned
  obtain failed | ⟨params, _, listed, failed⟩ := error_of_bind failed
  · refine (viable_params size stood failed).behind [name] fun used begun => ?_
    exact begun.wrap [keyword, name] procedureFillers (by decide) fun tokens params listed =>
      exists_procedures opens kind listed
  obtain ⟨parameters, rest, rfl, derived, stood⟩ := sound_params size stood listed
  obtain failed | ⟨semicolon, _, taken, failed⟩ := error_of_bind failed
  · refine (stood.refused_of_expect failed ?_).behind (name :: parameters) fun _ begun => begun
    rw [List.append_nil]
    exact ⟨procedureFillers, (exists_procedures opens kind derived).imp fun _ whole =>
      ⟨by decide, whole⟩⟩
  obtain ⟨rest, rfl, ends, stood⟩ := stood.of_expect (by decide) taken
  have known := isHeader_of_learned headers opens kind (parameters ++ [semicolon])
  obtain failed | ⟨body, _, nested, failed⟩ := error_of_bind failed
  · rw [← List.cons_append, List.append_cons]
    refine (viable stood known failed).behind _ fun used begun => ?_
    simpa using begun.wrap (keyword :: name :: (parameters ++ [semicolon])) [.filler .semicolon]
      (by decide) fun tokens tree block => ⟨_, by
        simpa using Procedures.more opens kind derived ends block rfl .none⟩
  obtain ⟨inner, rest, further, rfl, blocked, stood, -⟩ := blocks stood known nested
  obtain failed | ⟨_, _, _, failed⟩ := error_of_bind failed
  · have split : name :: (parameters ++ semicolon :: (inner ++ rest))
        = (name :: (parameters ++ semicolon :: inner)) ++ rest := by simp
    rw [split]
    refine (stood.refused_of_expect failed ?_).behind _ fun _ begun => begun
    exact ⟨[.filler .semicolon], _, by decide, by
      simpa using Procedures.more opens kind derived ends blocked rfl .none⟩
  · cases failed

theorem viable_proceduresOf {block : Parse Block}
    (blocks : SoundBehind block Block.bare Grammar.Block)
    (viable : ViableBehind block Grammar.Block) (size : Nat) : ∀ bound : Nat,
    ViableBehind (proceduresOf block size bound) Procedures := by
  intro bound
  induction bound with
  | zero => intro session tokens before known _ _ expected got after failed; cases failed
  | succ bound ih =>
      intro session tokens before known stands headers expected got after failed
      obtain failed | ⟨accepted, _, found, failed⟩ := error_of_bind failed
      · exact absurd failed accept_ne_unexpected
      rcases stands.of_accept (by decide) found with
        ⟨rfl, keyword, rest, rfl, opens, stood⟩ | ⟨rfl, stood⟩
      · obtain failed | ⟨first, _, one, failed⟩ := error_of_bind failed
        · exact (viable_procedureOf blocks viable size opens stood headers failed).behind [keyword]
            fun _ begun => begun
        obtain ⟨used, rest, further, bare, rfl, stood, known, -, more⟩ :=
          sound_procedureOf blocks size opens stood headers one
        obtain failed | ⟨_, _, _, failed⟩ := error_of_bind failed
        · rw [← List.cons_append]
          refine (ih stood known failed).behind (keyword :: used) fun others begun => ?_
          exact begun.wrap (keyword :: used) [] (by simp) fun tokens trees nested =>
            ⟨_, by simpa using more nested⟩
        · cases failed
      · cases failed

theorem viable_declarationsOf (bound : Nat) : Viable known (declarationsOf bound) Declarations := by
  intro session tokens stands expected got after failed
  obtain failed | ⟨accepted, _, found, failed⟩ := error_of_bind failed
  · exact absurd failed accept_ne_unexpected
  rcases stands.of_accept (by decide) found with
    ⟨rfl, keyword, rest, rfl, opens, stood⟩ | ⟨rfl, stood⟩
  · refine (viable_varDecls bound stood failed).behind [keyword] fun used begun => ?_
    exact begun.wrap [keyword] [] (by simp) fun tokens trees listed =>
      ⟨_, by simpa using Declarations.some opens listed⟩
  · cases failed

theorem viable_block : ∀ bound : Nat, ViableBehind (block bound) Grammar.Block := by
  intro bound
  induction bound with
  | zero =>
      intro session tokens before known stands _ expected got after failed
      obtain ⟨tree, derived⟩ := exists_block before
      exact stands.refused failed ⟨_, tree, by decide, derived⟩
  | succ bound ih =>
      intro session tokens before known stands headers expected got after failed
      have body : ∀ callable : String → Prop, Grammar.Compound callable
          (.filler .begin :: ([] ++ [.filler .finish])) [.empty 0] :=
        fun _ => .mk rfl (.one .empty) rfl
      rw [block_succ] at failed
      obtain failed | ⟨declarations, _, declared, failed⟩ := error_of_bind failed
      · refine (viable_declarationsOf bound stands failed).behind [] fun used begun => ?_
        exact begun.wrap [] [.filler .begin, .filler .finish] (by decide)
          fun tokens trees declares => ⟨_, by simpa using Grammar.Block.mk declares .none (body _)⟩
      obtain ⟨first, rest, rfl, declares, stood⟩ := sound_declarationsOf bound stands declared
      have known := fun name member => isHeader_append (headers name member) first
      obtain failed | ⟨procedures, _, nested, failed⟩ := error_of_bind failed
      · refine (viable_proceduresOf (sound_block bound) ih bound (bound + 1) stood known
          failed).behind first fun used begun => ?_
        exact begun.wrap first [.filler .begin, .filler .finish] (by decide)
          fun tokens trees defines => ⟨_, by simpa using Grammar.Block.mk declares defines (body _)⟩
      obtain ⟨second, rest, further, rfl, defines, stood, known⟩ :=
        sound_proceduresOf (sound_block bound) bound (bound + 1) stood known nested
      obtain failed | ⟨_, _, _, failed⟩ := error_of_bind failed
      · rw [← List.append_assoc]
        refine (viable_compoundOf (sound_statement known bound) (viable_statement known bound) bound
          stood failed).behind (first ++ second) fun used begun => ?_
        exact begun.wrap (first ++ second) [] (by simp) fun tokens trees compound =>
          ⟨_, by simpa using Grammar.Block.mk declares defines compound⟩
      · cases failed

/-! ## Programs -/

theorem exists_program {keyword name semicolon : Token} (opens : keyword.kind = .program)
    (kind : name.kind = .identifier) (ends : semicolon.kind = .semicolon) :
    ∃ tree, Grammar.Program (keyword :: name :: semicolon
      :: [.filler .begin, .filler .finish, .filler .dot]) tree := by
  obtain ⟨tree, block⟩ := exists_block [keyword, name, semicolon]
  exact ⟨_, .mk opens kind ends block rfl⟩

/-- What has been taken in front of a token that is refused is the beginning of a program. -/
theorem viable_program (bound : Nat) : Viable [] (program bound) Grammar.Program := by
  intro session tokens stands expected got after failed
  obtain failed | ⟨keyword, _, taken, failed⟩ := error_of_bind failed
  · refine stands.refused_of_expect failed ?_
    obtain ⟨tree, derived⟩ := exists_program (Token.kind_filler _)
      (Token.kind_filler _) (Token.kind_filler _)
    exact ⟨_, tree, by decide, derived⟩
  obtain ⟨rest, rfl, opens, stood⟩ := stands.of_expect (by decide) taken
  obtain failed | ⟨name, _, taken, failed⟩ := error_of_bind failed
  · refine (stood.refused_of_expect failed ?_).behind [keyword] fun _ begun => begun
    obtain ⟨tree, derived⟩ := exists_program opens (Token.kind_filler _)
      (Token.kind_filler _)
    exact ⟨_, tree, by decide, derived⟩
  obtain ⟨rest, rfl, kind, stood⟩ := stood.of_expect (by decide) taken
  obtain failed | ⟨semicolon, _, taken, failed⟩ := error_of_bind failed
  · refine (stood.refused_of_expect failed ?_).behind [keyword, name] fun _ begun => begun
    obtain ⟨tree, derived⟩ := exists_program opens kind (Token.kind_filler _)
    exact ⟨_, tree, by decide, derived⟩
  obtain ⟨rest, rfl, ends, stood⟩ := stood.of_expect (by decide) taken
  have none : ∀ called ∈ ([] : List String), IsHeader [keyword, name, semicolon] called := by simp
  obtain failed | ⟨body, between, blocked, failed⟩ := error_of_bind failed
  · refine (viable_block bound stood none failed).behind [keyword, name, semicolon]
      fun used begun => ?_
    exact begun.wrap [keyword, name, semicolon] [.filler .dot] (by decide)
      fun tokens tree block => ⟨_, .mk opens kind ends block rfl⟩
  obtain ⟨used, rest, further, rfl, derived, stood, _⟩ := sound_block bound stood none blocked
  obtain failed | ⟨found, _, looked, failed⟩ := error_of_bind failed
  · cases failed
  cases looked
  split at failed
  · cases failed
  · refine (stood.refused failed ?_).behind (keyword :: name :: semicolon :: used)
      fun _ begun => begun
    exact ⟨[.filler .dot], _, by decide, by
      simpa using Grammar.Program.mk opens kind ends derived rfl⟩

end MiniPascal.Parser
