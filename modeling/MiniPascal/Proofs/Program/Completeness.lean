import MiniPascal.Proofs.Program.Soundness

/-! # What is derived is parsed

Wherever tokens are derived and followed by a token that cannot belong to them, the parser takes
exactly these tokens and yields the tree of the derivation. A bound as great as the number of tokens
is always enough. -/
set_option autoImplicit false
namespace MiniPascal

/-- The parser takes whatever is derived, up to a token that may follow. -/
def Parse.Complete {α β : Type} (known : List String) (parser : Parse α) (bare : α → β)
    (Derives : List Token → β → Prop) (Follow : TokenKind → Prop) (bound : Nat) : Prop :=
  ∀ ⦃used : List Token⦄ ⦃tree : β⦄, Derives used tree → used.length ≤ bound →
    (∀ token ∈ used, token.Fits) →
    ∀ ⦃session : Session⦄ ⦃next : Token⦄ ⦃rest : List Token⦄,
      session.Stands (used ++ next :: rest) known → Follow next.kind →
      ∃ value after, parser session = .ok value after ∧ bare value = tree
        ∧ after.Stands (next :: rest) known

namespace Parser

open Parse Session Grammar

variable {known : List String}

theorem complete_variableName (bound : Nat) :
    Complete known variableName Variable.bare Name (fun _ => True) bound := by
  intro used tree derived _ _ session next rest stands _
  cases derived with
  | @mk token kind =>
      obtain ⟨between, taken, stood⟩ := stands.expects kind (by decide) (by simp)
      obtain ⟨id, after, numbered, stood⟩ :=
        stood.numbered fun id => (⟨id, token.text, token.start⟩ : Variable)
      refine ⟨⟨id, token.text, token.start⟩, after, ?_, rfl, stood⟩
      rw [variableName, bind_eq taken, numbered]

theorem complete_separated {α β : Type} {item : Parse α} {bare : α → β}
    {Item : List Token → β → Prop} {Follow : TokenKind → Prop} {bound : Nat}
    (items : Complete known item bare Item Follow bound) {separator : TokenKind}
    (more : separator ≠ .endOfFile) (separates : Follow separator) :
    ∀ (fuel : Nat), fuel ≤ bound → Complete known (separated item separator fuel) (List.map bare)
      (Separated separator Item) (fun kind => Follow kind ∧ kind ≠ separator) fuel := by
  intro fuel within used trees derived
  induction derived generalizing fuel with
  | one first =>
      intro short small session next rest stands follows
      obtain ⟨value, between, one, same, stood⟩ :=
        items first (by omega) small stands follows.1
      have stopped : following item separator fuel between = .ok [] between := by
        cases fuel with
        | zero => rfl
        | succ fuel =>
            rw [following, bind_eq (stood.not_accept follows.2)]
            rfl
      refine ⟨[value], between, ?_, by rw [List.map_cons, same, List.map_nil], stood⟩
      rw [separated, bind_eq one, bind_eq stopped]
      rfl
  | @more tokens others between tree trees first separating _ ih =>
      intro short small session next rest stands follows
      rw [List.length_append, List.length_cons] at short
      obtain ⟨smallFirst, smallRest⟩ := List.forall_mem_append.mp small
      rw [List.append_assoc, List.cons_append] at stands
      obtain ⟨value, middle, one, same, stood⟩ :=
        items first (by omega) smallFirst stands (separating ▸ separates)
      obtain ⟨behind, accepted, stood⟩ := stood.accept separating more (by simp)
      cases fuel with
      | zero => omega
      | succ fuel =>
          obtain ⟨values, after, several, sames, stood⟩ :=
            ih fuel (by omega) (by omega) (List.forall_mem_cons.mp smallRest).2 stood follows
          refine ⟨value :: values, after, ?_, by rw [List.map_cons, same, sames], stood⟩
          have followed : following item separator (fuel + 1) middle = .ok values after := by
            rw [following, bind_eq accepted]
            exact several
          rw [separated, bind_eq one, bind_eq followed]
          rfl

/-! ## Expressions -/

/-- Operators and operands are taken one after the other from the left. -/
theorem chain_reaches {operator? : TokenKind → Option BinaryOperator}
    {Operator : TokenKind → BinaryOperator → Prop}
    (operators : ∀ kind operator, operator? kind = some operator ↔ Operator kind operator)
    (ended : operator? .endOfFile = none) {operand : Parse Expr}
    {Operand : List Token → Expr → Prop} {Follow : TokenKind → Prop} {bound : Nat}
    (operands : Complete known operand Expr.bare Operand Follow bound)
    (separates : ∀ kind operator, Operator kind operator → Follow kind) {used : List Token}
    {tree : Expr} (derived : Chain Operator Operand used tree) (short : used.length ≤ bound)
    (small : ∀ token ∈ used, token.Fits) {session : Session} :
    ∀ {next : Token} {rest : List Token}, session.Stands (used ++ next :: rest) known →
      Follow next.kind → ∃ first between value fuel after, operand session = .ok first between
        ∧ chain operator? operand bound first between = chain operator? operand fuel value after
        ∧ value.bare = tree ∧ after.Stands (next :: rest) known ∧ bound ≤ fuel + used.length := by
  induction derived with
  | first one =>
      intro next rest stands follows
      obtain ⟨value, after, done, same, stood⟩ := operands one short small stands follows
      exact ⟨value, after, value, bound, after, done, rfl, same, stood, by omega⟩
  | @next tokens others sign operator left right _ operates one ih =>
      intro next rest stands follows
      rw [List.length_append, List.length_cons] at short
      obtain ⟨smallLeft, smallRest⟩ := List.forall_mem_append.mp small
      rw [List.append_assoc, List.cons_append] at stands
      obtain ⟨first, between, value, fuel, middle, done, reached, same, stood, enough⟩ :=
        ih (by omega) smallLeft stands (separates _ _ operates)
      have found := (operators sign.kind operator).mpr operates
      have more : sign.kind ≠ .endOfFile := by
        intro last
        rw [last, ended] at found
        cases found
      have current := stood.currentToken
      obtain ⟨moved, consumed, stood⟩ := stood.consume more (by simp)
      obtain ⟨second, behind, evaluated, equal, stood⟩ :=
        operands one (by omega) (List.forall_mem_cons.mp smallRest).2 stood follows
      obtain ⟨id, after, fresh, stood⟩ := stood.freshId
      cases fuel with
      | zero => omega
      | succ fuel =>
          refine ⟨first, between, .binary id operator value second sign.start, fuel, after, done,
            ?_, ?_, stood, ?_⟩
          · rw [reached, chain, bind_eq current]
            simp only [found]
            rw [bind_eq consumed, bind_eq evaluated, bind_eq fresh]
          · rw [Expr.bare, same, equal]
          · rw [List.length_append, List.length_cons]
            omega

theorem chain_stops {operator? : TokenKind → Option BinaryOperator} {operand : Parse Expr}
    {fuel : Nat} {value : Expr} {session : Session} {next : Token} {rest : List Token}
    (stands : session.Stands (next :: rest) known) (none : operator? next.kind = none) :
    chain operator? operand fuel value session = .ok value session := by
  cases fuel with
  | zero => rfl
  | succ fuel =>
      rw [chain, bind_eq stands.currentToken]
      simp only [none]
      rfl

theorem complete_term {factor : Parse Expr} {bound : Nat}
    (factors : Complete known factor Expr.bare Factor (fun _ => True) bound) :
    Complete known (term factor bound) Expr.bare Term (fun kind => multiplying kind = none)
      bound := by
  intro used tree derived short small session next rest stands follows
  obtain ⟨first, between, value, fuel, after, done, reached, same, stood, _⟩ :=
    chain_reaches multiplying_eq_some_iff rfl factors (fun _ _ _ => trivial) derived short small
      stands trivial
  refine ⟨value, after, ?_, same, stood⟩
  rw [term, bind_eq done, reached, chain_stops stood follows]

/-- The kinds of tokens that may follow an expression. -/
def NoOperator (kind : TokenKind) : Prop :=
  multiplying kind = none ∧ adding kind = none

theorem complete_sum {factor : Parse Expr} {bound : Nat}
    (factors : Complete known factor Expr.bare Factor (fun _ => True) bound) :
    Complete known (sum factor bound) Expr.bare Expression NoOperator bound := by
  intro used tree derived short small session next rest stands follows
  have separates : ∀ kind operator, Adding kind operator → multiplying kind = none := by
    rintro kind operator (_ | _) <;> rfl
  obtain ⟨first, between, value, fuel, after, done, reached, same, stood, _⟩ :=
    chain_reaches adding_eq_some_iff rfl (complete_term factors) separates derived short small
      stands follows.1
  refine ⟨value, after, ?_, same, stood⟩
  rw [sum, bind_eq done, reached, chain_stops stood follows.2]

theorem complete_signed (operand : Parse Expr) {operator : UnaryOperator} {sign : Token}
    {session : Session} {next : Token} {used rest remaining : List Token} {tree : Expr}
    (stands : session.Stands (sign :: (used ++ next :: rest)) known)
    (kind : Sign sign.kind operator)
    (operands : ∀ {session : Session}, session.Stands (used ++ next :: rest) known → ∃ value after,
      operand session = .ok value after ∧ value.bare = tree ∧ after.Stands remaining known) :
    ∃ value after, signed operator operand session = .ok value after
      ∧ value.bare = .unary 0 operator tree Position.start ∧ after.Stands remaining known := by
  have more : sign.kind ≠ .endOfFile := by
    intro last
    rw [last] at kind
    cases kind
  obtain ⟨moved, consumed, stood⟩ := stands.consume more (by simp)
  obtain ⟨inner, behind, done, same, stood⟩ := operands stood
  obtain ⟨id, after, numbered, stood⟩ :=
    stood.numbered fun id => Expr.unary id operator inner sign.start
  refine ⟨.unary id operator inner sign.start, after, ?_, by rw [Expr.bare, same], stood⟩
  rw [signed, bind_eq stands.currentToken, bind_eq consumed, bind_eq done, numbered]

theorem ofIntegerLiteral?_of_fits {text : String}
    (small : Number.digitsValue text.toList ≤ 9223372036854775807) :
    Number.ofIntegerLiteral? text
      = some (.integer (Int64.ofNat (Number.digitsValue text.toList))) := by
  have exact : Number.ofExact (Number.digitsValue text.toList : Int)
      = .ok (.integer (Int64.ofInt (Number.digitsValue text.toList))) := by
    rw [Number.ofExact, if_pos]
    rw [Number.least, Number.greatest]
    omega
  rw [Number.ofIntegerLiteral?, exact]
  rfl

theorem complete_factor : ∀ bound : Nat,
    Complete known (factor bound) Expr.bare Factor (fun _ => True) bound := by
  intro bound
  induction bound with
  | zero =>
      intro used tree derived short
      have none : used = [] := List.length_eq_zero_iff.mp (Nat.le_zero.mp short)
      subst none
      cases derived with
      | parentheses bracketed => cases bracketed
  | succ bound ih =>
      intro used tree derived short small session next rest stands follows
      cases derived with
      | @signed sign operator tokens operand kind inner =>
          have smallInner := (List.forall_mem_cons.mp small).2
          have within : tokens.length ≤ bound := by
            rw [List.length_cons] at short
            omega
          have signedFactor := complete_signed (factor bound) stands kind
            fun stood => ih inner within smallInner stood follows
          rw [factor, bind_eq stands.currentToken]
          rcases kind.cases with ⟨plus, rfl⟩ | ⟨minus, rfl⟩
          · simp only [plus]
            exact signedFactor
          · simp only [minus]
            exact signedFactor
      | @integer token kind =>
          obtain ⟨between, taken, stood⟩ := stands.expects kind (by decide) (by simp)
          have read := ofIntegerLiteral?_of_fits (small token List.mem_cons_self kind)
          obtain ⟨id, after, numbered, stood⟩ := stood.numbered fun id =>
            Expr.number id (.integer (Int64.ofNat (Number.digitsValue token.text.toList)))
          refine ⟨.number id _, after, ?_, rfl, stood⟩
          rw [factor, bind_eq stands.currentToken]
          simp only [kind]
          rw [integerLiteral, bind_eq taken]
          simp only [read]
          exact numbered
      | @real token kind =>
          obtain ⟨between, taken, stood⟩ := stands.expects kind (by decide) (by simp)
          obtain ⟨id, after, numbered, stood⟩ := stood.numbered fun id =>
            Expr.number id (Number.ofRealLiteral token.text)
          refine ⟨.number id _, after, ?_, rfl, stood⟩
          rw [factor, bind_eq stands.currentToken]
          simp only [kind]
          rw [realLiteral, bind_eq taken]
          exact numbered
      | parentheses bracketed =>
          cases bracketed with
          | @mk first last tokens _ opens inner closes =>
              have smallInner := (List.forall_mem_append.mp (List.forall_mem_cons.mp small).2).1
              have within : tokens.length ≤ bound := by
                rw [List.length_cons, List.length_append] at short
                omega
              rw [List.cons_append, List.append_assoc, List.singleton_append] at stands
              obtain ⟨moved, consumed, stood⟩ := stands.consume (by rw [opens]; decide) (by simp)
              obtain ⟨value, behind, done, same, stood⟩ := complete_sum ih inner within smallInner
                stood (by rw [closes]; exact ⟨rfl, rfl⟩)
              obtain ⟨after, taken, stood⟩ := stood.expects closes (by decide) (by simp)
              refine ⟨value, after, ?_, same, stood⟩
              rw [factor, bind_eq stands.currentToken]
              simp only [opens]
              rw [bind_eq consumed, bind_eq done, bind_eq taken]
              rfl
      | @name token kind =>
          obtain ⟨read, after, done, same, stood⟩ :=
            complete_variableName (bound + 1) (.mk kind) short small stands trivial
          refine ⟨.read read, after, ?_, by rw [Expr.bare, same], stood⟩
          rw [factor, bind_eq stands.currentToken]
          simp only [kind]
          rw [bind_eq done]
          rfl

theorem complete_expression (bound : Nat) :
    Complete known (expression bound) Expr.bare Expression NoOperator bound :=
  complete_sum (complete_factor bound)

/-! ## Statements -/

/-- The kinds of tokens that follow a statement. -/
def EndsStatement (kind : TokenKind) : Prop :=
  kind = .semicolon ∨ kind = .finish

theorem EndsStatement.noOperator {kind : TokenKind} (ends : EndsStatement kind) :
    NoOperator kind := by
  rcases ends with rfl | rfl <;> exact ⟨rfl, rfl⟩

theorem complete_emptyStatement {session : Session} {tokens : List Token}
    (stands : session.Stands tokens known) :
    ∃ value after, emptyStatement session = .ok value after
      ∧ value.bare = .empty 0 ∧ after.Stands tokens known := by
  obtain ⟨id, after, numbered, stood⟩ := stands.numbered MiniPascal.Statement.empty
  exact ⟨.empty id, after, numbered, rfl, stood⟩

theorem complete_callWithArguments (bound : Nat) {name : Token} {tokens : List Token}
    {arguments : List Expr} (kind : name.kind = .identifier)
    (derived : Grammar.Bracketed .parenthesisLeft .parenthesisRight (Separated .comma Expression)
      tokens arguments)
    (short : tokens.length ≤ bound + 2) (small : ∀ token ∈ tokens, token.Fits) {session : Session}
    {next : Token} {rest : List Token}
    (stands : session.Stands (name :: (tokens ++ next :: rest)) known) :
    ∃ value after, callWithArguments bound session = .ok value after
      ∧ value.bare = .call 0 name.text Position.start arguments
      ∧ after.Stands (next :: rest) known := by
  cases derived with
  | @mk first last inner _ opens listed closes =>
      have smallInner := (List.forall_mem_append.mp (List.forall_mem_cons.mp small).2).1
      have within : inner.length ≤ bound := by
        rw [List.length_cons, List.length_append, List.length_singleton] at short
        omega
      rw [List.cons_append, List.append_assoc, List.singleton_append] at stands
      obtain ⟨_, named, stood⟩ := stands.expects kind (by decide) (by simp)
      obtain ⟨_, opened, stood⟩ := stood.expects opens (by decide) (by simp)
      obtain ⟨values, _, several, same, stood⟩ :=
        complete_separated (complete_expression bound) (by decide) ⟨rfl, rfl⟩ bound (Nat.le_refl _)
          listed within smallInner stood (by rw [closes]; exact ⟨⟨rfl, rfl⟩, by decide⟩)
      obtain ⟨_, closed, stood⟩ := stood.expects closes (by decide) (by simp)
      obtain ⟨id, after, numbered, stood⟩ := stood.numbered fun id =>
        MiniPascal.Statement.call id name.text name.start values
      refine ⟨.call id name.text name.start values, after, ?_, ?_, stood⟩
      · rw [callWithArguments, bind_eq named, bind_eq opened, bind_eq several, bind_eq closed,
          numbered]
      · rw [Statement.bare, same]

theorem complete_assignment (bound : Nat) {target sign : Token} {tokens : List Token} {tree : Expr}
    (kind : target.kind = .identifier) (assigns : sign.kind = .assign)
    (derived : Expression tokens tree) (short : tokens.length ≤ bound)
    (small : ∀ token ∈ tokens, token.Fits) {session : Session} {next : Token} {rest : List Token}
    (stands : session.Stands (target :: sign :: (tokens ++ next :: rest)) known)
    (follows : NoOperator next.kind) :
    ∃ value after, assignment bound session = .ok value after
      ∧ value.bare = .assignment 0 (.named target.text) tree
      ∧ after.Stands (next :: rest) known := by
  obtain ⟨_, taken, stood⟩ := stands.expects kind (by decide) (by simp)
  obtain ⟨first, _, fresh, stood⟩ :=
    stood.numbered fun id => (⟨id, target.text, target.start⟩ : Variable)
  have named : variableName session = .ok ⟨first, target.text, target.start⟩ _ :=
    (bind_eq taken).trans fresh
  obtain ⟨_, assigned, stood⟩ := stood.expects assigns (by decide) (by simp)
  obtain ⟨value, _, evaluated, same, stood⟩ :=
    complete_expression bound derived short small stood follows
  obtain ⟨id, after, numbered, stood⟩ := stood.numbered fun id =>
    MiniPascal.Statement.assignment id ⟨first, target.text, target.start⟩ value
  refine ⟨.assignment id ⟨first, target.text, target.start⟩ value, after, ?_, ?_, stood⟩
  · rw [assignment, bind_eq named, bind_eq assigned, bind_eq evaluated, numbered]
  · rw [Statement.bare, same]
    rfl

theorem complete_compoundOf {callable : String → Prop} {item : Parse MiniPascal.Statement}
    {bound : Nat} (items : Complete known item Statement.bare (Grammar.Statement callable)
      EndsStatement bound) :
    Complete known (compoundOf item bound) (fun body => body.statements.map Statement.bare)
      (Grammar.Compound callable) (fun _ => True) (bound + 2) := by
  intro used tree derived short small session next rest stands _
  cases derived with
  | @mk first last tokens _ opens listed closes =>
      have smallInner := (List.forall_mem_append.mp (List.forall_mem_cons.mp small).2).1
      have within : tokens.length ≤ bound := by
        rw [List.length_cons, List.length_append, List.length_singleton] at short
        omega
      rw [List.cons_append, List.append_assoc, List.singleton_append] at stands
      obtain ⟨_, opened, stood⟩ := stands.expects opens (by decide) (by simp)
      obtain ⟨statements, _, several, same, stood⟩ :=
        complete_separated items (by decide) (Or.inl rfl) bound (Nat.le_refl _) listed within
          smallInner stood (by rw [closes]; exact ⟨Or.inr rfl, by decide⟩)
      obtain ⟨_, closed, stood⟩ := stood.expects closes (by decide) (by simp)
      obtain ⟨id, after, numbered, stood⟩ := stood.numbered fun id => (⟨id, statements⟩ : MiniPascal.Compound)
      refine ⟨⟨id, statements⟩, after, ?_, same, stood⟩
      rw [compoundOf, bind_eq opened, bind_eq several, bind_eq closed, numbered]

/-- What follows the name decides what kind of statement it begins. -/
theorem named_eq (bound : Nat) {session : Session} {name next : Token} {rest : List Token}
    (stands : session.Stands (name :: next :: rest) known) :
    ∃ after, after.Stands (name :: next :: rest) known ∧ named bound session
      = if next.kind = .parenthesisLeft then callWithArguments bound after
        else if next.kind = .assign then assignment bound after
        else if known.contains name.text then bareCall after else assignment bound after := by
  obtain ⟨between, called, stood⟩ := stands.isNext .parenthesisLeft
  rw [named, bind_eq called]
  by_cases opens : next.kind = .parenthesisLeft
  · refine ⟨between, stood, ?_⟩
    simp only [opens, decide_true, if_true]
  · obtain ⟨after, assigned, stood⟩ := stood.isNext .assign
    refine ⟨after, stood, ?_⟩
    simp only [opens, decide_false, Bool.false_eq_true, if_false]
    rw [bind_eq assigned]
    by_cases assigns : next.kind = .assign
    · simp only [assigns, decide_true, if_true]
    · simp only [assigns, decide_false, Bool.false_eq_true, if_false]
      rw [bind_eq stood.currentToken, bind_eq (stood.knows _)]
      split <;> rfl

theorem complete_statement {callable : String → Prop} (knows : ∀ name, callable name → name ∈ known) :
    ∀ bound : Nat, Complete known (statement bound) Statement.bare (Grammar.Statement callable)
      EndsStatement bound := by
  intro bound
  induction bound with
  | zero =>
      intro used tree derived short small session next rest stands follows
      have none : used = [] := List.length_eq_zero_iff.mp (Nat.le_zero.mp short)
      subst none
      cases derived with
      | compound bracketed => cases bracketed
      | empty => exact complete_emptyStatement stands
  | succ bound ih =>
      intro used tree derived short small session next rest stands follows
      cases derived with
      | compound bracketed =>
          have begins : ∃ first others, used ++ next :: rest = first :: others
              ∧ first.kind = .begin := by
            cases bracketed with
            | mk opens => exact ⟨_, _, rfl, opens⟩
          obtain ⟨first, others, same, opens⟩ := begins
          obtain ⟨body, after, done, trees, stood⟩ :=
            complete_compoundOf ih bracketed (by omega) small stands trivial
          refine ⟨.compound body.id body.statements, after, ?_, ?_, stood⟩
          · rw [same] at stands
            rw [statement, bind_eq stands.currentToken]
            simp only [opens]
            rw [bind_eq done]
            rfl
          · rw [Statement.bare, Statement.bareAll_eq_map]
            exact congrArg (MiniPascal.Statement.compound 0) trees
      | @call name tokens arguments kind listed =>
          have opens : ∃ opening others, tokens ++ next :: rest = opening :: others
              ∧ opening.kind = .parenthesisLeft := by
            cases listed with
            | mk opens => exact ⟨_, _, rfl, opens⟩
          obtain ⟨opening, others, same, opens⟩ := opens
          have current := stands.currentToken
          rw [List.cons_append] at stands
          rw [same] at stands
          obtain ⟨after, stood, chosen⟩ := named_eq bound stands
          rw [← same] at stood
          rw [List.length_cons] at short
          have done := complete_callWithArguments bound kind listed (by omega)
            (List.forall_mem_cons.mp small).2 stood
          rw [statement, bind_eq current]
          simp only [kind]
          rw [chosen, if_pos opens]
          exact done
      | @assignment target sign tokens value kind assigns expression =>
          have current := stands.currentToken
          obtain ⟨after, stood, chosen⟩ := named_eq bound stands
          rw [List.length_cons, List.length_cons] at short
          have smallRest := (List.forall_mem_cons.mp (List.forall_mem_cons.mp small).2).2
          have done := complete_assignment bound kind assigns expression (by omega)
            smallRest stood follows.noOperator
          rw [statement, bind_eq current]
          simp only [kind]
          rw [chosen, if_neg (by rw [assigns]; decide), if_pos assigns]
          exact done
      | @bareCall name kind called =>
          have current := stands.currentToken
          obtain ⟨between, stood, chosen⟩ := named_eq bound stands
          obtain ⟨_, taken, stood⟩ := stood.expects kind (by decide) (by simp)
          obtain ⟨id, after, numbered, stood⟩ := stood.numbered fun id =>
            MiniPascal.Statement.call id name.text name.start []
          refine ⟨.call id name.text name.start [], after, ?_, rfl, stood⟩
          rw [statement, bind_eq current]
          simp only [kind]
          have neither : next.kind ≠ .parenthesisLeft ∧ next.kind ≠ .assign := by
            rcases follows with same | same <;> rw [same] <;> decide
          rw [chosen, if_neg neither.1, if_neg neither.2,
            if_pos (List.contains_iff_mem.mpr (knows _ called)), bareCall, bind_eq taken, numbered]
      | empty =>
          rw [List.nil_append] at stands
          rw [statement, bind_eq stands.currentToken]
          rcases follows with same | same <;> simp only [same]
          · exact complete_emptyStatement stands
          · exact complete_emptyStatement stands

/-! ## Declarations -/

theorem complete_dataType {token : Token} {type : DataType} (named : TypeName token.kind type)
    {session : Session} {next : Token} {rest : List Token}
    (stands : session.Stands (token :: next :: rest) known) :
    ∃ position after, dataType session = .ok (type, position) after
      ∧ after.Stands (next :: rest) known := by
  rw [dataType, bind_eq stands.currentToken]
  rcases named.cases with ⟨kind, rfl⟩ | ⟨kind, rfl⟩
  · obtain ⟨after, moved, stood⟩ := stands.consume (by rw [kind]; decide) (by simp)
    refine ⟨token.start, after, ?_, stood⟩
    simp only [kind]
    rw [bind_eq moved]
    rfl
  · obtain ⟨after, moved, stood⟩ := stands.consume (by rw [kind]; decide) (by simp)
    refine ⟨token.start, after, ?_, stood⟩
    simp only [kind]
    rw [bind_eq moved]
    rfl

/-- The parts of variables that share a type, as the two parsers for them begin. -/
theorem complete_variables {bound : Nat} {tokens : List Token} {names : List Variable}
    {type : DataType} (derived : Variables tokens (names, type)) (short : tokens.length ≤ bound)
    (small : ∀ token ∈ tokens, token.Fits) {session : Session} {next : Token} {rest : List Token}
    (stands : session.Stands (tokens ++ next :: rest) known) :
    ∃ listed between colon middle position after,
      separated variableName .comma bound session = .ok listed between
        ∧ expect .colon between = .ok colon middle
        ∧ dataType middle = .ok (type, position) after
        ∧ listed.map Variable.bare = names ∧ after.Stands (next :: rest) known := by
  cases derived with
  | mk separates kind named =>
      rw [List.length_append] at short
      rw [List.append_assoc, List.cons_append, List.cons_append, List.nil_append] at stands
      obtain ⟨listed, between, done, same, stood⟩ :=
        complete_separated (complete_variableName bound) (by decide) trivial bound (Nat.le_refl _)
          separates (by omega) (List.forall_mem_append.mp small).1 stands
          ⟨trivial, by rw [kind]; decide⟩
      obtain ⟨middle, taken, stood⟩ := stood.expects kind (by decide) (by simp)
      obtain ⟨position, after, typed, stood⟩ := complete_dataType named stood
      exact ⟨listed, between, _, middle, position, after, done, taken, typed, same, stood⟩

theorem complete_varDecl (bound : Nat) {tokens : List Token} {names : List Variable}
    {type : DataType} (derived : Variables tokens (names, type)) (short : tokens.length ≤ bound)
    (small : ∀ token ∈ tokens, token.Fits) {session : Session} {next : Token} {rest : List Token}
    (stands : session.Stands (tokens ++ next :: rest) known) :
    ∃ value after, varDecl bound session = .ok value after
      ∧ value.bare = ⟨0, names, .ofType type⟩ ∧ after.Stands (next :: rest) known := by
  obtain ⟨listed, _, _, _, position, _, done, taken, typed, same, stood⟩ :=
    complete_variables derived short small stands
  obtain ⟨first, _, fresh, stood⟩ := stood.freshId
  obtain ⟨id, after, numbered, stood⟩ := stood.numbered fun id =>
    (⟨id, listed, ⟨first, type, position⟩⟩ : VarDecl)
  refine ⟨⟨id, listed, ⟨first, type, position⟩⟩, after, ?_, by rw [VarDecl.bare, same]; rfl, stood⟩
  rw [varDecl, bind_eq done, bind_eq taken, bind_eq typed]
  dsimp only
  rw [bind_eq fresh, numbered]

theorem complete_varDecls : ∀ bound : Nat, Complete known (varDecls bound) (List.map VarDecl.bare)
    VarDecls (fun kind => kind ≠ .identifier) bound := by
  intro bound used trees derived
  induction derived generalizing bound with
  | @one tokens names type semicolon sharing ends =>
      intro short small session next rest stands follows
      rw [List.length_append, List.length_singleton] at short
      rw [List.append_assoc, List.singleton_append] at stands
      cases bound with
      | zero => omega
      | succ bound =>
          obtain ⟨value, _, done, same, stood⟩ := complete_varDecl bound sharing
            (by omega) (List.forall_mem_append.mp small).1 stands
          obtain ⟨after, taken, stood⟩ := stood.expects ends (by decide) (by simp)
          refine ⟨[value], after, ?_, by rw [List.map_cons, same, List.map_nil], stood⟩
          rw [varDecls, bind_eq done, bind_eq taken, bind_eq (stood.isAt .identifier),
            decide_eq_false follows]
          rfl
  | @more tokens others names type semicolon declarations sharing ends listed ih =>
      intro short small session next rest stands follows
      obtain ⟨smallFirst, smallRest⟩ := List.forall_mem_append.mp small
      rw [List.length_append, List.length_cons] at short
      rw [List.append_assoc, List.cons_append] at stands
      cases bound with
      | zero => omega
      | succ bound =>
          obtain ⟨value, _, done, same, stood⟩ := complete_varDecl bound sharing
            (by omega) smallFirst stands
          obtain ⟨between, taken, stood⟩ := stood.expects ends (by decide) (by simp)
          obtain ⟨values, after, several, sames, stood'⟩ :=
            ih bound (by omega) (List.forall_mem_cons.mp smallRest).2 stood follows
          refine ⟨value :: values, after, ?_, by rw [List.map_cons, same, sames], stood'⟩
          obtain ⟨token, further, rfl, kind⟩ := listed.exists_name
          rw [List.cons_append] at stood
          rw [varDecls, bind_eq done, bind_eq taken, bind_eq (stood.isAt .identifier),
            decide_eq_true kind, if_pos rfl, bind_eq several]
          rfl

theorem complete_declarationsOf (bound : Nat) :
    Complete known (declarationsOf bound) (List.map VarDecl.bare) Declarations
      (fun kind => kind ≠ .identifier ∧ kind ≠ .var) (bound + 1) := by
  intro used trees derived short small session next rest stands follows
  cases derived with
  | none =>
      refine ⟨[], session, ?_, rfl, stands⟩
      rw [declarationsOf, bind_eq (stands.not_accept follows.2)]
      rfl
  | some kind listed =>
      obtain ⟨between, accepted, stood⟩ := stands.accept kind (by decide) (by simp)
      rw [List.length_cons] at short
      obtain ⟨values, after, several, same, stood⟩ :=
        complete_varDecls bound listed (by omega) (List.forall_mem_cons.mp small).2 stood follows.1
      refine ⟨values, after, ?_, same, stood⟩
      rw [declarationsOf, bind_eq accepted]
      exact several

theorem complete_paramsOf (type : DataType) (position : Position) : ∀ (names : List Variable)
    {session : Session} {tokens : List Token}, session.Stands tokens known →
    ∃ params after, paramsOf type position names session = .ok params after
      ∧ params.map Param.bare
        = (names.map Variable.bare).map (fun name => ⟨0, name, .ofType type⟩)
      ∧ after.Stands tokens known := by
  intro names
  induction names with
  | nil => intro session tokens stands; exact ⟨[], session, rfl, rfl, stands⟩
  | cons name rest ih =>
      intro session tokens stands
      obtain ⟨first, _, fresh, stood⟩ := stands.freshId
      obtain ⟨second, _, again, stood⟩ := stood.freshId
      obtain ⟨others, after, several, same, stood⟩ := ih stood
      refine ⟨⟨second, name, ⟨first, type, position⟩⟩ :: others, after, ?_, ?_, stood⟩
      · rw [paramsOf, bind_eq fresh, bind_eq again, bind_eq several]
        rfl
      · rw [List.map_cons, same]
        rfl

theorem complete_paramGroup (bound : Nat) : Complete known (paramGroup bound) (List.map Param.bare)
    ParamGroup (fun _ => True) bound := by
  intro used trees derived short small session next rest stands _
  cases derived with
  | mk sharing =>
      obtain ⟨listed, _, _, _, position, _, done, taken, typed, same, stood⟩ :=
        complete_variables sharing short small stands
      obtain ⟨values, after, several, sames, stood⟩ := complete_paramsOf _ position listed stood
      refine ⟨values, after, ?_, by rw [sames, same], stood⟩
      rw [paramGroup, bind_eq done, bind_eq taken, bind_eq typed]
      exact several

theorem complete_params (bound : Nat) : Complete known (params bound) (List.map Param.bare) Params
    (fun kind => kind ≠ .parenthesisLeft) bound := by
  intro used trees derived short small session next rest stands follows
  cases derived with
  | none =>
      refine ⟨[], session, ?_, rfl, stands⟩
      rw [params, bind_eq (stands.not_accept follows)]
      rfl
  | some bracketed =>
      cases bracketed with
      | @mk first last tokens _ opens listed closes =>
          have smallInner := (List.forall_mem_append.mp (List.forall_mem_cons.mp small).2).1
          have within : tokens.length ≤ bound := by
            rw [List.length_cons, List.length_append] at short
            omega
          rw [List.cons_append, List.append_assoc, List.singleton_append] at stands
          obtain ⟨_, accepted, stood⟩ := stands.accept opens (by decide) (by simp)
          obtain ⟨groups, _, several, same, stood⟩ :=
            complete_separated (complete_paramGroup bound) (by decide) trivial bound
              (Nat.le_refl _) listed within smallInner stood ⟨trivial, by rw [closes]; decide⟩
          obtain ⟨after, closed, stood⟩ := stood.expects closes (by decide) (by simp)
          refine ⟨groups.flatten, after, ?_, by rw [List.map_flatten, same], stood⟩
          rw [params, bind_eq accepted]
          simp only [if_true]
          rw [bind_eq several, bind_eq closed]
          rfl

/-! ## Blocks -/

/-- The same for parsers that learn names of procedures: they know what has been declared in front
of what they take, and afterwards also what is declared in it. -/
def CompleteBehind {α β : Type} (parser : Parse α) (bare : α → β)
    (Derives : List Token → List Token → β → Prop) (Follow : TokenKind → Prop) (bound : Nat) :
    Prop :=
  ∀ ⦃before used : List Token⦄ ⦃tree : β⦄, Derives before used tree → used.length ≤ bound →
    (∀ token ∈ used, token.Fits) →
    ∀ ⦃session : Session⦄ ⦃next : Token⦄ ⦃rest : List Token⦄ ⦃known : List String⦄,
      session.Stands (used ++ next :: rest) known →
      (∀ name, IsHeader before name → name ∈ known) → Follow next.kind →
      ∃ value after further, parser session = .ok value after ∧ bare value = tree
        ∧ after.Stands (next :: rest) further
        ∧ ∀ name, IsHeader (before ++ used) name → name ∈ further

theorem complete_proceduresOf {block : Parse Block} {size : Nat}
    (blocks : CompleteBehind block Block.bare Grammar.Block (fun _ => True) size) :
    ∀ fuel ≤ size + 1, CompleteBehind (proceduresOf block size fuel) Procedure.bareAll Procedures
      (fun kind => kind ≠ .procedure) fuel := by
  intro fuel
  induction fuel with
  | zero =>
      intro _ before used trees derived short small session next rest known stands headers follows
      have none : used = [] := List.length_eq_zero_iff.mp (Nat.le_zero.mp short)
      subst none
      cases derived
      exact ⟨[], session, known, rfl, rfl, stands, by simpa using headers⟩
  | succ fuel ih =>
      intro within before used trees derived short small session next rest known stands headers
        follows
      cases derived with
      | none =>
          refine ⟨[], session, known, ?_, rfl, stands, by simpa using headers⟩
          rw [proceduresOf, bind_eq (stands.not_accept follows)]
          rfl
      | @more _ parameters inner others keyword name semicolon last formal body procedures opens
          kind listed ends blocked closes derivation =>
          simp only [List.length_cons, List.length_append] at short
          have smallRest := (List.forall_mem_cons.mp (List.forall_mem_cons.mp small).2).2
          obtain ⟨smallParams, smallRest⟩ := List.forall_mem_append.mp smallRest
          obtain ⟨smallInner, smallRest⟩ :=
            List.forall_mem_append.mp (List.forall_mem_cons.mp smallRest).2
          have smallOthers := (List.forall_mem_cons.mp smallRest).2
          simp only [List.cons_append, List.append_assoc] at stands
          obtain ⟨begun, accepted, stood⟩ := stands.accept opens (by decide) (by simp)
          obtain ⟨_, named, stood⟩ := stood.expects kind (by decide) (by simp)
          obtain ⟨_, learned, stood⟩ := stood.learn name.text
          obtain ⟨params, _, several, same, stood⟩ := complete_params size listed (by omega)
            smallParams stood (by rw [ends]; decide)
          obtain ⟨_, ended, stood⟩ := stood.expects ends (by decide) (by simp)
          have plain : Plain (parameters ++ [semicolon]) :=
            plain_append listed.plain (plain_cons ends (by decide) plain_nil)
          have knows : ∀ other,
              IsHeader (before ++ keyword :: name :: (parameters ++ [semicolon])) other →
              other ∈ name.text :: known := by
            intro other header
            rcases (isHeader_append_header plain opens kind before).mp header with header | rfl
            · exact List.mem_cons_of_mem _ (headers other header)
            · exact List.mem_cons_self
          obtain ⟨value, _, further, nested, bare, stood, knows⟩ :=
            blocks blocked (by omega) smallInner stood knows trivial
          obtain ⟨_, closed, stood⟩ := stood.expects closes (by decide) (by simp)
          obtain ⟨id, between, numbered, stood⟩ := stood.numbered fun id =>
            (⟨id, name.text, name.start, params, value⟩ : Procedure)
          have behind : ∀ other, IsHeader
              (before ++ keyword :: name :: (parameters ++ semicolon :: (inner ++ [last]))) other →
              other ∈ further := by
            intro other header
            have plain : Plain [last] := plain_cons closes (by decide) plain_nil
            have begins : ∀ first ∈ [last].head?, first.kind ≠ .identifier := by
              rintro first ⟨⟩
              rw [closes]
              decide
            have shorter := (isHeader_append_plain plain begins
              (before ++ keyword :: name :: (parameters ++ semicolon :: inner))).mp
              (by simpa using header)
            exact knows other (by simpa using shorter)
          obtain ⟨values, after, final, later, sames, stood, knows⟩ :=
            ih (by omega) derivation (by omega) smallOthers stood behind follows
          refine ⟨⟨id, name.text, name.start, params, value⟩ :: values, after, final, ?_, ?_, stood,
            by simpa using knows⟩
          · have first : procedureOf block size begun
                = .ok ⟨id, name.text, name.start, params, value⟩ between := by
              rw [procedureOf, bind_eq named, bind_eq learned, bind_eq several, bind_eq ended,
                bind_eq nested, bind_eq closed, numbered]
            rw [proceduresOf, bind_eq accepted]
            simp only [if_true]
            rw [bind_eq first, bind_eq later]
            rfl
          · rw [Procedure.bareAll, same, bare, sames]

theorem complete_block : ∀ bound : Nat,
    CompleteBehind (block bound) Block.bare Grammar.Block (fun _ => True) bound := by
  intro bound
  induction bound with
  | zero =>
      intro before used tree derived short small session next rest known stands headers _
      cases derived with
      | mk _ _ compound =>
          obtain ⟨first, others, rfl, _⟩ := compound.exists_first
          simp at short
  | succ bound ih =>
      intro before used tree derived short small session next rest known stands headers _
      cases derived with
      | @mk _ declared nested body declarations procedures statements first second third =>
          obtain ⟨smallRest, smallThird⟩ := List.forall_mem_append.mp small
          obtain ⟨smallFirst, smallSecond⟩ := List.forall_mem_append.mp smallRest
          simp only [List.length_append] at short
          rw [List.append_assoc, List.append_assoc] at stands
          obtain ⟨opening, others, starts, opens⟩ := third.exists_first
          obtain ⟨head, tail, same, kinds⟩ := second.exists_head opens (others ++ next :: rest)
          have follows : head.kind ≠ .identifier ∧ head.kind ≠ .var := by
            rcases kinds with kind | kind <;> rw [kind] <;> decide
          have upcoming : nested ++ (body ++ next :: rest) = head :: tail := by
            rw [starts, List.cons_append, same]
          rw [upcoming] at stands
          obtain ⟨values, _, declares, bare, stood⟩ :=
            complete_declarationsOf bound first (by omega) smallFirst stands follows
          rw [← upcoming, starts, List.cons_append] at stood
          have knows : ∀ name, IsHeader (before ++ declared) name → name ∈ known := fun name header =>
            headers name ((isHeader_append_plain first.plain first.begins before).mp header)
          obtain ⟨nestedValues, _, further, defines, bares, stood, knows⟩ :=
            complete_proceduresOf ih (bound + 1) (Nat.le_refl _) second (by omega) smallSecond stood
              knows (by rw [opens]; decide)
          rw [← List.cons_append, ← starts] at stood
          obtain ⟨compound, _, brackets, trees, stood⟩ :=
            complete_compoundOf (complete_statement knows bound) third (by omega) smallThird stood
              trivial
          obtain ⟨id, after, numbered, stood⟩ := stood.numbered fun id =>
            (⟨id, values, nestedValues, compound⟩ : MiniPascal.Block)
          refine ⟨⟨id, values, nestedValues, compound⟩, after, further, ?_, ?_, stood, ?_⟩
          · rw [block_succ, bind_eq declares, bind_eq defines, bind_eq brackets, numbered]
          · rw [Block.bare, bare, bares, Statement.bareAll_eq_map]
            exact congrArg (fun statements => MiniPascal.Block.mk 0 declarations procedures
              ⟨0, statements⟩) trees
          · intro name header
            have begins : ∀ first ∈ body.head?, first.kind ≠ .identifier := by
              rw [starts]
              rintro first ⟨⟩
              rw [opens]
              decide
            rw [← List.append_assoc, ← List.append_assoc] at header
            exact knows name ((isHeader_append_plain third.plain begins _).mp header)

/-! ## Programs -/

/-- What a prefix of the tokens derives is the program that is parsed. -/
theorem complete_program (bound : Nat) {used : List Token} {tree : MiniPascal.Program}
    (derived : Grammar.Program used tree) (short : used.length ≤ bound)
    (small : ∀ token ∈ used, token.Fits) {session : Session} {rest : List Token}
    (stands : session.Stands (used ++ rest) []) :
    ∃ value after, program bound session = .ok value after ∧ value.bare = tree := by
  cases derived with
  | @mk keyword name semicolon dot tokens body opens kind ends blocked dots =>
      simp only [List.length_cons, List.length_append] at short
      have smallRest := (List.forall_mem_cons.mp (List.forall_mem_cons.mp small).2).2
      have smallBlock :=
        (List.forall_mem_append.mp (List.forall_mem_cons.mp smallRest).2).1
      simp only [List.cons_append, List.append_assoc, List.nil_append] at stands
      obtain ⟨_, begun, stood⟩ := stands.expects opens (by decide) (by simp)
      obtain ⟨_, named, stood⟩ := stood.expects kind (by decide) (by simp)
      obtain ⟨_, ended, stood⟩ := stood.expects ends (by decide) (by simp)
      have none : ∀ other, IsHeader [keyword, name, semicolon] other → other ∈ ([] : List String) := by
        intro other header
        have plain : Plain [keyword, name, semicolon] :=
          plain_cons opens (by decide) (plain_cons kind (by decide)
            (plain_cons ends (by decide) plain_nil))
        exact absurd header (not_isHeader_of_plain plain other)
      obtain ⟨value, _, further, nested, bare, stood, _⟩ :=
        complete_block bound blocked (by omega) smallBlock stood none trivial
      obtain ⟨id, after, numbered, _⟩ := stood.numbered fun id =>
        (⟨id, name.text, value⟩ : MiniPascal.Program)
      refine ⟨⟨id, name.text, value⟩, after, ?_, by rw [Program.bare, bare]⟩
      rw [program, bind_eq begun, bind_eq named, bind_eq ended, bind_eq nested,
        bind_eq (stood.isAt .dot), decide_eq_true dots, if_pos rfl, numbered]

end Parser
end MiniPascal
