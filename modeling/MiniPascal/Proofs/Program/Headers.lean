import MiniPascal.Proofs.Program.Grammar

/-! # Headers among tokens

Only procedures declare procedure names: no other production derives the keyword. So the headers in
front of a statement part are those of the procedures that are known there. -/
set_option autoImplicit false
namespace MiniPascal.Grammar

/-- No procedure is declared among the tokens. -/
def Plain (tokens : List Token) : Prop :=
  ∀ token ∈ tokens, token.kind ≠ .procedure

theorem plain_nil : Plain [] :=
  fun _ member => absurd member List.not_mem_nil

theorem plain_cons {token : Token} {rest : List Token} {kind : TokenKind} (same : token.kind = kind)
    (other : kind ≠ .procedure) (plain : Plain rest) : Plain (token :: rest) := by
  intro inner member
  rcases List.mem_cons.mp member with rfl | member
  · exact same ▸ other
  · exact plain inner member

theorem plain_append {first second : List Token} (left : Plain first) (right : Plain second) :
    Plain (first ++ second) := by
  intro token member
  rcases List.mem_append.mp member with member | member
  · exact left token member
  · exact right token member

theorem Separated.plain {α : Type} {separator : TokenKind} {Item : List Token → α → Prop}
    (items : ∀ {tokens item}, Item tokens item → Plain tokens) (other : separator ≠ .procedure)
    {tokens : List Token} {values : List α} (derived : Separated separator Item tokens values) :
    Plain tokens := by
  induction derived with
  | one item => exact items item
  | more item between _ ih => exact plain_append (items item) (plain_cons between other ih)

theorem Bracketed.exists_first {α : Type} {opening closing : TokenKind}
    {Inner : List Token → α → Prop} {tokens : List Token} {value : α}
    (derived : Bracketed opening closing Inner tokens value) :
    ∃ first rest, tokens = first :: rest ∧ first.kind = opening := by
  cases derived with
  | mk opens => exact ⟨_, _, rfl, opens⟩

theorem Bracketed.plain {α : Type} {opening closing : TokenKind} {Inner : List Token → α → Prop}
    (inside : ∀ {tokens inner}, Inner tokens inner → Plain tokens)
    (opens : opening ≠ .procedure) (closes : closing ≠ .procedure) {tokens : List Token} {value : α}
    (derived : Bracketed opening closing Inner tokens value) : Plain tokens := by
  cases derived with
  | mk first inner last =>
      exact plain_cons first opens (plain_append (inside inner) (plain_cons last closes plain_nil))

theorem Adding.ne_procedure {kind : TokenKind} {operator : BinaryOperator}
    (adds : Adding kind operator) : kind ≠ .procedure := by
  cases adds <;> decide

theorem Multiplying.ne_procedure {kind : TokenKind} {operator : BinaryOperator}
    (multiplies : Multiplying kind operator) : kind ≠ .procedure := by
  cases multiplies <;> decide

theorem Sign.ne_procedure {kind : TokenKind} {operator : UnaryOperator}
    (sign : Sign kind operator) : kind ≠ .procedure := by
  cases sign <;> decide

theorem Sign.cases {kind : TokenKind} {operator : UnaryOperator} (sign : Sign kind operator) :
    (kind = .plus ∧ operator = .plus) ∨ (kind = .minus ∧ operator = .minus) := by
  cases sign
  · exact Or.inl ⟨rfl, rfl⟩
  · exact Or.inr ⟨rfl, rfl⟩

theorem Chain.plain {Operator : TokenKind → BinaryOperator → Prop}
    {Operand : List Token → Expr → Prop}
    (operands : ∀ {tokens expr}, Operand tokens expr → Plain tokens)
    (others : ∀ {kind operator}, Operator kind operator → kind ≠ .procedure) {tokens : List Token}
    {expr : Expr} (derived : Chain Operator Operand tokens expr) : Plain tokens := by
  induction derived with
  | first operand => exact operands operand
  | next _ sign operand ih =>
      exact plain_append ih (plain_cons rfl (others sign) (operands operand))

theorem Factor.plain {tokens : List Token} {expr : Expr} (derived : Factor tokens expr) :
    Plain tokens := by
  induction derived using Factor.induct with
  | signed sign _ ih => exact plain_cons rfl sign.ne_procedure ih
  | integer kind => exact plain_cons kind (by decide) plain_nil
  | real kind => exact plain_cons kind (by decide) plain_nil
  | parentheses _ opens inner closes =>
      have inside := inner.plain (fun term => term.plain (fun ⟨_, plain⟩ => plain)
        Multiplying.ne_procedure) Adding.ne_procedure
      exact plain_cons opens (by decide) (plain_append inside (plain_cons closes (by decide) plain_nil))
  | name kind => exact plain_cons kind (by decide) plain_nil

theorem Expression.plain {tokens : List Token} {expr : Expr} (derived : Expression tokens expr) :
    Plain tokens :=
  Chain.plain (fun term => Chain.plain Factor.plain Multiplying.ne_procedure term)
    Adding.ne_procedure derived

variable {callable : String → Prop}

theorem Statement.plain {tokens : List Token} {statement : MiniPascal.Statement}
    (derived : Statement callable tokens statement) : Plain tokens := by
  induction derived using Statement.induct with
  | compound _ opens inner closes =>
      have inside := inner.plain (fun ⟨_, plain⟩ => plain) (by decide)
      exact plain_cons opens (by decide) (plain_append inside (plain_cons closes (by decide) plain_nil))
  | call kind arguments =>
      exact plain_cons kind (by decide) (arguments.plain
        (fun listed => listed.plain Expression.plain (by decide)) (by decide) (by decide))
  | assignment target sign value =>
      exact plain_cons target (by decide) (plain_cons sign (by decide) value.plain)
  | bareCall kind _ => exact plain_cons kind (by decide) plain_nil
  | empty => exact plain_nil

theorem Compound.plain {tokens : List Token} {statements : List MiniPascal.Statement}
    (derived : Compound callable tokens statements) : Plain tokens :=
  Bracketed.plain (fun listed => listed.plain Statement.plain (by decide)) (by decide) (by decide)
    derived

theorem Variables.plain {tokens : List Token} {declared : List Variable × DataType}
    (derived : Variables tokens declared) : Plain tokens := by
  cases derived with
  | mk names colon type =>
      have listed := names.plain (fun name => by
        cases name with
        | mk kind => exact plain_cons kind (by decide) plain_nil) (by decide)
      refine plain_append listed (plain_cons colon (by decide) (plain_cons rfl ?_ plain_nil))
      intro keyword
      rw [keyword] at type
      cases type

theorem TypeName.cases {kind : TokenKind} {type : DataType} (named : TypeName kind type) :
    (kind = .integer ∧ type = .integer) ∨ (kind = .real ∧ type = .real) := by
  cases named
  · exact Or.inl ⟨rfl, rfl⟩
  · exact Or.inr ⟨rfl, rfl⟩

/-- Declarations of variables begin with a name. -/
theorem Separated.exists_name {tokens : List Token} {names : List Variable}
    (derived : Separated .comma Name tokens names) :
    ∃ first rest, tokens = first :: rest ∧ first.kind = .identifier := by
  cases derived with
  | one name => cases name with | mk kind => exact ⟨_, _, rfl, kind⟩
  | more name => cases name with | mk kind => exact ⟨_, _, rfl, kind⟩

theorem VarDecls.exists_name {tokens : List Token} {declarations : List VarDecl}
    (derived : VarDecls tokens declarations) :
    ∃ first rest, tokens = first :: rest ∧ first.kind = .identifier := by
  have names : ∀ {tokens declared}, Variables tokens declared →
      ∃ first rest, tokens = first :: rest ∧ first.kind = .identifier := by
    rintro _ _ ⟨listed, _, _⟩
    obtain ⟨first, rest, rfl, kind⟩ := listed.exists_name
    exact ⟨first, _, rfl, kind⟩
  cases derived with
  | one listed =>
      obtain ⟨first, rest, rfl, kind⟩ := names listed
      exact ⟨first, _, rfl, kind⟩
  | more listed =>
      obtain ⟨first, rest, rfl, kind⟩ := names listed
      exact ⟨first, _, rfl, kind⟩

theorem VarDecls.plain {tokens : List Token} {declarations : List VarDecl}
    (derived : VarDecls tokens declarations) : Plain tokens := by
  induction derived with
  | one first kind => exact plain_append first.plain (plain_cons kind (by decide) plain_nil)
  | more first kind _ ih => exact plain_append first.plain (plain_cons kind (by decide) ih)

theorem Declarations.plain {tokens : List Token} {declarations : List VarDecl}
    (derived : Declarations tokens declarations) : Plain tokens := by
  cases derived with
  | none => exact plain_nil
  | some kind listed => exact plain_cons kind (by decide) listed.plain

theorem Declarations.begins {tokens : List Token} {declarations : List VarDecl}
    (derived : Declarations tokens declarations) :
    ∀ first ∈ tokens.head?, first.kind ≠ .identifier := by
  cases derived with
  | none => rintro first ⟨⟩
  | some kind _ =>
      rintro first ⟨⟩
      rw [kind]
      decide

/-- Where procedures may stand, the next token is their keyword or begins the statement part. -/
theorem Procedures.exists_head {before tokens : List Token} {procedures : List Procedure}
    (derived : Procedures before tokens procedures) {opening : Token}
    (opens : opening.kind = .begin) (rest : List Token) :
    ∃ head tail, tokens ++ opening :: rest = head :: tail
      ∧ (head.kind = .procedure ∨ head.kind = .begin) := by
  cases derived with
  | none => exact ⟨opening, rest, rfl, Or.inr opens⟩
  | more kind => exact ⟨_, _, rfl, Or.inl kind⟩

theorem Params.plain {tokens : List Token} {params : List Param}
    (derived : Params tokens params) : Plain tokens := by
  cases derived with
  | none => exact plain_nil
  | some groups =>
      refine groups.plain (fun listed => listed.plain (fun group => ?_) (by decide)) (by decide)
        (by decide)
      cases group with
      | mk names => exact names.plain

/-! ## Headers in front of a place -/

theorem isHeader_cons {token : Token} {rest : List Token} {name : String} :
    IsHeader (token :: rest) name
      ↔ (∃ next others, rest = next :: others ∧ token.kind = .procedure
          ∧ next.kind = .identifier ∧ next.text = name) ∨ IsHeader rest name := by
  constructor
  · rintro ⟨before, keyword, next, after, split, opens, kind, text⟩
    cases before with
    | nil =>
        injection split with tokens others
        subst tokens
        exact Or.inl ⟨next, after, others, opens, kind, text⟩
    | cons head before =>
        injection split with _ others
        exact Or.inr ⟨before, keyword, next, after, others, opens, kind, text⟩
  · rintro (⟨next, others, rfl, opens, kind, text⟩ |
      ⟨before, keyword, next, after, rfl, opens, kind, text⟩)
    · exact ⟨[], token, next, others, rfl, opens, kind, text⟩
    · exact ⟨token :: before, keyword, next, after, rfl, opens, kind, text⟩

theorem isHeader_append {before : List Token} {name : String} (header : IsHeader before name)
    (more : List Token) : IsHeader (before ++ more) name := by
  obtain ⟨front, keyword, token, back, rfl, rest⟩ := header
  exact ⟨front, keyword, token, back ++ more, by simp, rest⟩

theorem not_isHeader_of_plain : ∀ {tokens : List Token}, Plain tokens → ∀ name : String,
    ¬ IsHeader tokens name := by
  rintro tokens plain name ⟨before, keyword, next, after, rfl, opens, _⟩
  exact plain keyword (by simp) opens

/-- Tokens that declare no procedure and do not begin with a name add no header. -/
theorem isHeader_append_plain {more : List Token} (plain : Plain more)
    (begins : ∀ first ∈ more.head?, first.kind ≠ .identifier) {name : String} :
    ∀ before : List Token, IsHeader (before ++ more) name ↔ IsHeader before name := by
  intro before
  refine ⟨?_, fun header => isHeader_append header more⟩
  induction before with
  | nil => intro header; exact absurd header (not_isHeader_of_plain plain name)
  | cons token rest ih =>
      intro header
      rw [List.cons_append, isHeader_cons] at header
      rw [isHeader_cons]
      rcases header with ⟨next, others, split, opens, kind, text⟩ | header
      · cases rest with
        | nil =>
            have first : next ∈ more.head? := by
              rw [List.nil_append] at split
              rw [split]
              rfl
            exact absurd kind (begins next first)
        | cons second rest =>
            injection split with same _
            subst same
            exact Or.inl ⟨second, rest, rfl, opens, kind, text⟩
      · exact Or.inr (ih header)

/-- A header adds its own name. -/
theorem isHeader_append_header {keyword token : Token} {more : List Token} (plain : Plain more)
    (opens : keyword.kind = .procedure) (kind : token.kind = .identifier) {name : String} :
    ∀ before : List Token, IsHeader (before ++ keyword :: token :: more) name
      ↔ IsHeader before name ∨ token.text = name := by
  intro before
  induction before with
  | nil =>
      have none : ¬ IsHeader (token :: more) name :=
        not_isHeader_of_plain (plain_cons kind (by decide) plain) name
      have empty : ¬ IsHeader [] name := not_isHeader_of_plain plain_nil name
      rw [List.nil_append, isHeader_cons, or_iff_left none, or_iff_right empty]
      constructor
      · rintro ⟨next, others, split, _, _, text⟩
        injection split with same
        exact same ▸ text
      · intro text
        exact ⟨token, more, rfl, opens, kind, text⟩
  | cons first rest ih =>
      rw [List.cons_append, isHeader_cons, ih, isHeader_cons, or_assoc]
      refine or_congr_left ?_
      cases rest with
      | nil =>
          constructor
          · rintro ⟨next, others, split, _, named, _⟩
            injection split with same
            rw [← same, opens] at named
            cases named
          · rintro ⟨next, others, split, _⟩
            cases split
      | cons second rest =>
          simp only [List.cons_append, List.cons.injEq]
          constructor
          · rintro ⟨next, others, ⟨rfl, _⟩, known⟩
            exact ⟨second, rest, ⟨rfl, rfl⟩, known⟩
          · rintro ⟨next, others, ⟨rfl, _⟩, known⟩
            exact ⟨second, _, ⟨rfl, rfl⟩, known⟩

end MiniPascal.Grammar
