import MiniPascal.Proofs.Program.Headers

/-! # Fronts of programs

The tokens of a program are its front, which declares everything, then its body, then a dot. The dot
is the only one, so a program is derived from at most one prefix of a list of tokens. Two
parentheses with nothing between them are derived from nothing. -/
set_option autoImplicit false
namespace MiniPascal.Grammar

/-- The tokens in front of the body of a program: its name and its declarations. -/
inductive Front : List Token → String → List VarDecl → List Procedure → Prop where
  | mk {keyword name semicolon : Token} {declared nested : List Token}
      {declarations : List VarDecl} {procedures : List Procedure} :
    keyword.kind = .program → name.kind = .identifier → semicolon.kind = .semicolon →
      Declarations declared declarations →
      Procedures ([keyword, name, semicolon] ++ declared) nested procedures →
      Front ([keyword, name, semicolon] ++ declared ++ nested) name.text declarations procedures

theorem Front.program {front body : List Token} {dot : Token} {name : String}
    {declarations : List VarDecl} {procedures : List Procedure}
    {statements : List MiniPascal.Statement} (derived : Front front name declarations procedures)
    (compound : Compound (IsHeader front) body statements) (dots : dot.kind = .dot) :
    Program (front ++ body ++ [dot]) ⟨0, name, ⟨0, declarations, procedures, ⟨0, statements⟩⟩⟩ := by
  cases derived with
  | mk keyword named semicolon declared nested =>
      have block := Block.mk declared nested compound
      simpa using Program.mk keyword named semicolon block dots

theorem Program.exists_front {tokens : List Token} {name : String} {declarations : List VarDecl}
    {procedures : List Procedure} {statements : List MiniPascal.Statement}
    (derived : Program tokens ⟨0, name, ⟨0, declarations, procedures, ⟨0, statements⟩⟩⟩) :
    ∃ front body dot, tokens = front ++ body ++ [dot] ∧ Front front name declarations procedures
      ∧ Compound (IsHeader front) body statements ∧ dot.kind = .dot := by
  cases derived with
  | mk keyword named semicolon block dots =>
      cases block with
      | mk declared nested compound =>
          exact ⟨_, _, _, by simp, .mk keyword named semicolon declared nested, compound, dots⟩

/-! ## Fronts end with a semicolon -/

/-- The last token is a semicolon. -/
def EndsDeclared (tokens : List Token) : Prop :=
  ∃ others last, tokens = others ++ [last] ∧ last.kind = .semicolon

theorem EndsDeclared.append {second : List Token} (ends : EndsDeclared second)
    (first : List Token) : EndsDeclared (first ++ second) := by
  obtain ⟨others, last, rfl, kind⟩ := ends
  exact ⟨first ++ others, last, (List.append_assoc _ _ _).symm, kind⟩

theorem EndsDeclared.cons {tokens : List Token} (ends : EndsDeclared tokens) (token : Token) :
    EndsDeclared (token :: tokens) :=
  ends.append [token]

theorem endsDeclared_singleton {last : Token} (kind : last.kind = .semicolon) :
    EndsDeclared [last] :=
  ⟨[], last, rfl, kind⟩

theorem VarDecls.endsDeclared {tokens : List Token} {declarations : List VarDecl}
    (derived : VarDecls tokens declarations) : EndsDeclared tokens := by
  induction derived with
  | one _ kind => exact (endsDeclared_singleton kind).append _
  | more _ _ _ ih => exact (ih.cons _).append _

theorem Declarations.nil_or_endsDeclared {tokens : List Token} {declarations : List VarDecl}
    (derived : Declarations tokens declarations) : tokens = [] ∨ EndsDeclared tokens := by
  cases derived with
  | none => exact .inl rfl
  | some _ listed => exact .inr (listed.endsDeclared.cons _)

theorem Procedures.nil_or_endsDeclared {before : List Token} :
    ∀ {tokens : List Token} {procedures : List Procedure},
      Procedures before tokens procedures → tokens = [] ∨ EndsDeclared tokens := by
  intro tokens procedures
  induction procedures generalizing before tokens with
  | nil =>
      intro derived
      cases derived
      exact .inl rfl
  | cons procedure rest ih =>
      intro derived
      cases derived with
      | @more _ parameters inner others keyword name semicolon last _ _ _ _ _ _ _ _ closes more =>
          refine .inr ?_
          have behind : EndsDeclared (last :: others) := by
            rcases ih more with rfl | ends
            · exact endsDeclared_singleton closes
            · exact ends.cons last
          exact (((behind.append inner).cons semicolon).append parameters).cons name |>.cons keyword

theorem Front.endsDeclared {tokens : List Token} {name : String} {declarations : List VarDecl}
    {procedures : List Procedure} (derived : Front tokens name declarations procedures) :
    EndsDeclared tokens := by
  cases derived with
  | @mk keyword name semicolon declared nested _ _ _ _ kind declares procedures =>
      have head : EndsDeclared [keyword, name, semicolon] :=
        ((endsDeclared_singleton kind).cons name).cons keyword
      rcases procedures.nil_or_endsDeclared with rfl | ends
      · rw [List.append_nil]
        rcases declares.nil_or_endsDeclared with rfl | ends
        · rwa [List.append_nil]
        · exact ends.append _
      · exact ends.append _

/-! ## Tidy tokens -/

/-- Neither a dot nor a parenthesis. -/
def Inert (kind : TokenKind) : Prop :=
  kind ≠ .dot ∧ kind ≠ .parenthesisLeft ∧ kind ≠ .parenthesisRight

instance (kind : TokenKind) : Decidable (Inert kind) :=
  inferInstanceAs (Decidable (_ ∧ _ ∧ _))

/-- There is no dot, and no parenthesis is closed right behind its opening; nor is the last token an
open one. The flag says whether one has been opened right in front. -/
inductive Tidy : Bool → List Token → Prop where
  | nil : Tidy false []
  | cons {opened : Bool} {token : Token} {rest : List Token} :
    token.kind ≠ .dot → (opened = true → token.kind ≠ .parenthesisRight) →
      Tidy (decide (token.kind = .parenthesisLeft)) rest → Tidy opened (token :: rest)

namespace Tidy

variable {opened : Bool} {first second tokens : List Token} {token : Token}

theorem append (left : Tidy opened first) (right : Tidy false second) :
    Tidy opened (first ++ second) := by
  induction left with
  | nil => exact right
  | cons dot closes _ ih => exact .cons dot closes ih

theorem weaken (tidy : Tidy opened tokens) : Tidy false tokens := by
  cases tidy with
  | nil => exact .nil
  | cons dot _ rest => exact .cons dot Bool.noConfusion rest

theorem inert {kind : TokenKind} (same : token.kind = kind) (other : Inert kind)
    (rest : Tidy false tokens) : Tidy opened (token :: tokens) := by
  subst same
  obtain ⟨dot, left, right⟩ := other
  exact .cons dot (fun _ => right) (decide_eq_false left ▸ rest)

theorem parentheses {last : Token} (opens : token.kind = .parenthesisLeft)
    (inner : Tidy true tokens) (closes : last.kind = .parenthesisRight) :
    Tidy opened (token :: (tokens ++ [last])) := by
  have closing : Tidy false [last] := by
    refine .cons (by rw [closes]; decide) Bool.noConfusion ?_
    rw [closes]
    exact .nil
  refine .cons (by rw [opens]; decide) (fun _ => by rw [opens]; decide) ?_
  rw [opens]
  exact inner.append closing

theorem ne_dot (tidy : Tidy opened tokens) : ∀ token ∈ tokens, token.kind ≠ .dot := by
  induction tidy with
  | nil => exact fun _ member => absurd member List.not_mem_nil
  | cons dot _ _ ih => exact List.forall_mem_cons.mpr ⟨dot, ih⟩

/-- No two parentheses with nothing between them. -/
theorem not_pair (tidy : Tidy opened tokens) {left right : Token}
    (opens : left.kind = .parenthesisLeft) (closes : right.kind = .parenthesisRight) :
    ¬ [left, right] <:+: tokens := by
  induction tidy with
  | nil => simp
  | @cons _ token rest _ _ tidy ih =>
      intro inside
      rcases List.infix_cons_iff.mp inside with ⟨more, starts⟩ | within
      · injection starts with same starts
        subst same starts
        generalize flag : decide (left.kind = .parenthesisLeft) = opened at tidy
        cases tidy with
        | cons _ free _ => exact free (flag ▸ decide_eq_true opens) closes
      · exact ih within

end Tidy

/-! ## Everything derived is tidy -/

theorem Separated.tidy {α : Type} {separator : TokenKind} {Item : List Token → α → Prop}
    {opened : Bool} (items : ∀ {tokens item}, Item tokens item → Tidy opened tokens)
    (other : Inert separator) {tokens : List Token} {values : List α}
    (derived : Separated separator Item tokens values) : Tidy opened tokens := by
  induction derived with
  | one item => exact items item
  | more item between _ ih => exact (items item).append (.inert between other ih.weaken)

theorem Chain.tidy {Operator : TokenKind → BinaryOperator → Prop}
    {Operand : List Token → Expr → Prop}
    (operands : ∀ {tokens expr}, Operand tokens expr → Tidy true tokens)
    (others : ∀ {kind operator}, Operator kind operator → Inert kind) {tokens : List Token}
    {expr : Expr} (derived : Chain Operator Operand tokens expr) : Tidy true tokens := by
  induction derived with
  | first operand => exact operands operand
  | next _ sign operand ih => exact ih.append (.inert rfl (others sign) (operands operand).weaken)

theorem Adding.inert {kind : TokenKind} {operator : BinaryOperator} (adds : Adding kind operator) :
    Inert kind := by
  cases adds <;> decide

theorem Multiplying.inert {kind : TokenKind} {operator : BinaryOperator}
    (multiplies : Multiplying kind operator) :
    Inert kind := by
  cases multiplies <;> decide

theorem Sign.inert {kind : TokenKind} {operator : UnaryOperator} (sign : Sign kind operator) :
    Inert kind := by
  cases sign <;> decide

theorem TypeName.inert {kind : TokenKind} {type : DataType} (named : TypeName kind type) :
    Inert kind := by
  cases named <;> decide

theorem Factor.tidy {tokens : List Token} {expr : Expr} (derived : Factor tokens expr) :
    Tidy true tokens := by
  induction derived using Factor.induct with
  | signed sign _ ih => exact .inert rfl sign.inert ih.weaken
  | integer kind => exact .inert kind (by decide) .nil
  | real kind => exact .inert kind (by decide) .nil
  | parentheses _ opens inner closes =>
      have inside := inner.tidy (fun term => term.tidy (fun ⟨_, tidy⟩ => tidy) Multiplying.inert)
        Adding.inert
      exact .parentheses opens inside closes
  | name kind => exact .inert kind (by decide) .nil

theorem Expression.tidy {tokens : List Token} {expr : Expr} (derived : Expression tokens expr) :
    Tidy true tokens :=
  Chain.tidy (fun term => Chain.tidy Factor.tidy Multiplying.inert term) Adding.inert derived

theorem Bracketed.tidy {α : Type} {Inner : List Token → α → Prop} {opened : Bool}
    (inside : ∀ {tokens inner}, Inner tokens inner → Tidy true tokens) {tokens : List Token}
    {value : α} (derived : Bracketed .parenthesisLeft .parenthesisRight Inner tokens value) :
    Tidy opened tokens := by
  cases derived with
  | mk opens inner closes => exact .parentheses opens (inside inner) closes

variable {callable : String → Prop}

theorem Statement.tidy {tokens : List Token} {statement : MiniPascal.Statement}
    (derived : Statement callable tokens statement) : Tidy false tokens := by
  induction derived using Statement.induct with
  | compound _ opens inner closes =>
      have inside := inner.tidy (fun ⟨_, tidy⟩ => tidy) (by decide)
      exact .inert opens (by decide) (inside.append (.inert closes (by decide) .nil))
  | call kind arguments =>
      exact .inert kind (by decide)
        (arguments.tidy fun listed => listed.tidy Expression.tidy (by decide))
  | assignment target sign value =>
      exact .inert target (by decide) (.inert sign (by decide) value.tidy.weaken)
  | bareCall kind _ => exact .inert kind (by decide) .nil
  | empty => exact .nil

theorem Compound.tidy {tokens : List Token} {statements : List MiniPascal.Statement}
    (derived : Compound callable tokens statements) : Tidy false tokens := by
  cases derived with
  | mk opens inner closes =>
      have inside := inner.tidy Statement.tidy (by decide)
      exact .inert opens (by decide) (inside.append (.inert closes (by decide) .nil))

theorem Variables.tidy {tokens : List Token} {declared : List Variable × DataType}
    (derived : Variables tokens declared) : Tidy true tokens := by
  cases derived with
  | mk names colon type =>
      have listed : Tidy true _ := names.tidy (fun name => by
        cases name with
        | mk kind => exact .inert kind (by decide) .nil) (by decide)
      exact listed.append (.inert colon (by decide) (.inert rfl type.inert .nil))

theorem VarDecls.tidy {tokens : List Token} {declarations : List VarDecl}
    (derived : VarDecls tokens declarations) : Tidy false tokens := by
  induction derived with
  | one first kind => exact first.tidy.weaken.append (.inert kind (by decide) .nil)
  | more first kind _ ih => exact first.tidy.weaken.append (.inert kind (by decide) ih)

theorem Declarations.tidy {tokens : List Token} {declarations : List VarDecl}
    (derived : Declarations tokens declarations) : Tidy false tokens := by
  cases derived with
  | none => exact .nil
  | some kind listed => exact .inert kind (by decide) listed.tidy

theorem Params.tidy {tokens : List Token} {params : List Param}
    (derived : Params tokens params) : Tidy false tokens := by
  cases derived with
  | none => exact .nil
  | some groups =>
      refine groups.tidy fun listed => listed.tidy (fun group => ?_) (by decide)
      cases group with
      | mk names => exact names.tidy

mutual

theorem Block.tidy {before tokens : List Token} {block : MiniPascal.Block}
    (derived : Block before tokens block) : Tidy false tokens := by
  cases derived with
  | mk declared nested compound =>
      exact (declared.tidy.append nested.tidy).append compound.tidy

theorem Procedures.tidy {before tokens : List Token} {procedures : List Procedure}
    (derived : Procedures before tokens procedures) : Tidy false tokens := by
  cases derived with
  | none => exact .nil
  | more keyword name params semicolon block last others =>
      apply Tidy.inert keyword (by decide)
      apply Tidy.inert name (by decide)
      apply params.tidy.append
      apply Tidy.inert semicolon (by decide)
      exact block.tidy.append (.inert last (by decide) others.tidy)

end

theorem Front.tidy {tokens : List Token} {name : String} {declarations : List VarDecl}
    {procedures : List Procedure} (derived : Front tokens name declarations procedures) :
    Tidy false tokens := by
  cases derived with
  | mk keyword named semicolon declared nested =>
      have head : Tidy false [_, _, _] := .inert keyword (by decide) (.inert named (by decide)
        (.inert semicolon (by decide) .nil))
      exact (head.append declared.tidy).append nested.tidy

/-! ## The dot of a program -/

/-- The first dot of a list of tokens is found in one place only. -/
theorem eq_of_prefix {used tokens rest : List Token} {dot last : Token}
    (begins : used ++ [dot] <+: tokens ++ last :: rest)
    (free : ∀ token ∈ used, token.kind ≠ .dot) (others : ∀ token ∈ tokens, token.kind ≠ .dot)
    (dots : dot.kind = .dot) (ends : last.kind = .dot) : used = tokens := by
  induction used generalizing tokens with
  | nil =>
      cases tokens with
      | nil => rfl
      | cons token tokens =>
          have same : dot = token := (List.cons_prefix_cons.mp begins).1
          exact absurd dots (same ▸ (List.forall_mem_cons.mp others).1)
  | cons token used ih =>
      obtain ⟨head, tail⟩ := List.forall_mem_cons.mp free
      cases tokens with
      | nil =>
          have same : token = last := (List.cons_prefix_cons.mp begins).1
          exact absurd ends (same ▸ head)
      | cons other tokens =>
          rw [List.cons_append, List.cons_append] at begins
          obtain ⟨rfl, further⟩ := List.cons_prefix_cons.mp begins
          rw [ih further tail (List.forall_mem_cons.mp others).2]

end MiniPascal.Grammar
