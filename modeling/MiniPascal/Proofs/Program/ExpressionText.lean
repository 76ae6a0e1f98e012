import MiniPascal.Proofs.Program.Rereading

/-! # The text of an expression determines it

An expression of constants that are not negative, of names and of operators is written with
parentheses around every operator. Behind an assignment sign its text is parsed to the same
expression, whatever the rules of precedence would make of the operators alone. So the text tells
such expressions apart. -/
set_option autoImplicit false
namespace MiniPascal

/-- The lexer takes the whole text as one identifier. -/
def LexesAsName (text : String) : Prop :=
  ∃ last, last.kind = .endOfFile
    ∧ Lexer.outcomes text = [.ok ⟨.identifier, text, Position.start⟩, .ok last]

theorem LexesAsName.isName {text : String} (lexes : LexesAsName text) : IsName text := by
  obtain ⟨last, _, lexed⟩ := lexes
  obtain ⟨_, tokens, _, _, reads, ends⟩ := Lexer.exists_outcomes text
  have first : (⟨.identifier, text, Position.start⟩ : Token) ∈ tokens := by
    rcases ends with ⟨_, final, _, outcomes⟩ | ⟨error, others, outcomes⟩
    · have same : tokens ++ [final] = [⟨.identifier, text, Position.start⟩] ++ [last] :=
        List.map_injective_iff.mpr (fun _ _ => Except.ok.inj) (outcomes.symm.trans lexed)
      rw [List.append_inj_left' same rfl]
      exact List.mem_singleton_self _
    · have unknown : Except.error error ∈ Lexer.outcomes text := by
        rw [outcomes]
        exact List.mem_append_right _ List.mem_cons_self
      rw [lexed] at unknown
      simp at unknown
  exact reads.isName _ first rfl

namespace Expr

/-- Expressions of integer constants that are not negative, of names and of operators. -/
inductive Writable : Expr → Prop where
  | number {id : NodeId} {value : Int64} :
    0 ≤ value.toInt → Writable (.number id (.integer value))
  | read {source : Variable} : LexesAsName source.name → Writable (.read source)
  | unary {id : NodeId} {operator : UnaryOperator} {operand : Expr} {position : Position} :
    Writable operand → Writable (.unary id operator operand position)
  | binary {id : NodeId} {operator : BinaryOperator} {left right : Expr} {position : Position} :
    Writable left → Writable right → Writable (.binary id operator left right position)

namespace Writable

variable {expr : Expr}

theorem sourced (writable : expr.Writable) : ∀ visit ∈ expr.bare.visits, visit.Sourced := by
  induction writable with
  | @number id value positive =>
      have same : Int64.ofNat value.toInt.toNat = value := by
        apply Int64.toInt.inj
        rw [Int64.toInt_ofNat_of_lt] <;> have := value.toInt_lt <;> omega
      have small : value.toInt.toNat ≤ 9223372036854775807 := by
        have := value.toInt_lt
        omega
      exact List.forall_mem_singleton.mpr (same ▸ .integer small)
  | read lexes => exact List.forall_mem_singleton.mpr lexes.isName
  | unary _ ih => exact List.forall_mem_append.mpr ⟨ih, List.forall_mem_singleton.mpr trivial⟩
  | binary _ _ ihl ihr =>
      exact List.forall_mem_append.mpr
        ⟨List.forall_mem_append.mpr ⟨ihl, ihr⟩, List.forall_mem_singleton.mpr trivial⟩

/-- There are no real constants. -/
theorem dotted (writable : expr.Writable) : ∀ visit ∈ expr.visits, visit.Dotted := by
  induction writable with
  | number => exact List.forall_mem_singleton.mpr (Visit.dotted_of_none rfl)
  | read => exact List.forall_mem_singleton.mpr (Visit.dotted_of_none rfl)
  | unary _ ih =>
      exact List.forall_mem_append.mpr
        ⟨ih, List.forall_mem_singleton.mpr (Visit.dotted_of_none rfl)⟩
  | binary _ _ ihl ihr =>
      exact List.forall_mem_append.mpr ⟨List.forall_mem_append.mpr ⟨ihl, ihr⟩,
        List.forall_mem_singleton.mpr (Visit.dotted_of_none rfl)⟩

theorem reread_eq_bare (writable : expr.Writable) : expr.reread = expr.bare :=
  (expr.reread_eq_bare_iff writable.sourced).mpr writable.dotted

end Writable

/-- A program whose only statement assigns an expression. -/
def assigned (expr : Expr) : Program :=
  ⟨0, "p", ⟨0, [], [], ⟨0, [.assignment 0 (.named "x") expr]⟩⟩⟩

/-- The text of a program that assigns what the given text says. -/
def assigning (text : String) : String :=
  "PROGRAM p; BEGIN x := " ++ text ++ " END."

theorem texts_assigned (expr : Expr) :
    Statement.texts expr.assigned.block.body.statements = ["x" ++ " := " ++ expr.shown] := by
  rw [assigned, Statement.texts, Statement.texts, Statement.shown, Variable.named]

theorem rewritten_assigned (expr : Expr) :
    expr.assigned.rewritten "PROGRAM p;" = assigning expr.shown := by
  have front : "PROGRAM p;" ++ " BEGIN " ++ ("x" ++ " := ") = "PROGRAM p; BEGIN x := " := by decide
  unfold Program.rewritten assigning
  simp only [texts_assigned, String.intercalate_singleton, ← String.append_assoc, front]

/-- The front of the text reads as the header of a program without declarations. -/
theorem exists_front : ∃ tokens, Reads Position.start "PROGRAM p;".toList tokens []
    ∧ Grammar.Front tokens "p" [] [] ∧ ∀ token ∈ tokens, token.Fits := by
  have letter : IsName "p" := ⟨by decide, 'p', [], rfl, rfl, by simp⟩
  have name : Lexeme "p".toList .identifier ([';'] ++ []) :=
    letter.lexeme (Boundary.head (by decide)).stops
  have word : ∀ c ∈ ['R', 'O', 'G', 'R', 'A', 'M'], Alphabet.isWordChar c = true :=
    List.all_eq_true.mp (by decide)
  have program : Lexeme ['P', 'R', 'O', 'G', 'R', 'A', 'M'] .program
      (' ' :: ("p".toList ++ [';']) ++ []) :=
    .word rfl word (Boundary.blank _).stops
  have semicolon : Lexeme [';'] .semicolon [] := .symbol rfl
  have reading := ((Reading.last semicolon).token name).blank.token program
  obtain ⟨_, reads, first, _, rfl, opens, _, second, _, rfl, named, text, third, rfl, ends⟩ :=
    reading [] (by simp) Position.start
  rw [String.ofList_toList] at text
  have front := Grammar.Front.mk opens named ends .none .none
  rw [text] at front
  refine ⟨_, reads, front, ?_⟩
  simp only [List.forall_mem_cons, List.not_mem_nil, false_implies, implies_true, and_true]
  exact ⟨Token.fits_of_kind opens (by decide), Token.fits_of_kind named (by decide),
    Token.fits_of_kind ends (by decide)⟩

/-- The text of the program has no unknown character and is parsed, and its only statement assigns
an expression that is equal up to the numbers of nodes and positions. -/
def Rereads (expr : Expr) : Prop :=
  (∃ tokens : List Token, Lexer.outcomes (assigning expr.shown) = tokens.map Except.ok)
    ∧ ∃ program after id target value,
      Parser.parse (Session.ofString (assigning expr.shown)) = .ok program after
        ∧ program.block.body.statements = [.assignment id target value]
        ∧ target.name = "x" ∧ value.bare = expr.bare

theorem eq_assignment_of_bareAll {statements : List Statement} {name : String} {expr : Expr}
    (bare : Statement.bareAll statements = [.assignment 0 (.named name) expr]) :
    ∃ id target value, statements = [.assignment id target value] ∧ target.name = name
      ∧ value.bare = expr := by
  rw [Statement.bareAll_eq_map] at bare
  obtain ⟨statement, rfl, same⟩ := List.map_eq_singleton_iff.mp bare
  cases statement with
  | compound => cases same
  | assignment id target value =>
      rw [Statement.bare] at same
      injection same with _ targets values
      exact ⟨id, target, value, rfl, congrArg Variable.name targets, values⟩
  | call => cases same
  | empty => cases same

theorem Writable.rereads {expr : Expr} (writable : expr.Writable) : expr.Rereads := by
  let body : Statement := .compound 0 expr.assigned.block.body.statements
  obtain ⟨front, reads, declared, small⟩ := exists_front
  have name : IsName "x" := ⟨by decide, 'x', [], rfl, rfl, by simp⟩
  have sourced : ∀ visit ∈ body.bare.visits, visit.Sourced := by
    simp only [body, assigned, Statement.bare, Statement.bareAll, Statement.visits,
      Statement.visitsOf, List.forall_mem_cons, List.forall_mem_append, List.cons_append,
      List.append_nil]
    exact ⟨by simp [Visit.Sourced], name, ⟨writable.sourced, by simp [Visit.Sourced]⟩,
      by simp [Visit.Sourced]⟩
  have others : ∀ visit ∈ body.visits, visit ∈ expr.visits
      ∨ visit.arguments? = none ∧ visit.real? = none := by
    simp only [body, assigned, Statement.visits, Statement.visitsOf, List.forall_mem_cons,
      List.forall_mem_append, List.cons_append, List.append_nil]
    exact ⟨.inr ⟨rfl, rfl⟩, .inr ⟨rfl, rfl⟩, ⟨fun _ member => .inl member,
      by simp [Visit.arguments?, Visit.real?]⟩, by simp [Visit.arguments?, Visit.real?]⟩
  have passes : ∀ visit ∈ body.visits, visit.Passes := fun visit member =>
    (others visit member).elim (expr.passes visit) fun free => Visit.passes_of_none free.1
  have dotted : ∀ visit ∈ body.visits, visit.Dotted := fun visit member =>
    (others visit member).elim (writable.dotted visit) fun free => Visit.dotted_of_none free.2
  obtain ⟨tokens, dot, last, spelled, dots, outcomes⟩ :=
    expr.assigned.exists_outcomes_rewritten reads declared.endsDeclared sourced
  rw [rewritten_assigned] at outcomes
  have derived := expr.assigned.derived_rewritten declared spelled passes dots
  have fits : ∀ token ∈ front ++ tokens ++ [dot], token.Fits := by
    refine List.forall_mem_append.mpr ⟨List.forall_mem_append.mpr ⟨small, ?_⟩, ?_⟩
    · exact spelled.fits dotted
    · exact List.forall_mem_singleton.mpr (Token.fits_of_kind dots (by decide))
  obtain ⟨program, after, parsed, bare⟩ := Parser.complete_parse derived fits (by
    rw [outcomes]
    exact (List.prefix_append_right_inj _).mpr ⟨[last], rfl⟩ |>.map _)
  have statements := Program.bareAll_of_bare bare
  rw [assigned, Statement.rereadAll, Statement.rereadAll, Statement.reread,
    writable.reread_eq_bare] at statements
  obtain ⟨id, target, value, only, target', value'⟩ := eq_assignment_of_bareAll statements
  exact ⟨⟨_, outcomes⟩, program, after, id, target, value, parsed, only, target', value'⟩

/-- The text of an expression of constants that are not negative, of names and of operators is
parsed to the expression, and no other such expression has that text. -/
theorem rereads_of_writable {expr : Expr} (writable : expr.Writable) : expr.Rereads
    ∧ ∀ other : Expr, other.Writable → other.shown = expr.shown → other.bare = expr.bare := by
  refine ⟨writable.rereads, fun other writable' same => ?_⟩
  -- Equal texts are parsed to one program, whose only value is both expressions.
  obtain ⟨_, program, after, id, target, value, parsed, only, _, value'⟩ := writable.rereads
  obtain ⟨_, again, later, id', target', value'', reparsed, only', _, bare'⟩ := writable'.rereads
  rw [same, parsed] at reparsed
  injection reparsed with program'
  rw [← program', only] at only'
  injection only' with first
  injection first with _ _ values
  rw [← value', ← bare', values]

/-- The difference of a constant and a quotient, negated. -/
def negated : Expr :=
  .unary 0 .minus (.binary 1 .minus (.number 2 (.integer 1))
    (.binary 3 .integerDivide (.read ⟨4, "x", Position.start⟩) (.number 5 (.integer 2))
      Position.start) Position.start) Position.start

theorem rereads_of_writable_negated : negated.shown = "(-(1 - (x DIV 2)))" ∧ negated.Rereads
    ∧ ∀ other : Expr, other.Writable → other.shown = "(-(1 - (x DIV 2)))" →
      other.bare = negated.bare := by
  have name : LexesAsName "x" := ⟨⟨.endOfFile, "", ⟨1, 2⟩⟩, rfl, by decide +kernel⟩
  have writable : negated.Writable :=
    .unary (.binary (.number (by decide)) (.binary (.read name) (.number (by decide))))
  have shown : negated.shown = "(-(1 - (x DIV 2)))" := by decide +kernel
  exact ⟨shown, shown ▸ rereads_of_writable writable⟩

end Expr
end MiniPascal
