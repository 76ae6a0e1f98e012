import MiniPascal.Proofs.Program.Correctness
import MiniPascal.Proofs.Program.RenderedStatements
import MiniPascal.Proofs.Token.Cutting

/-! # Programs rendered and parsed again

The statements of a program's body are rendered behind the front of its source, which declares
everything. The new source reads as the tokens of the front and those of the rendered statements,
and the parser gets to its dot or fails. It comes back with the same statements exactly if every
call passes an argument and every real constant has a dot in its text. -/
set_option autoImplicit false
namespace MiniPascal

open Reader (Stops)

/-! ## What sources are made of -/

/-- A constant that is not too large, or a name, or neither. -/
structure Token.Sound (token : Token) : Prop where
  fits : token.Fits
  name : token.kind = .identifier → IsName token.text

theorem Reads.isName {position : Position} {passed rest : List Char} {tokens : List Token}
    (reads : Reads position passed tokens rest) :
    ∀ token ∈ tokens, token.kind = .identifier → IsName token.text := by
  induction reads with
  | nothing => exact fun _ member => absurd member List.not_mem_nil
  | token _ lexeme _ ih => exact List.forall_mem_cons.mpr ⟨lexeme.isName, ih⟩

namespace Grammar

theorem Chain.sourced {Operator : TokenKind → BinaryOperator → Prop}
    {Operand : List Token → Expr → Prop}
    (operands : ∀ {tokens expr}, Operand tokens expr → (∀ token ∈ tokens, token.Sound) →
      ∀ visit ∈ expr.visits, visit.Sourced) {tokens : List Token} {expr : Expr}
    (derived : Chain Operator Operand tokens expr) (sound : ∀ token ∈ tokens, token.Sound) :
    ∀ visit ∈ expr.visits, visit.Sourced := by
  induction derived with
  | first operand => exact operands operand sound
  | next _ _ operand ih =>
      obtain ⟨lefts, rights⟩ := List.forall_mem_append.mp sound
      have right := operands operand (List.forall_mem_cons.mp rights).2
      refine List.forall_mem_append.mpr ⟨List.forall_mem_append.mpr ⟨ih lefts, right⟩, ?_⟩
      exact List.forall_mem_singleton.mpr trivial

theorem Factor.sourced {tokens : List Token} {expr : Expr} (derived : Factor tokens expr)
    (sound : ∀ token ∈ tokens, token.Sound) : ∀ visit ∈ expr.visits, visit.Sourced := by
  induction derived using Factor.induct with
  | signed sign _ ih =>
      refine List.forall_mem_append.mpr ⟨ih (List.forall_mem_cons.mp sound).2, ?_⟩
      exact List.forall_mem_singleton.mpr trivial
  | integer kind =>
      exact List.forall_mem_singleton.mpr (.integer ((sound _ List.mem_cons_self).fits kind))
  | real kind => exact List.forall_mem_singleton.mpr .real
  | parentheses _ opens inner closes =>
      have inside := (List.forall_mem_append.mp (List.forall_mem_cons.mp sound).2).1
      exact inner.sourced (fun term => term.sourced fun ⟨_, holds⟩ => holds) inside
  | name kind => exact List.forall_mem_singleton.mpr ((sound _ List.mem_cons_self).name kind)

theorem Expression.sourced {tokens : List Token} {expr : Expr} (derived : Expression tokens expr)
    (sound : ∀ token ∈ tokens, token.Sound) : ∀ visit ∈ expr.visits, visit.Sourced :=
  Chain.sourced (fun term => Chain.sourced Factor.sourced term) derived sound

theorem Separated.ne_nil {α : Type} {separator : TokenKind} {Item : List Token → α → Prop}
    {tokens : List Token} {values : List α} (derived : Separated separator Item tokens values) :
    values ≠ [] := by
  cases derived <;> exact List.cons_ne_nil _ _

/-- Every item is derived from some of the tokens. -/
theorem Separated.exists_tokens {α : Type} {separator : TokenKind} {Item : List Token → α → Prop}
    {tokens : List Token} {values : List α} (derived : Separated separator Item tokens values) :
    ∀ value ∈ values, ∃ own, Item own value ∧ own ⊆ tokens := by
  induction derived with
  | @one tokens item holds =>
      exact List.forall_mem_singleton.mpr ⟨tokens, holds, List.Subset.refl _⟩
  | @more tokens others between item items holds _ _ ih =>
      refine List.forall_mem_cons.mpr ⟨⟨tokens, holds, List.subset_append_left _ _⟩, ?_⟩
      intro value member
      obtain ⟨own, found, among⟩ := ih value member
      exact ⟨own, found, fun token inside =>
        List.mem_append_right _ (List.mem_cons_of_mem _ (among inside))⟩

theorem Statement.sourced {callable : String → Prop} {tokens : List Token}
    {statement : MiniPascal.Statement} (derived : Statement callable tokens statement)
    (sound : ∀ token ∈ tokens, token.Sound) : ∀ visit ∈ statement.visits, visit.Sourced := by
  induction derived using Statement.induct with
  | compound _ opens inner closes =>
      have inside := (List.forall_mem_append.mp (List.forall_mem_cons.mp sound).2).1
      refine List.forall_mem_cons.mpr ⟨inner.ne_nil, List.forall_mem_append.mpr
        ⟨fun visit member => ?_, List.forall_mem_singleton.mpr trivial⟩⟩
      obtain ⟨statement, listed, within⟩ := Statement.mem_visitsOf.mp member
      obtain ⟨own, ⟨_, holds⟩, among⟩ := inner.exists_tokens statement listed
      exact holds (fun token member => inside token (among member)) visit within
  | @call name tokens arguments kind listed =>
      obtain ⟨head, rest⟩ := List.forall_mem_cons.mp sound
      refine List.forall_mem_append.mpr ⟨fun visit member => ?_,
        List.forall_mem_singleton.mpr (head.name kind)⟩
      obtain ⟨argument, among, within⟩ := List.mem_flatMap.mp member
      cases listed with
      | mk _ inner _ =>
          have inside := (List.forall_mem_append.mp (List.forall_mem_cons.mp rest).2).1
          obtain ⟨own, expression, part⟩ := inner.exists_tokens argument among
          exact Expression.sourced expression (fun token member => inside token (part member)) visit
            within
  | assignment kind _ value =>
      obtain ⟨head, rest⟩ := List.forall_mem_cons.mp sound
      refine List.forall_mem_cons.mpr ⟨head.name kind, List.forall_mem_append.mpr
        ⟨Expression.sourced value (List.forall_mem_cons.mp rest).2, ?_⟩⟩
      exact List.forall_mem_singleton.mpr trivial
  | bareCall kind _ =>
      exact List.forall_mem_singleton.mpr ((sound _ List.mem_cons_self).name kind)
  | empty => exact List.forall_mem_singleton.mpr trivial

end Grammar

/-! ## Texts that end with a semicolon -/

/-- Tokens down to a semicolon are read from their text whatever stands behind it. -/
theorem Reads.of_endsDeclared {position : Position} {passed rest : List Char} {tokens : List Token}
    (reads : Reads position passed tokens rest) (ends : Grammar.EndsDeclared tokens)
    (other : List Char) :
    Reads position passed tokens other ∧ ∃ before, passed = before ++ [';'] := by
  obtain ⟨front, last, rfl, kind⟩ := ends
  have symbol : TokenKind.ofSymbol? ';' = some last.kind := kind ▸ rfl
  obtain ⟨again, before, same, _⟩ := reads.of_symbol symbol (.inl (by decide)) other
  exact ⟨again, before, same⟩

/-! ## Sources rendered anew -/

namespace Program

variable {source front : String} {program : Program} {after : Session}

theorem bare_eq (program : Program) : program.bare
    = ⟨0, program.name, ⟨0, program.block.declarations.map VarDecl.bare,
      Procedure.bareAll program.block.procedures,
      ⟨0, Statement.bareAll program.block.body.statements⟩⟩⟩ := by
  obtain ⟨_, name, ⟨_, declarations, procedures, body⟩⟩ := program
  rw [bare, Block.bare]

theorem bareAll_of_bare {name : String} {declarations : List VarDecl} {procedures : List Procedure}
    {statements : List Statement}
    (bare : program.bare = ⟨0, name, ⟨0, declarations, procedures, ⟨0, statements⟩⟩⟩) :
    Statement.bareAll program.block.body.statements = statements := by
  rw [bare_eq] at bare
  injection bare with _ _ blocks
  injection blocks with _ _ _ bodies
  injection bodies

/-- The part of a source in front of the program's body: it reads as the header and the
declarations, down to the last semicolon of them. -/
def HasFront (program : Program) (source front : String) : Prop :=
  ∃ tokens rest, source.toList = front.toList ++ rest
    ∧ Reads Position.start front.toList tokens rest
    ∧ Grammar.Front tokens program.name (program.block.declarations.map VarDecl.bare)
      (Procedure.bareAll program.block.procedures)

/-- The front with every statement of the body rendered behind it. -/
def rewritten (program : Program) (front : String) : String :=
  front ++ " BEGIN " ++ "; ".intercalate (Statement.texts program.block.body.statements) ++ " END."

/-- The rewritten source is parsed, to statements that are equal up to the numbers of their nodes
and their positions and that are rendered as the same texts. -/
def Reparses (program : Program) (front : String) : Prop :=
  ∃ again later, Parser.parse (Session.ofString (program.rewritten front)) = .ok again later
    ∧ Statement.bareAll again.block.body.statements
      = Statement.bareAll program.block.body.statements
    ∧ Statement.texts again.block.body.statements = Statement.texts program.block.body.statements

/-- The tokens of a source that is parsed begin with those of the program. -/
theorem exists_derivation
    (done : Parser.parse (Session.ofString source) = .ok program after) :
    ∃ passed front body dot others rest, source.toList = passed ++ rest
      ∧ Reads Position.start passed (front ++ body ++ [dot] ++ others) rest
      ∧ Grammar.Front front program.name (program.block.declarations.map VarDecl.bare)
        (Procedure.bareAll program.block.procedures)
      ∧ Grammar.Compound (Grammar.IsHeader front) body
        (Statement.bareAll program.block.body.statements)
      ∧ dot.kind = .dot ∧ ∀ token ∈ front ++ body ++ [dot], token.Sound := by
  obtain ⟨used, begins, fits, _, derived⟩ := Parser.sound_parse done
  rw [bare_eq] at derived
  obtain ⟨front, body, dot, rfl, declared, compound, dots⟩ := derived.exists_front
  obtain ⟨passed, tokens, rest, split, reads, ends⟩ := Lexer.exists_outcomes source
  have among : front ++ body ++ [dot] <+: tokens := by
    rcases ends with ⟨_, last, kind, outcomes⟩ | ⟨error, others, outcomes⟩
    · rw [outcomes, ← List.append_nil (List.map _ (tokens ++ [last]))] at begins
      rcases List.prefix_concat_iff.mp (Parser.prefix_of_map_ok (.inl rfl) begins) with same | among
      · injection List.append_inj_right' same rfl with same
        rw [same, kind] at dots
        cases dots
      · exact among
    · rw [outcomes] at begins
      exact Parser.prefix_of_map_ok (.inr ⟨error, others, rfl⟩) begins
  obtain ⟨others, rfl⟩ := among
  refine ⟨passed, front, body, dot, others, rest, split, reads, declared, compound, dots, ?_⟩
  intro token member
  exact ⟨fits token member, reads.isName token (List.mem_append_left _ member)⟩

theorem exists_hasFront (done : Parser.parse (Session.ofString source) = .ok program after) :
    ∃ front, program.HasFront source front := by
  obtain ⟨passed, front, body, dot, others, rest, split, reads, declared, _⟩ :=
    exists_derivation done
  rw [List.append_assoc, List.append_assoc] at reads
  obtain ⟨text, behind, rfl, reads⟩ := reads.split
  refine ⟨String.ofList text, front, behind ++ rest, ?_, ?_, declared⟩
  · rw [split, String.toList_ofList, List.append_assoc]
  · rwa [String.toList_ofList]

theorem sourced_body (done : Parser.parse (Session.ofString source) = .ok program after) :
    ∀ visit ∈ (Statement.compound 0 program.block.body.statements).bare.visits,
      visit.Sourced := by
  obtain ⟨_, front, body, dot, _, _, _, _, _, compound, _, sound⟩ := exists_derivation done
  apply Grammar.Statement.sourced (.compound compound)
  intro token member
  exact sound token (List.mem_append_left _ (List.mem_append_right _ member))

/-- The tokens of the front have been passed by the parser. -/
theorem fits_front (done : Parser.parse (Session.ofString source) = .ok program after)
    {tokens : List Token} {rest : List Char} (split : source.toList = front.toList ++ rest)
    (reads : Reads Position.start front.toList tokens rest)
    (free : ∀ token ∈ tokens, token.kind ≠ .dot) : ∀ token ∈ tokens, token.Fits := by
  obtain ⟨used, begins, fits, _, derived⟩ := Parser.sound_parse done
  rw [bare_eq] at derived
  obtain ⟨front, body, dot, rfl, _, _, dots⟩ := derived.exists_front
  obtain ⟨_, _, _, _, _, _, outcomes⟩ := Lexer.outcomesWithin_of_reads reads
    (Lexer.open_ofString source) split rfl (Nat.le_refl source.toList.length)
  have also : tokens.map Except.ok <+: Lexer.outcomes source := ⟨_, outcomes.symm⟩
  rcases List.prefix_or_prefix_of_prefix also begins with shorter | longer
  · rw [← List.append_nil (List.map _ (front ++ body ++ [dot]))] at shorter
    have among := (Parser.prefix_of_map_ok (.inl rfl) shorter).subset
    exact fun token member => fits token (among member)
  · rw [← List.append_nil (List.map _ tokens)] at longer
    have among := (Parser.prefix_of_map_ok (.inl rfl) longer).subset
    exact absurd dots (free dot (among (by simp)))

/-- What the rewritten source reads as. -/
theorem exists_outcomes_rewritten (program : Program) {tokens : List Token} {rest : List Char}
    (reads : Reads Position.start front.toList tokens rest) (ends : Grammar.EndsDeclared tokens)
    (sourced : ∀ visit ∈ (Statement.compound 0 program.block.body.statements).bare.visits,
      visit.Sourced) : ∃ body dot last,
      Statement.Spelled body (.compound 0 program.block.body.statements) ∧ dot.kind = .dot
        ∧ Lexer.outcomes (program.rewritten front)
          = (tokens ++ body ++ dot :: [last]).map Except.ok := by
  have dot : Lexeme ['.'] .dot [] := .symbol rfl
  have reading := (Statement.compound 0 program.block.body.statements).spells sourced
    Boundary.dot (Reading.last dot)
  obtain ⟨_, behind, body, _, rfl, spelled, point, rfl, kind⟩ :=
    reading [' '] (List.forall_mem_singleton.mpr rfl) (Position.start.afterAll front.toList)
  have whole := ((reads.of_endsDeclared ends _).1.append behind)
  have text : (program.rewritten front).toList = front.toList ++ ([' ']
      ++ ((Statement.compound 0 program.block.body.statements).shown.toList ++ ['.'])) ++ [] := by
    simp [rewritten, Statement.shown]
  obtain ⟨last, _, outcomes⟩ :=
    Lexer.outcomes_of_reads text whole ⟨[], [], rfl, .blanks (by simp), .nothing⟩
  refine ⟨body, point, last, spelled, kind, ?_⟩
  rw [outcomes]
  simp

/-- The tokens of a rewritten source that derive it, and the program that they derive. -/
theorem derived_rewritten {tokens body : List Token} {dot : Token}
    (declared : Grammar.Front tokens program.name (program.block.declarations.map VarDecl.bare)
      (Procedure.bareAll program.block.procedures))
    (spelled : Statement.Spelled body (.compound 0 program.block.body.statements))
    (passes : ∀ visit ∈ (Statement.compound 0 program.block.body.statements).visits, visit.Passes)
    (dots : dot.kind = .dot) : Grammar.Program (tokens ++ body ++ [dot])
      ⟨0, program.name, ⟨0, program.block.declarations.map VarDecl.bare,
        Procedure.bareAll program.block.procedures,
        ⟨0, Statement.rereadAll program.block.body.statements⟩⟩⟩ := by
  have derived := spelled.derived passes (Grammar.IsHeader tokens)
  rw [Statement.reread] at derived
  cases derived with
  | compound compound => exact declared.program compound dots

theorem reparses_of_rereads (done : Parser.parse (Session.ofString source) = .ok program after)
    (has : program.HasFront source front)
    (rereads : ∀ visit ∈ (Statement.compound 0 program.block.body.statements).visits,
      visit.Passes ∧ visit.Dotted) : program.Reparses front := by
  obtain ⟨tokens, rest, split, reads, declared⟩ := has
  have sourced := sourced_body done
  obtain ⟨body, dot, last, spelled, dots, outcomes⟩ :=
    exists_outcomes_rewritten program reads declared.endsDeclared sourced
  have dotted := fun visit member => (rereads visit member).2
  have derived := derived_rewritten declared spelled
    (fun visit member => (rereads visit member).1) dots
  have small : ∀ token ∈ tokens ++ body ++ [dot], token.Fits := by
    refine List.forall_mem_append.mpr ⟨List.forall_mem_append.mpr ⟨?_, spelled.fits dotted⟩, ?_⟩
    · exact fits_front done split reads declared.tidy.ne_dot
    · exact List.forall_mem_singleton.mpr (Token.fits_of_kind dots (by decide))
  obtain ⟨again, later, parsed, bare⟩ := Parser.complete_parse derived small (by
    rw [outcomes]
    exact (List.prefix_append_right_inj _).mpr ⟨[last], rfl⟩ |>.map _)
  have same := ((Statement.compound 0 program.block.body.statements).reread_eq_bare_iff sourced).mpr
    dotted
  rw [Statement.reread, Statement.bare, Statement.compound.injEq] at same
  have statements := (bareAll_of_bare bare).trans same.2
  refine ⟨again, later, parsed, statements, ?_⟩
  rw [← Statement.texts_bareAll, statements, Statement.texts_bareAll]

theorem rereads_of_reparses (done : Parser.parse (Session.ofString source) = .ok program after)
    (has : program.HasFront source front) (reparses : program.Reparses front) :
    ∀ visit ∈ (Statement.compound 0 program.block.body.statements).visits,
      visit.Passes ∧ visit.Dotted := by
  obtain ⟨tokens, rest, split, reads, declared⟩ := has
  have sourced := sourced_body done
  obtain ⟨body, dot, last, spelled, dots, outcomes⟩ :=
    exists_outcomes_rewritten program reads declared.endsDeclared sourced
  obtain ⟨again, later, parsed, statements, _⟩ := reparses
  -- The tokens that have been parsed end with the only dot, so they are all of them.
  obtain ⟨used, begins, fits, _, derived⟩ := Parser.sound_parse parsed
  rw [bare_eq] at derived
  obtain ⟨front, middle, point, rfl, declares, compound, ends⟩ := derived.exists_front
  have tidy := declares.tidy.append compound.tidy
  have whole : front ++ middle = tokens ++ body := by
    rw [outcomes, ← List.append_nil (List.map _ (tokens ++ body ++ dot :: [last]))] at begins
    exact Grammar.eq_of_prefix (Parser.prefix_of_map_ok (.inl rfl) begins) tidy.ne_dot
      (List.forall_mem_append.mpr ⟨declared.tidy.ne_dot, spelled.free⟩) ends dots
  rw [whole] at tidy fits
  have passes := spelled.passes fun paired =>
    tidy.not_paired (paired.of_infix (List.suffix_append _ _).isInfix)
  have small : ∀ token ∈ tokens ++ body ++ [dot], token.Fits := by
    refine List.forall_mem_append.mpr ⟨fun token member => ?_, ?_⟩
    · exact fits token (List.mem_append_left _ member)
    · exact List.forall_mem_singleton.mpr (Token.fits_of_kind dots (by decide))
  obtain ⟨other, behind, same, bare⟩ := Parser.complete_parse
    (derived_rewritten declared spelled passes dots) small (by
      rw [outcomes]
      exact (List.prefix_append_right_inj _).mpr ⟨[last], rfl⟩ |>.map _)
  -- The same parse, seen from both sides, yields the original tree and the tree of the tokens.
  rw [parsed] at same
  injection same with same
  subst same
  have read := bareAll_of_bare bare
  have come : (Statement.compound 0 program.block.body.statements).reread
      = (Statement.compound 0 program.block.body.statements).bare := by
    rw [Statement.reread, Statement.bare, ← read, statements]
  have dotted := ((Statement.compound 0 program.block.body.statements).reread_eq_bare_iff
    sourced).mp come
  exact fun visit member => ⟨passes visit member, dotted visit member⟩

/-- The statements of a program's body, rendered one by one behind the front of the source, are
parsed again to the same statements exactly if every call passes an argument and every real constant
has a dot in its text. -/
theorem reparses_iff (done : Parser.parse (Session.ofString source) = .ok program after) :
    (∃ front, program.HasFront source front) ∧ ∀ front, program.HasFront source front →
      (program.Reparses front ↔ ∀ visit ∈ Statement.visitsOf program.block.body.statements,
        visit.Passes ∧ visit.Dotted) := by
  refine ⟨exists_hasFront done, fun front has => ?_⟩
  have brackets : (∀ visit ∈ (Statement.compound 0 program.block.body.statements).visits,
      visit.Passes ∧ visit.Dotted)
        ↔ ∀ visit ∈ Statement.visitsOf program.block.body.statements,
          visit.Passes ∧ visit.Dotted := by
    rw [Statement.visits, List.cons_append, List.forall_mem_cons, List.forall_mem_append,
      List.forall_mem_singleton]
    exact ⟨fun all => all.2.1, fun all => ⟨⟨Visit.passes_of_none rfl, Visit.dotted_of_none rfl⟩,
      all, Visit.passes_of_none rfl, Visit.dotted_of_none rfl⟩⟩
  rw [← brackets]
  exact ⟨rereads_of_reparses done has, reparses_of_rereads done has⟩

/-- A text with statements of every kind whose calls pass arguments. -/
def mixed : String :=
  "PROGRAM p; PROCEDURE q(n : INTEGER; r : REAL); BEGIN END; "
    ++ "BEGIN a := -b * (2 + c); q(a DIV 2, 1.5); BEGIN x := 1;; y := x / 2 END END."

theorem reparses_iff_mixed : ∃ program session,
    Parser.parse (Session.ofString mixed) = .ok program session
      ∧ (∃ front, program.HasFront mixed front)
      ∧ ∀ front, program.HasFront mixed front → program.Reparses front := by
  have rereads : (match Parser.parse (Session.ofString mixed) with
      | .ok program _ => decide (∀ visit ∈ Statement.visitsOf program.block.body.statements,
          visit.Passes ∧ visit.Dotted)
      | .error _ _ => false) = true := by decide +kernel
  cases parsed : Parser.parse (Session.ofString mixed) with
  | error error session =>
      rw [parsed] at rereads
      cases rereads
  | ok program session =>
      rw [parsed] at rereads
      obtain ⟨exists_front, reparses⟩ := reparses_iff parsed
      exact ⟨program, session, rfl, exists_front, fun front has =>
        (reparses front has).mpr (of_decide_eq_true rereads)⟩

example : ¬ (Visit.number 0 (Number.ofRealLiteral "1000000000000000.0")).Dotted := by
  decide +kernel

/-- A text with a call without arguments, and its declarations. -/
def bareCall : String × String :=
  ("PROGRAM p; PROCEDURE q; BEGIN END; BEGIN q END.", "PROGRAM p; PROCEDURE q; BEGIN END;")

theorem not_reparses_bareCall : ∃ program session,
    Parser.parse (Session.ofString bareCall.1) = .ok program session
      ∧ program.rewritten bareCall.2 = "PROGRAM p; PROCEDURE q; BEGIN END; BEGIN q() END."
      ∧ ¬ program.Reparses bareCall.2 := by
  have accepted : (match Parser.parse (Session.ofString bareCall.1) with
      | .ok program _ => decide (Statement.texts program.block.body.statements = ["q()"])
      | .error _ _ => false) = true := by decide +kernel
  have refused : (match Parser.parse
      (Session.ofString "PROGRAM p; PROCEDURE q; BEGIN END; BEGIN q() END.") with
      | .ok _ _ => false
      | .error _ _ => true) = true := by decide +kernel
  cases parsed : Parser.parse (Session.ofString bareCall.1) with
  | error error session =>
      rw [parsed] at accepted
      cases accepted
  | ok program session =>
      rw [parsed] at accepted
      have texts : Statement.texts program.block.body.statements = ["q()"] :=
        of_decide_eq_true accepted
      have source : program.rewritten bareCall.2
          = "PROGRAM p; PROCEDURE q; BEGIN END; BEGIN q() END." := by
        rw [rewritten, texts]
        rfl
      refine ⟨program, session, rfl, source, ?_⟩
      rintro ⟨again, later, reparsed, _⟩
      rw [source] at reparsed
      rw [reparsed] at refused
      cases refused

end Program

end MiniPascal
