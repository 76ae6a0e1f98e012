import MiniPascal.Proofs.Program.RenderedExpressions

/-! # Rendered statements

A statement as text reads as the tokens of a statement if all its calls have arguments. The text of
a call without arguments has two parentheses with nothing between them, which no statement has. -/
set_option autoImplicit false
namespace MiniPascal

open Reader (Stops)

/-! ## Lists with separators -/

theorem Grammar.Separated.map {α β : Type} {separator : TokenKind} {Item : List Token → α → Prop}
    {Other : List Token → β → Prop} (f : α → β)
    (items : ∀ {tokens item}, Item tokens item → Other tokens (f item)) {tokens : List Token}
    {values : List α} (derived : Grammar.Separated separator Item tokens values) :
    Grammar.Separated separator Other tokens (values.map f) := by
  induction derived with
  | one item => exact .one (items item)
  | more item between _ ih => exact .more (items item) between ih

/-- Texts with a symbol and a blank between them. -/
theorem spells_separated {α : Type} {text : α → String} {Own : List Token → α → Prop} {c : Char}
    {separator : TokenKind} (found : TokenKind.ofSymbol? c = some separator)
    (ends : Alphabet.isWordChar c = false ∧ c ≠ '.') : ∀ {items : List α}, items ≠ [] →
      (∀ item ∈ items, Spells (text item) fun own => Own own item) →
      Spells ((String.ofList [c, ' ']).intercalate (items.map text)) fun own =>
        Grammar.Separated separator Own own items := by
  intro items
  induction items with
  | nil => exact fun more => absurd rfl more
  | cons item items ih =>
      intro _ spells behind final Form boundary follows
      obtain ⟨first, rest⟩ := List.forall_mem_cons.mp spells
      cases items with
      | nil =>
          rw [List.map_singleton, String.intercalate_singleton]
          apply (first boundary follows).mono
          rintro _ ⟨own, others, rfl, holds, form⟩
          exact ⟨own, others, rfl, .one holds, form⟩
      | cons next items =>
          have further := ih (List.cons_ne_nil _ _) rest boundary follows
          have between := further.blank.symbol found
          have whole := first (.head ends) between
          rw [List.map_cons, List.map_cons, String.intercalate_cons_cons]
          simp only [String.toList_append, String.toList_ofList, List.append_assoc,
            List.cons_append, List.nil_append]
          apply whole.mono
          rintro _ ⟨own, _, rfl, holds, sign, _, rfl, kind, more, others, rfl, listed, form⟩
          exact ⟨own ++ sign :: more, others, by simp, .more holds kind listed, form⟩

/-! ## Statements -/

/-- The arguments of a call. -/
def Visit.arguments? : Visit → Option (List Expr)
  | .call _ _ _ arguments => some arguments
  | _ => none

/-- A call passes something. -/
def Visit.Passes (visit : Visit) : Prop :=
  visit.arguments? ≠ some []

instance (visit : Visit) : Decidable visit.Passes :=
  inferInstanceAs (Decidable (visit.arguments? ≠ some []))

theorem Visit.passes_of_none {visit : Visit} (other : visit.arguments? = none) :
    visit.Passes := by
  rw [Passes, other]
  nofun

theorem Expr.passes (expr : Expr) : ∀ visit ∈ expr.visits, visit.Passes := by
  induction expr with
  | number id value => exact List.forall_mem_singleton.mpr (Visit.passes_of_none rfl)
  | read source => exact List.forall_mem_singleton.mpr (Visit.passes_of_none rfl)
  | unary id operator operand position ih =>
      exact List.forall_mem_append.mpr
        ⟨ih, List.forall_mem_singleton.mpr (Visit.passes_of_none rfl)⟩
  | binary id operator left right position ihl ihr =>
      refine List.forall_mem_append.mpr ⟨List.forall_mem_append.mpr ⟨ihl, ihr⟩, ?_⟩
      exact List.forall_mem_singleton.mpr (Visit.passes_of_none rfl)

mutual

/-- The bare statement that the text of a statement is read as. -/
def Statement.reread : Statement → Statement
  | .compound _ statements => .compound 0 (Statement.rereadAll statements)
  | .assignment _ target value => .assignment 0 target.bare value.reread
  | .call _ name _ arguments => .call 0 name Position.start (arguments.map Expr.reread)
  | .empty _ => .empty 0

/-- The bare statements that the texts of several statements are read as. -/
def Statement.rereadAll : List Statement → List Statement
  | [] => []
  | statement :: rest => statement.reread :: Statement.rereadAll rest

end

theorem Statement.texts_eq_map (statements : List Statement) :
    Statement.texts statements = statements.map Statement.shown := by
  induction statements with
  | nil => rfl
  | cons statement rest ih => rw [texts, ih, List.map_cons]

/-- Two parentheses with nothing between them. -/
def Paired (tokens : List Token) : Prop :=
  ∃ left right, left.kind = .parenthesisLeft ∧ right.kind = .parenthesisRight
    ∧ [left, right] <:+: tokens

theorem Paired.of_infix {first second : List Token} (paired : Paired first)
    (inside : first <:+: second) : Paired second := by
  obtain ⟨left, right, opens, closes, within⟩ := paired
  exact ⟨left, right, opens, closes, within.trans inside⟩

theorem Grammar.Tidy.not_paired {opened : Bool} {tokens : List Token}
    (tidy : Grammar.Tidy opened tokens) : ¬ Paired tokens := by
  rintro ⟨left, right, opens, closes, inside⟩
  exact tidy.not_pair opens closes inside

/-- What is known of the tokens that a text reads as, where the text renders what is visited and the
tokens are meant to be derived by a production. -/
structure Spelling (visits : List Visit) (Production : (String → Prop) → List Token → Prop)
    (tokens : List Token) : Prop where
  free : ∀ token ∈ tokens, token.kind ≠ .dot
  fits : (∀ visit ∈ visits, visit.Dotted) → ∀ token ∈ tokens, token.Fits
  passes : ¬ Paired tokens → ∀ visit ∈ visits, visit.Passes
  derived : (∀ visit ∈ visits, visit.Passes) → ∀ callable, Production callable tokens

/-- The tokens that the text of a statement reads as. -/
def Statement.Spelled (tokens : List Token) (statement : Statement) : Prop :=
  Spelling statement.visits (fun callable tokens =>
    Grammar.Statement callable tokens statement.reread) tokens

namespace Spelling

variable {First Second : (String → Prop) → List Token → Prop} {tokens others : List Token}

/-- One behind the other with a semicolon between them. -/
theorem append {seen further : List Visit} (left : Spelling seen First tokens) {between : Token}
    (kind : between.kind = .semicolon) (right : Spelling further Second others)
    {Whole : (String → Prop) → List Token → Prop}
    (join : ∀ {callable}, First callable tokens → Second callable others →
      Whole callable (tokens ++ between :: others)) :
    Spelling (seen ++ further) Whole (tokens ++ between :: others) := by
  refine ⟨?_, fun dotted => ?_, fun none => ?_, fun all callable => ?_⟩
  · refine List.forall_mem_append.mpr ⟨left.free, List.forall_mem_cons.mpr ⟨?_, right.free⟩⟩
    rw [kind]
    decide
  · obtain ⟨first, rest⟩ := List.forall_mem_append.mp dotted
    have other : between.Fits := Token.fits_of_kind kind (by decide)
    exact List.forall_mem_append.mpr
      ⟨left.fits first, List.forall_mem_cons.mpr ⟨other, right.fits rest⟩⟩
  · refine List.forall_mem_append.mpr ⟨left.passes fun paired => none (paired.of_infix ?_),
      right.passes fun paired => none (paired.of_infix ?_)⟩
    · exact (List.prefix_append _ _).isInfix
    · exact ((List.suffix_cons _ _).trans (List.suffix_append _ _)).isInfix
  · obtain ⟨first, rest⟩ := List.forall_mem_append.mp all
    exact join (left.derived first callable) (right.derived rest callable)

/-- Between the brackets of a compound statement. -/
theorem bracketed {seen around : List Visit} (inner : Spelling seen First tokens)
    {opening closing : Token} (opens : opening.kind = .begin) (closes : closing.kind = .finish)
    (inside : ∀ visit ∈ seen, visit ∈ around)
    (outside : ∀ visit ∈ around, visit ∈ seen ∨ visit.Passes)
    {Whole : (String → Prop) → List Token → Prop}
    (join : ∀ {callable}, First callable tokens →
      Whole callable (opening :: (tokens ++ [closing]))) :
    Spelling around Whole (opening :: (tokens ++ [closing])) := by
  refine ⟨?_, fun dotted => ?_, fun none visit member => ?_, fun all callable => ?_⟩
  · simp only [List.forall_mem_cons, List.forall_mem_append, opens, closes]
    exact ⟨by decide, inner.free, by decide, by simp⟩
  · simp only [List.forall_mem_cons, List.forall_mem_append]
    exact ⟨Token.fits_of_kind opens (by decide),
      inner.fits fun visit member => dotted visit (inside visit member),
      Token.fits_of_kind closes (by decide), by simp⟩
  · have within : tokens <:+: opening :: (tokens ++ [closing]) :=
      (List.prefix_append _ _).isInfix.trans (List.suffix_cons _ _).isInfix
    rcases outside visit member with seen | passes
    · exact inner.passes (fun paired => none (paired.of_infix within)) visit seen
    · exact passes
  · exact join (inner.derived (fun visit member => all visit (inside visit member)) callable)

end Spelling

namespace Statement

/-- Several statements with semicolons between them. -/
theorem spelled_separated {statements : List Statement} {tokens : List Token}
    (spelled : Grammar.Separated .semicolon Spelled tokens statements) :
    Spelling (visitsOf statements) (fun callable tokens =>
      Grammar.Separated .semicolon (Grammar.Statement callable) tokens (rereadAll statements))
      tokens := by
  induction spelled with
  | one holds =>
      rw [visitsOf, visitsOf, List.append_nil]
      exact ⟨holds.free, holds.fits, holds.passes, fun all callable => .one (holds.derived all _)⟩
  | more holds kind _ ih => exact holds.append kind ih fun first rest => .more first kind rest

theorem spelled_compound {id : NodeId} {statements : List Statement} {tokens : List Token}
    (spelled : Grammar.Separated .semicolon Spelled tokens statements) {opening closing : Token}
    (opens : opening.kind = .begin) (closes : closing.kind = .finish) :
    Spelled (opening :: (tokens ++ [closing])) (.compound id statements) := by
  apply (spelled_separated spelled).bracketed opens closes
  · intro visit member
    exact List.mem_cons_of_mem _ (List.mem_append_left _ member)
  · intro visit member
    rcases List.mem_cons.mp member with rfl | member
    · exact .inr (Visit.passes_of_none rfl)
    · rcases List.mem_append.mp member with inner | same
      · exact .inl inner
      · rw [List.mem_singleton.mp same]
        exact .inr (Visit.passes_of_none rfl)
  · exact fun listed => .compound (.mk opens listed closes)

theorem spelled_assignment {id : NodeId} {target : Variable} {value : Expr} {name sign : Token}
    {tokens : List Token} (kind : name.kind = .identifier) (text : name.text = target.name)
    (assigns : sign.kind = .assign) (spelled : value.Spelled tokens) :
    Spelled (name :: sign :: tokens) (.assignment id target value) := by
  have derived : ∀ callable, Grammar.Statement callable (name :: sign :: tokens)
      (assignment id target value).reread := by
    intro callable
    rw [reread, Variable.bare, ← text]
    exact .assignment kind assigns (.first (.first spelled.factor))
  refine ⟨(derived fun _ => True).tidy.ne_dot, fun dotted => ?_, fun _ => ?_,
    fun _ callable => derived callable⟩
  · have values := spelled.fits fun visit member =>
      dotted visit (List.mem_cons_of_mem _ (List.mem_append_left _ member))
    exact List.forall_mem_cons.mpr ⟨Token.fits_of_kind kind (by decide),
      List.forall_mem_cons.mpr ⟨Token.fits_of_kind assigns (by decide), values⟩⟩
  · simp only [visits, List.forall_mem_cons, List.forall_mem_append, List.cons_append]
    exact ⟨Visit.passes_of_none rfl, value.passes, Visit.passes_of_none rfl, by simp⟩

/-- Arguments with commas between them. -/
theorem fits_of_separated {arguments : List Expr} {tokens : List Token}
    (listed : Grammar.Separated .comma (fun own (expr : Expr) => expr.Spelled own) tokens arguments)
    (dotted : ∀ visit ∈ arguments.flatMap Expr.visits, visit.Dotted) :
    ∀ token ∈ tokens, token.Fits := by
  induction listed with
  | one spelled =>
      rw [List.flatMap_singleton] at dotted
      exact spelled.fits dotted
  | more spelled kind _ ih =>
      rw [List.flatMap_cons, List.forall_mem_append] at dotted
      have other := Token.fits_of_kind kind (by decide)
      exact List.forall_mem_append.mpr
        ⟨spelled.fits dotted.1, List.forall_mem_cons.mpr ⟨other, ih dotted.2⟩⟩

theorem spelled_call {id : NodeId} {callee : String} {position : Position} {arguments : List Expr}
    {name opening closing : Token} {tokens : List Token} (kind : name.kind = .identifier)
    (text : name.text = callee) (opens : opening.kind = .parenthesisLeft)
    (listed : Grammar.Separated .comma (fun own (expr : Expr) => expr.Spelled own) tokens arguments)
    (closes : closing.kind = .parenthesisRight) :
    Spelled (name :: opening :: (tokens ++ [closing])) (.call id callee position arguments) := by
  have more : arguments ≠ [] := by cases listed <;> simp
  have expressions : Grammar.Separated .comma Grammar.Expression tokens
      (arguments.map Expr.reread) := listed.map Expr.reread fun own => .first (.first own.factor)
  have derived : ∀ callable, Grammar.Statement callable
      (name :: opening :: (tokens ++ [closing])) (call id callee position arguments).reread := by
    intro callable
    rw [reread, ← text]
    exact .call kind (.mk opens expressions closes)
  refine ⟨(derived fun _ => True).tidy.ne_dot, fun dotted => ?_, fun _ => ?_,
    fun _ callable => derived callable⟩
  · have inner := fits_of_separated listed (List.forall_mem_append.mp dotted).1
    simp only [List.forall_mem_cons, List.forall_mem_append]
    exact ⟨Token.fits_of_kind kind (by decide), Token.fits_of_kind opens (by decide),
      inner, Token.fits_of_kind closes (by decide), by simp⟩
  · simp only [visits, List.forall_mem_append, List.forall_mem_flatMap]
    exact ⟨fun expr _ => expr.passes,
      List.forall_mem_singleton.mpr fun none => more (Option.some.inj none)⟩

/-- Without arguments the parentheses stand next to each other. -/
theorem spelled_call_nil {id : NodeId} {callee : String} {position : Position}
    {name opening closing : Token} (kind : name.kind = .identifier)
    (opens : opening.kind = .parenthesisLeft) (closes : closing.kind = .parenthesisRight) :
    Spelled [name, opening, closing] (.call id callee position []) := by
  refine ⟨?_, fun _ => ?_, fun none => ?_, fun all => ?_⟩
  · simp only [List.forall_mem_cons, kind, opens, closes]
    exact ⟨by decide, by decide, by decide, by simp⟩
  · simp only [List.forall_mem_cons]
    exact ⟨Token.fits_of_kind kind (by decide), Token.fits_of_kind opens (by decide),
      Token.fits_of_kind closes (by decide), by simp⟩
  · exact absurd ⟨opening, closing, opens, closes, (List.suffix_cons _ _).isInfix⟩ none
  · exact absurd rfl (all (.call id callee position []) List.mem_cons_self)

theorem spells_compound {id : NodeId} {statements : List Statement} (more : statements ≠ [])
    (spells : ∀ statement ∈ statements, Spells statement.shown fun own => Spelled own statement) :
    Spells (compound id statements).shown fun own => Spelled own (.compound id statements) := by
  intro behind final Form boundary follows
  have finish : Lexeme "END".toList .finish (behind ++ final) :=
    Lexeme.word rfl (List.all_eq_true.mp rfl) boundary.stops
  have closing := (follows.token finish).blank
  have listed := (spells_separated (c := ';') rfl (by decide) more spells
    (.head (by decide)) closing).blank
  have begin : ∀ rest, Lexeme "BEGIN".toList .begin (' ' :: rest) := fun rest =>
    Lexeme.word rfl (List.all_eq_true.mp rfl) (Boundary.blank rest).stops
  have opening := listed.token (begin _)
  have text : (compound id statements).shown.toList ++ behind
      = "BEGIN".toList ++ ' ' :: (("; ".intercalate (statements.map shown)).toList
        ++ ' ' :: ("END".toList ++ behind)) := by
    simp [shown, texts_eq_map]
  rw [text]
  apply opening.mono
  rintro _ ⟨first, _, rfl, opens, _, own, _, rfl, separated, last, others, rfl, closes, _, form⟩
  exact ⟨first :: (own ++ [last]), others, by simp, spelled_compound separated opens closes, form⟩

theorem spells_assignment (id : NodeId) (target : Variable) (value : Expr)
    (sourced : ∀ visit ∈ (assignment id target value).bare.visits, visit.Sourced) :
    Spells (assignment id target value).shown fun own =>
      Spelled own (.assignment id target value) := by
  intro behind final Form boundary follows
  simp only [bare, visits, List.cons_append, List.forall_mem_cons, List.forall_mem_append]
    at sourced
  have name : IsName target.name := sourced.1
  have values := (value.spells sourced.2.1 boundary follows).blank
  have sign := (values.token .assign).blank
  have opening := sign.name name (Boundary.blank _).stops
  have text : (assignment id target value).shown.toList ++ behind
      = target.name.toList ++ ' ' :: ([':', '='] ++ ' ' :: (value.shown.toList ++ behind)) := by
    simp [shown]
  rw [text]
  apply opening.mono
  rintro _ ⟨first, _, rfl, kind, same, second, _, rfl, assigns, _, own, others, rfl, spelled, form⟩
  exact ⟨first :: second :: own, others, rfl, spelled_assignment kind same assigns spelled, form⟩

theorem spells_call (id : NodeId) (callee : String) (position : Position) (arguments : List Expr)
    (sourced : ∀ visit ∈ (call id callee position arguments).bare.visits, visit.Sourced) :
    Spells (call id callee position arguments).shown fun own =>
      Spelled own (.call id callee position arguments) := by
  intro behind final Form boundary follows
  simp only [bare, visits, List.forall_mem_append, List.forall_mem_flatMap] at sourced
  obtain ⟨each, called⟩ := sourced
  have name : IsName callee := called _ List.mem_cons_self
  have closing := follows.symbol (c := ')') rfl
  have text : (call id callee position arguments).shown.toList ++ behind
      = callee.toList ++ '(' :: ((", ".intercalate (arguments.map Expr.shown)).toList
        ++ ')' :: behind) := by
    simp [shown]
  have stops : ∀ rest, Stops Alphabet.isWordChar ('(' :: rest) := by
    rintro rest c ⟨⟩
    rfl
  rw [text]
  by_cases none : arguments = []
  · subst none
    have opening := (closing.symbol (c := '(') rfl).name name (stops _)
    apply opening.mono
    rintro _ ⟨first, _, rfl, kind, _, second, _, rfl, opens, last, others, rfl, closes, form⟩
    exact ⟨[first, second, last], others, rfl, spelled_call_nil kind opens closes, form⟩
  · have listed := spells_separated (c := ',') rfl (by decide) none
      (fun expr member => expr.spells (each expr.bare (List.mem_map_of_mem member)))
      (.head (by decide)) closing
    have opening := (listed.symbol (c := '(') rfl).name name (stops _)
    apply opening.mono
    rintro _ ⟨first, _, rfl, kind, same, second, _, rfl, opens, own, _, rfl, separated, last,
      others, rfl, closes, form⟩
    exact ⟨first :: second :: (own ++ [last]), others, by simp,
      spelled_call kind same opens separated closes, form⟩

mutual

/-- The text of a statement reads as the tokens of a statement, or has two parentheses with nothing
between them. -/
theorem spells : ∀ statement : Statement, (∀ visit ∈ statement.bare.visits, visit.Sourced) →
    Spells statement.shown fun own => Spelled own statement
  | .compound id statements => by
    intro sourced
    simp only [bare, visits, List.cons_append, List.forall_mem_cons, List.forall_mem_append]
      at sourced
    refine spells_compound ?_ (spells_all statements sourced.2.1)
    rintro rfl
    exact sourced.1 rfl
  | .assignment id target value => spells_assignment id target value
  | .call id callee position arguments => spells_call id callee position arguments
  | .empty id => by
    intro _ behind final Form _ follows
    apply follows.mono
    intro tokens form
    refine ⟨[], tokens, rfl, ⟨by simp, by simp, fun _ => ?_, fun _ callable => .empty⟩, form⟩
    exact List.forall_mem_singleton.mpr (Visit.passes_of_none rfl)

theorem spells_all : ∀ statements : List Statement,
    (∀ visit ∈ visitsOf (bareAll statements), visit.Sourced) →
    ∀ statement ∈ statements, Spells statement.shown fun own => Spelled own statement
  | [], _ => fun _ member => absurd member List.not_mem_nil
  | statement :: rest, sourced => by
    simp only [bareAll, visitsOf, List.forall_mem_append] at sourced
    exact List.forall_mem_cons.mpr ⟨spells statement sourced.1, spells_all rest sourced.2⟩

end

/-! ## Statements that come back -/

mutual

theorem reread_eq_bare_iff : ∀ statement : Statement,
    (∀ visit ∈ statement.bare.visits, visit.Sourced) →
    (statement.reread = statement.bare ↔ ∀ visit ∈ statement.visits, visit.Dotted)
  | .compound id statements => by
    intro sourced
    simp only [bare, visits, List.cons_append, List.forall_mem_cons, List.forall_mem_append]
      at sourced
    simp only [reread, bare, visits, List.cons_append, List.forall_mem_cons,
      List.forall_mem_append, ← rereadAll_eq_bareAll_iff statements sourced.2.1]
    simp [Visit.Dotted, Visit.real?]
  | .assignment id target value => by
    intro sourced
    simp only [bare, visits, List.cons_append, List.forall_mem_cons, List.forall_mem_append]
      at sourced
    simp only [reread, bare, visits, List.cons_append, List.forall_mem_cons,
      List.forall_mem_append, ← value.reread_eq_bare_iff sourced.2.1]
    simp [Visit.Dotted, Visit.real?]
  | .call id callee position arguments => by
    intro sourced
    simp only [bare, visits, List.forall_mem_append, List.forall_mem_flatMap] at sourced
    have each : ∀ argument ∈ arguments, argument.reread = argument.bare
        ↔ ∀ visit ∈ argument.visits, visit.Dotted := fun argument member =>
      argument.reread_eq_bare_iff (sourced.1 _ (List.mem_map_of_mem member))
    simp only [reread, bare, visits, List.forall_mem_append, List.forall_mem_flatMap]
    simp only [call.injEq, true_and, List.map_inj_left]
    refine ⟨fun same => ⟨fun argument member => ?_,
      List.forall_mem_singleton.mpr (Visit.dotted_of_none rfl)⟩, fun dotted argument member => ?_⟩
    · exact (each argument member).mp (same argument member)
    · exact (each argument member).mpr (dotted.1 argument member)
  | .empty id => fun _ => iff_of_true rfl (List.forall_mem_singleton.mpr (Visit.dotted_of_none rfl))

/-- Statements are read as themselves exactly if their real constants have dots. -/
theorem rereadAll_eq_bareAll_iff : ∀ statements : List Statement,
    (∀ visit ∈ visitsOf (bareAll statements), visit.Sourced) →
    (rereadAll statements = bareAll statements
      ↔ ∀ visit ∈ visitsOf statements, visit.Dotted)
  | [] => fun _ => iff_of_true rfl fun _ member => absurd member List.not_mem_nil
  | statement :: rest => by
    intro sourced
    simp only [bareAll, visitsOf, List.forall_mem_append] at sourced
    rw [rereadAll, bareAll, List.cons.injEq, visitsOf, List.forall_mem_append,
      reread_eq_bare_iff statement sourced.1, rereadAll_eq_bareAll_iff rest sourced.2]

end

mutual

theorem shown_bare : ∀ statement : Statement, statement.bare.shown = statement.shown
  | .compound id statements => by rw [bare, shown, shown, texts_bareAll statements]
  | .assignment id target value => by rw [bare, shown, shown, value.shown_bare]; rfl
  | .call id callee position arguments => by
    have same : (Expr.shown ∘ Expr.bare) = Expr.shown := funext Expr.shown_bare
    rw [bare, shown, shown, List.map_map, same]
  | .empty id => rfl

/-- The texts of statements show neither numbers of nodes nor positions. -/
theorem texts_bareAll : ∀ statements : List Statement, texts (bareAll statements) = texts statements
  | [] => rfl
  | statement :: rest => by
    rw [bareAll, texts, texts, shown_bare statement, texts_bareAll rest]

end

end Statement

end MiniPascal
