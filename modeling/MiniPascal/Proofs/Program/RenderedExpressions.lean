import MiniPascal.Program.Printer
import MiniPascal.Program.Visit
import MiniPascal.Proofs.Number.Constants
import MiniPascal.Proofs.Program.Fronts
import MiniPascal.Proofs.Program.Standing
import MiniPascal.Proofs.Token.Reading

/-! # Rendered expressions

An expression as text reads as the tokens of one factor: every operator stands in parentheses with
its operands. Which factor is decided by the texts of the constants alone. A constant whose text has
no dot is read as an integer or, if it is not made of digits, as a name. -/
set_option autoImplicit false
namespace MiniPascal

open Reader (Stops)

/-! ## Reading behind blanks -/

/-- With any blanks in front of it the text reads as tokens of the given form, if the last part
stands behind it. -/
def Reading (text final : List Char) (Form : List Token → Prop) : Prop :=
  ∀ blanks : List Char, (∀ c ∈ blanks, Alphabet.isBlank c = true) → ∀ position, ∃ tokens,
    Reads position (blanks ++ text) tokens final ∧ Form tokens

namespace Reading

variable {text behind final : List Char} {kind : TokenKind} {Form Other : List Token → Prop}

theorem mono (reading : Reading text final Form) (weaker : ∀ {tokens}, Form tokens → Other tokens) :
    Reading text final Other := by
  intro blanks all position
  obtain ⟨tokens, reads, form⟩ := reading blanks all position
  exact ⟨tokens, reads, weaker form⟩

/-- A token in front of a text that is read. -/
theorem token (follows : Reading behind final Form) (lexeme : Lexeme text kind (behind ++ final)) :
    Reading (text ++ behind) final fun tokens => ∃ token others, tokens = token :: others
      ∧ token.kind = kind ∧ token.text = String.ofList text ∧ Form others := by
  intro blanks all position
  obtain ⟨tokens, reads, form⟩ := follows [] (by simp) (position.afterAll (blanks ++ text))
  let first : Token := ⟨kind, String.ofList text, position.afterAll blanks⟩
  refine ⟨first :: tokens, ?_, first, tokens, rfl, rfl, rfl, form⟩
  rw [← List.append_assoc]
  exact .token (.blanks all) lexeme reads

/-- The last token. -/
theorem last (lexeme : Lexeme text kind final) :
    Reading text final fun tokens => ∃ token, tokens = [token] ∧ token.kind = kind := by
  intro blanks all position
  let only : Token := ⟨kind, String.ofList text, position.afterAll blanks⟩
  refine ⟨[only], ?_, only, rfl, rfl⟩
  rw [← List.append_nil (blanks ++ text)]
  exact .token (.blanks all) lexeme .nothing

theorem blank (follows : Reading behind final Form) : Reading (' ' :: behind) final Form := by
  intro blanks all position
  obtain ⟨tokens, reads, form⟩ := follows (blanks ++ [' ']) (by
    intro c member
    rcases List.mem_append.mp member with before | same
    · exact all c before
    · rw [List.mem_singleton.mp same]
      rfl) position
  exact ⟨tokens, by simpa using reads, form⟩

/-- A symbol in front of a text that is read. -/
theorem symbol {c : Char} (follows : Reading behind final Form)
    (found : TokenKind.ofSymbol? c = some kind) :
    Reading (c :: behind) final fun tokens => ∃ token others, tokens = token :: others
      ∧ token.kind = kind ∧ Form others := by
  apply (follows.token (.symbol found)).mono
  rintro _ ⟨token, others, rfl, same, _, form⟩
  exact ⟨token, others, rfl, same, form⟩

end Reading

/-! ## Names and numbers -/

/-- What stands behind a name or a number so that neither goes on. -/
structure Boundary (text : List Char) : Prop where
  stops : Stops Alphabet.isWordChar text
  noFraction : NoFraction text

namespace Boundary

variable {text : List Char}

theorem head {c : Char} (outside : Alphabet.isWordChar c = false ∧ c ≠ '.') :
    Boundary (c :: text) := by
  refine ⟨?_, ?_⟩
  · rintro d ⟨⟩
    exact outside.1
  · intro d rest same
    injection same with first
    exact absurd first outside.2

theorem blank (text : List Char) : Boundary (' ' :: text) :=
  head (by decide)

theorem dot : Boundary ['.'] := by
  refine ⟨?_, ?_⟩
  · rintro d ⟨⟩
    rfl
  · intro d rest same
    cases same

theorem stops_digits (boundary : Boundary text) : Stops Alphabet.isDigit text := by
  intro c found
  have other := boundary.stops c found
  cases digit : Alphabet.isDigit c with
  | false => rfl
  | true => rw [Alphabet.isWordChar_of_isDigit digit] at other; cases other

end Boundary

/-- A text that reads as an identifier. -/
structure IsName (text : String) : Prop where
  kind : TokenKind.ofWord text = .identifier
  word : ∃ first others, text.toList = first :: others ∧ Alphabet.isLetter first = true
    ∧ ∀ c ∈ others, Alphabet.isWordChar c = true

theorem IsName.wordChars {text : String} (name : IsName text) :
    ∀ c ∈ text.toList, Alphabet.isWordChar c = true := by
  obtain ⟨first, others, same, letter, all⟩ := name.word
  rw [same]
  exact List.forall_mem_cons.mpr ⟨Alphabet.isWordChar_of_isLetter letter, all⟩

theorem IsName.lexeme {text : String} (name : IsName text) {rest : List Char}
    (stops : Stops Alphabet.isWordChar rest) : Lexeme text.toList .identifier rest := by
  obtain ⟨first, others, same, letter, all⟩ := name.word
  have kind : TokenKind.ofWord (String.ofList (first :: others)) = .identifier := by
    rw [← same, String.ofList_toList]
    exact name.kind
  rw [same, ← kind]
  exact .word letter all stops

theorem Lexeme.isName {text rest : List Char} {kind : TokenKind} (lexeme : Lexeme text kind rest)
    (identifier : kind = .identifier) : IsName (String.ofList text) := by
  refine ⟨lexeme.ofWord_of_identifier identifier, ?_⟩
  cases lexeme with
  | symbol symbol =>
      subst identifier
      unfold TokenKind.ofSymbol? at symbol
      split at symbol <;> cases symbol
  | assign => cases identifier
  | colon => cases identifier
  | integer => cases identifier
  | real => cases identifier
  | word letter all => exact ⟨_, _, String.toList_ofList, letter, all⟩

/-- The text of a constant: a real literal, an integer literal or a name. -/
inductive Constant : String → Prop where
  | real {text : String} {whole fraction : List Char} :
    text.toList = whole ++ '.' :: fraction → Digits whole → Digits fraction → Constant text
  | integer {text : String} : Digits text.toList → Constant text
  | name {text : String} : IsName text → Constant text

theorem Number.IsLiteral.constant {number : Number} (literal : number.IsLiteral) :
    Constant number.shown := by
  cases number with
  | integer value => exact .integer literal.shown_integer.1
  | real value =>
      rcases Binary64.shown_cases literal.positive with read | ⟨_, digits | same | same⟩
      · obtain ⟨whole, fraction, split, digits, others, _⟩ := read
        exact .real split digits others
      · exact .integer digits
      · rw [shown, same]
        exact .name ⟨by decide, 'i', ['n', 'f'], rfl, rfl, List.all_eq_true.mp rfl⟩
      · rw [shown, same]
        exact .name ⟨by decide, 'N', ['a', 'N'], rfl, rfl, List.all_eq_true.mp rfl⟩

/-- What the text of a constant is read as. -/
def Expr.ofConstant (text : String) : Expr :=
  if '.' ∈ text.toList then .number 0 (Number.ofRealLiteral text)
  else if text.toList.all Alphabet.isDigit then
    .number 0 (.integer (Int64.ofNat (Number.digitsValue text.toList)))
  else .read (.named text)

namespace Constant

variable {text : String}

theorem ofConstant_of_digits (digits : Digits text.toList) : Expr.ofConstant text
    = .number 0 (.integer (Int64.ofNat (Number.digitsValue text.toList))) := by
  rw [Expr.ofConstant, if_neg digits.dot_not_mem, if_pos (List.all_eq_true.mpr digits.2)]

theorem ofConstant_of_name (name : IsName text) : Expr.ofConstant text = .read (.named text) := by
  have none : '.' ∉ text.toList := fun member => absurd (name.wordChars _ member) (by decide)
  obtain ⟨first, others, same, letter, _⟩ := name.word
  have other : ¬ text.toList.all Alphabet.isDigit := by
    rw [same, List.all_cons, Alphabet.isDigit_of_isLetter letter]
    exact Bool.false_ne_true
  rw [Expr.ofConstant, if_neg none, if_neg other]

/-- The text of a constant is one token, and that token is the factor that it is read as. -/
theorem exists_kind (constant : Constant text) : ∃ kind,
    (∀ rest, Boundary rest → Lexeme text.toList kind rest)
      ∧ (∀ token : Token, token.kind = kind → token.text = text →
        Grammar.Factor [token] (Expr.ofConstant text))
      ∧ (kind = .integerConst → Digits text.toList) := by
  cases constant with
  | @real whole fraction split digits others =>
      refine ⟨.realConst, fun rest boundary => ?_, fun token kind same => ?_, nofun⟩
      · rw [split]
        exact .real digits.1 digits.2 others.1 others.2 boundary.stops_digits
      · rw [Expr.ofConstant, if_pos (by simp [split]), ← same]
        exact .real kind
  | integer digits =>
      refine ⟨.integerConst, fun rest boundary => ?_, fun token kind same => ?_, fun _ => digits⟩
      · exact .integer digits.1 digits.2 boundary.stops_digits boundary.noFraction
      · rw [ofConstant_of_digits digits, ← same]
        exact .integer kind
  | name name =>
      refine ⟨.identifier, fun rest boundary => name.lexeme boundary.stops,
        fun token kind same => ?_, nofun⟩
      rw [ofConstant_of_name name, ← same]
      exact .name kind

end Constant

/-! ## Expressions -/

/-- What a visited node needs so that its text can be read: constants are those of literals, names
are identifiers, and brackets hold at least one statement. -/
def Visit.Sourced : Visit → Prop
  | .number _ value => value.IsLiteral
  | .used name => IsName name.name
  | .call _ name _ _ => IsName name
  | .compoundStart compound => compound.statements ≠ []
  | _ => True

/-- The value of a real constant. -/
def Visit.real? : Visit → Option Float
  | .number _ (.real value) => some value
  | _ => none

/-- A real constant has a dot in its text. -/
def Visit.Dotted (visit : Visit) : Prop :=
  ∀ value ∈ visit.real?, '.' ∈ (Number.real value).shown.toList

instance (visit : Visit) : Decidable visit.Dotted :=
  inferInstanceAs (Decidable (∀ value ∈ visit.real?, _))

theorem Visit.dotted_of_none {visit : Visit} (other : visit.real? = none) : visit.Dotted := by
  rw [Dotted, other]
  nofun

/-- The bare expression that the text of an expression is read as. -/
def Expr.reread : Expr → Expr
  | .number _ value => .ofConstant value.shown
  | .read source => .read source.bare
  | .unary _ operator operand _ => .unary 0 operator operand.reread Position.start
  | .binary _ operator left right _ =>
    .binary 0 operator left.reread right.reread Position.start

/-- The tokens that the text of an expression reads as. -/
structure Expr.Spelled (expr : Expr) (tokens : List Token) : Prop where
  factor : Grammar.Factor tokens expr.reread
  fits : (∀ visit ∈ expr.visits, visit.Dotted) → ∀ token ∈ tokens, token.Fits

namespace Expr

theorem spelled_number {id : NodeId} {value : Number} {token : Token} (literal : value.IsLiteral)
    (factor : Grammar.Factor [token] (.ofConstant value.shown)) (text : token.text = value.shown)
    (digits : token.kind = .integerConst → Digits value.shown.toList) :
    Spelled (.number id value) [token] := by
  refine ⟨factor, fun dotted => List.forall_mem_singleton.mpr fun integer => ?_⟩
  rw [text]
  cases value with
  | integer value => exact literal.shown_integer.2.1
  | real value => exact absurd (dotted _ List.mem_cons_self value rfl) (digits integer).dot_not_mem

theorem spelled_unary {id : NodeId} {operator : UnaryOperator} {operand : Expr}
    {position : Position} {opening sign closing : Token} {tokens : List Token}
    (opens : opening.kind = .parenthesisLeft) (signs : Grammar.Sign sign.kind operator)
    (inner : operand.Spelled tokens) (closes : closing.kind = .parenthesisRight) :
    Spelled (.unary id operator operand position) (opening :: (sign :: tokens ++ [closing])) := by
  refine ⟨?_, fun dotted => ?_⟩
  · apply Grammar.Factor.parentheses
    exact .mk opens (.first (.first (.signed signs inner.factor))) closes
  · have other : sign.kind ≠ .integerConst := by
      rcases signs.cases with ⟨kind, _⟩ | ⟨kind, _⟩ <;> rw [kind] <;> decide
    have fits := inner.fits (List.forall_mem_append.mp dotted).1
    simp only [List.forall_mem_cons, List.forall_mem_append]
    exact ⟨Token.fits_of_kind opens (by decide), ⟨Token.fits_of_ne other, fits⟩,
      Token.fits_of_kind closes (by decide), by simp⟩

/-- An operator between two factors. -/
theorem spelled_binary {id : NodeId} {operator : BinaryOperator} {left right : Expr}
    {position : Position} {opening sign closing : Token} {first second : List Token}
    (opens : opening.kind = .parenthesisLeft) (lefts : left.Spelled first)
    (signs : Grammar.Adding sign.kind operator ∨ Grammar.Multiplying sign.kind operator)
    (rights : right.Spelled second) (closes : closing.kind = .parenthesisRight) :
    Spelled (.binary id operator left right position)
      (opening :: (first ++ sign :: second ++ [closing])) := by
  refine ⟨?_, fun dotted => ?_⟩
  · apply Grammar.Factor.parentheses
    refine .mk opens ?_ closes
    rcases signs with adds | multiplies
    · exact .next (.first (.first lefts.factor)) adds (.first rights.factor)
    · exact .first (.next (.first lefts.factor) multiplies rights.factor)
  · have other : sign.kind ≠ .integerConst := by
      generalize sign.kind = kind at signs
      rcases signs with adds | multiplies
      · cases adds <;> decide
      · cases multiplies <;> decide
    simp only [visits, List.forall_mem_append] at dotted
    simp only [List.forall_mem_cons, List.forall_mem_append]
    exact ⟨Token.fits_of_kind opens (by decide),
      ⟨lefts.fits dotted.1.1, Token.fits_of_ne other, rights.fits dotted.1.2⟩,
      Token.fits_of_kind closes (by decide), by simp⟩

end Expr

theorem BinaryOperator.exists_lexeme (operator : BinaryOperator) : ∃ kind,
    (∀ rest, Lexeme operator.symbol.toList kind (' ' :: rest))
      ∧ (Grammar.Adding kind operator ∨ Grammar.Multiplying kind operator) := by
  cases operator with
  | plus => exact ⟨.plus, fun _ => .symbol rfl, .inl .plus⟩
  | minus => exact ⟨.minus, fun _ => .symbol rfl, .inl .minus⟩
  | multiply => exact ⟨.multiply, fun _ => .symbol rfl, .inr .multiply⟩
  | realDivide => exact ⟨.realDivide, fun _ => .symbol rfl, .inr .realDivide⟩
  | integerDivide =>
      refine ⟨.integerDivide, fun rest => ?_, .inr .integerDivide⟩
      exact Lexeme.word rfl (List.all_eq_true.mp rfl) (Boundary.blank rest).stops

theorem UnaryOperator.exists_symbol (operator : UnaryOperator) : ∃ c kind,
    operator.symbol.toList = [c] ∧ TokenKind.ofSymbol? c = some kind
      ∧ Grammar.Sign kind operator := by
  cases operator with
  | plus => exact ⟨'+', .plus, rfl, rfl, .plus⟩
  | minus => exact ⟨'-', .minus, rfl, rfl, .minus⟩

/-- A name in front of a text that is read. -/
theorem Reading.name {text : String} {behind final : List Char} {Form : List Token → Prop}
    (follows : Reading behind final Form) (name : IsName text)
    (stops : Stops Alphabet.isWordChar (behind ++ final)) :
    Reading (text.toList ++ behind) final fun tokens => ∃ token others, tokens = token :: others
      ∧ token.kind = .identifier ∧ token.text = text ∧ Form others := by
  have reading := follows.token (name.lexeme stops)
  rwa [String.ofList_toList] at reading

/-- The text reads as tokens of its own form in front of every text that is read. -/
def Spells (text : String) (Own : List Token → Prop) : Prop :=
  ∀ {behind final : List Char} {Form : List Token → Prop}, Boundary (behind ++ final) →
    Reading behind final Form → Reading (text.toList ++ behind) final fun tokens =>
      ∃ own others, tokens = own ++ others ∧ Own own ∧ Form others

/-- The text of an expression reads as the tokens of one factor. -/
theorem Expr.spells (expr : Expr) (sourced : ∀ visit ∈ expr.bare.visits, visit.Sourced) :
    Spells expr.shown fun own => expr.Spelled own := by
  induction expr with
  | number id value =>
      intro behind final Form boundary follows
      have literal : value.IsLiteral := sourced _ List.mem_cons_self
      obtain ⟨kind, lexeme, factor, digits⟩ := literal.constant.exists_kind
      apply (follows.token (lexeme _ boundary)).mono
      rintro _ ⟨token, others, rfl, same, text, form⟩
      rw [String.ofList_toList] at text
      refine ⟨[token], others, rfl, ?_, form⟩
      exact spelled_number literal (factor token same text) text (same ▸ digits)
  | read source =>
      intro behind final Form boundary follows
      have name : IsName source.name := sourced (.used source.bare) List.mem_cons_self
      apply (follows.name name boundary.stops).mono
      rintro _ ⟨token, others, rfl, same, text, form⟩
      refine ⟨[token], others, rfl, ⟨?_, fun _ => ?_⟩, form⟩
      · rw [reread, Variable.bare, ← text]
        exact .name same
      · exact List.forall_mem_singleton.mpr (Token.fits_of_kind same (by decide))
  | unary id operator operand position ih =>
      intro behind final Form boundary follows
      simp only [bare, visits, List.forall_mem_append] at sourced
      obtain ⟨c, kind, sign, found, signs⟩ := operator.exists_symbol
      -- A token ends where the text behind it allows, so the reading is put together from the back.
      have closing := follows.symbol (c := ')') rfl
      have operands := ih sourced.1 (.head (by decide)) closing
      have opening := (operands.symbol found).symbol (c := '(') rfl
      have text : (unary id operator operand position).shown.toList ++ behind
          = '(' :: c :: (operand.shown.toList ++ ')' :: behind) := by simp [shown, sign]
      rw [text]
      apply opening.mono
      rintro _ ⟨first, _, rfl, opens, second, _, rfl, same, own, _, rfl, inner, last, others, rfl,
        closes, form⟩
      refine ⟨first :: (second :: own ++ [last]), others, by simp, ?_, form⟩
      exact spelled_unary opens (same ▸ signs) inner closes
  | binary id operator left right position ihl ihr =>
      intro behind final Form boundary follows
      simp only [bare, visits, List.forall_mem_append] at sourced
      obtain ⟨kind, lexeme, signs⟩ := operator.exists_lexeme
      have closing := follows.symbol (c := ')') rfl
      have rights := (ihr sourced.1.2 (.head (by decide)) closing).blank
      have middle := (rights.token (lexeme _)).blank
      have opening := (ihl sourced.1.1 (.head (by decide)) middle).symbol (c := '(') rfl
      have text : (binary id operator left right position).shown.toList ++ behind
          = '(' :: (left.shown.toList ++ ' ' :: (operator.symbol.toList
            ++ ' ' :: (right.shown.toList ++ ')' :: behind))) := by simp [shown]
      rw [text]
      apply opening.mono
      rintro _ ⟨first, _, rfl, opens, own, _, rfl, lefts, sign, _, rfl, same, _, further, _, rfl,
        rights, last, others, rfl, closes, form⟩
      refine ⟨first :: (own ++ sign :: further ++ [last]), others, by simp, ?_, form⟩
      exact spelled_binary opens lefts (same ▸ signs) rights closes

/-! ## Expressions that come back -/

theorem Number.IsLiteral.ofConstant_eq_iff {value : Number} (literal : value.IsLiteral)
    (id : NodeId) :
    Expr.ofConstant value.shown = .number 0 value ↔ (Visit.number id value).Dotted := by
  cases value with
  | integer value =>
      obtain ⟨digits, _, exact⟩ := literal.shown_integer
      rw [Constant.ofConstant_of_digits digits, exact]
      exact iff_of_true rfl (Visit.dotted_of_none rfl)
  | real value =>
      have one : (Visit.number id (.real value)).Dotted
          ↔ '.' ∈ (Number.real value).shown.toList := by simp [Visit.Dotted, Visit.real?]
      rw [one]
      constructor
      · intro same
        by_contra none
        rw [Expr.ofConstant, if_neg none] at same
        split at same <;> cases same
      · intro dotted
        rcases Binary64.shown_cases literal.positive with read | ⟨none, _⟩
        · obtain ⟨_, _, _, _, _, same⟩ := read
          rw [Expr.ofConstant, if_pos dotted]
          exact congrArg (Expr.number 0) same
        · exact absurd dotted none

/-- An expression is read as itself exactly if its real constants have dots. -/
theorem Expr.reread_eq_bare_iff (expr : Expr)
    (sourced : ∀ visit ∈ expr.bare.visits, visit.Sourced) :
    expr.reread = expr.bare ↔ ∀ visit ∈ expr.visits, visit.Dotted := by
  induction expr with
  | number id value =>
      have literal : value.IsLiteral := sourced _ List.mem_cons_self
      rw [visits, List.forall_mem_singleton]
      exact literal.ofConstant_eq_iff id
  | read source => exact iff_of_true rfl (List.forall_mem_singleton.mpr (Visit.dotted_of_none rfl))
  | unary id operator operand position ih =>
      simp only [bare, visits, List.forall_mem_append] at sourced
      simp only [reread, bare, visits, List.forall_mem_append, ← ih sourced.1]
      simp [Visit.Dotted, Visit.real?]
  | binary id operator left right position ihl ihr =>
      simp only [bare, visits, List.forall_mem_append] at sourced
      simp only [reread, bare, visits, List.forall_mem_append, ← ihl sourced.1.1,
        ← ihr sourced.1.2]
      simp [Visit.Dotted, Visit.real?]

theorem Expr.shown_bare (expr : Expr) : expr.bare.shown = expr.shown := by
  induction expr with
  | number id value => rfl
  | read source => rfl
  | unary id operator operand position ih => rw [bare, shown, shown, ih]
  | binary id operator left right position ihl ihr => rw [bare, shown, shown, ihl, ihr]

end MiniPascal
