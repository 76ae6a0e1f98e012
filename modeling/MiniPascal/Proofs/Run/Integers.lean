import MiniPascal.Proofs.Run.Isolation

/-! # Integer expressions

The operators of an integer expression are listed in the order in which they are applied, each with
its operands as unbounded integers. Evaluation stops at the first of them that divides by zero or
has no room for its result in 64 bits. If there is none, it comes to the exact value. -/
set_option autoImplicit false
namespace MiniPascal

def ArithmeticFault.locatedAt (position : Position) : ArithmeticFault → RuntimeError
  | .divisionByZero => .divisionByZero position
  | .overflow => .overflow position

theorem RuntimeError.located_error (position : Position) (fault : ArithmeticFault) :
    located position (.error fault) = .error (fault.locatedAt position) := by
  cases fault <;> rfl

namespace Number

def Fits (value : Int) : Prop :=
  least ≤ value ∧ value ≤ greatest

instance (value : Int) : Decidable (Fits value) :=
  inferInstanceAs (Decidable (_ ∧ _))

theorem fits_toInt (value : Int64) : Fits value.toInt := by
  have low := value.le_toInt
  have high := value.toInt_lt
  simp only [Fits, least, greatest]
  omega

theorem toInt_ofInt_of_fits {value : Int} (fits : Fits value) :
    (Int64.ofInt value).toInt = value := by
  simp only [Fits, least, greatest] at fits
  exact Int64.toInt_ofInt_of_le (by omega) (by omega)

theorem ofExact_eq (value : Int) : ofExact value
    = if Fits value then .ok (.integer (Int64.ofInt value)) else .error .overflow :=
  rfl

theorem fits_tdiv {left right : Int} (fits : Fits left) (other : right ≠ 0)
    (inside : ¬ (left = least ∧ right = -1)) : Fits (left.tdiv right) := by
  simp only [Fits, least, greatest] at fits inside ⊢
  have size : (left.tdiv right).natAbs = left.natAbs / right.natAbs := Int.natAbs_tdiv left right
  by_cases unit : right.natAbs = 1
  · obtain rfl | rfl : right = 1 ∨ right = -1 := by omega
    · rwa [Int.tdiv_one]
    · rw [Int.tdiv_neg, Int.tdiv_one]
      omega
  · have halved : left.natAbs / right.natAbs ≤ left.natAbs / 2 :=
      Nat.div_le_div_left (by omega) Nat.two_pos
    omega

end Number

/-- A step of integer arithmetic, with its operands as unbounded integers. -/
inductive Operation where
  | unary (operator : UnaryOperator) (operand : Int)
  | binary (operator : BinaryOperator) (left right : Int)
deriving DecidableEq

namespace Operation

/-- The exact result. A division with a fraction is no step of integer arithmetic. -/
def result : Operation → Int
  | .unary .plus operand => operand
  | .unary .minus operand => -operand
  | .binary .plus left right => left + right
  | .binary .minus left right => left - right
  | .binary .multiply left right => left * right
  | .binary .integerDivide left right => left.tdiv right
  | .binary .realDivide _ _ => 0

/-- Whether zero divides. -/
def byZero : Operation → Bool
  | .binary .integerDivide _ right => right == 0
  | _ => false

/-- Why a step fails, if it does: zero divides, or the result has no room. -/
def fault? (operation : Operation) : Option ArithmeticFault :=
  if operation.byZero then some .divisionByZero
  else if Number.Fits operation.result then none
  else some .overflow

/-- The operands are such that an overflow is possible at all: the least integer alone has no
negative, and its quotient by minus one is the only one without room. -/
def AtEdge : Operation → Prop
  | .unary operator operand => operator = .minus ∧ operand = Number.least
  | .binary .integerDivide left right => left = Number.least ∧ right = -1
  | .binary _ _ _ => True

/-- The operands have room in 64 bits. -/
def Ranged : Operation → Prop
  | .unary _ operand => Number.Fits operand
  | .binary _ left right => Number.Fits left ∧ Number.Fits right

/-- What a step comes to on numbers. -/
def outcome (operation : Operation) : Except ArithmeticFault Number :=
  match operation.fault? with
  | some fault => .error fault
  | none => .ok (.integer (Int64.ofInt operation.result))

theorem fault?_eq_none_iff {operation : Operation} :
    operation.fault? = none ↔ operation.byZero = false ∧ Number.Fits operation.result := by
  rw [fault?]
  split <;> simp_all

theorem fault?_eq_overflow_iff {operation : Operation} :
    operation.fault? = some .overflow
      ↔ operation.byZero = false ∧ ¬ Number.Fits operation.result := by
  rw [fault?]
  split <;> simp_all

theorem atEdge_of_overflow {operation : Operation} (ranged : operation.Ranged)
    (overflows : operation.fault? = some .overflow) : operation.AtEdge := by
  obtain ⟨other, large⟩ := fault?_eq_overflow_iff.mp overflows
  cases operation with
  | unary operator operand =>
      cases operator with
      | plus => exact absurd ranged large
      | minus =>
          refine ⟨rfl, ?_⟩
          simp only [Ranged, result, Number.Fits, Number.least, Number.greatest] at ranged large ⊢
          omega
  | binary operator left right =>
      cases operator with
      | integerDivide =>
          by_contra inside
          exact large (Number.fits_tdiv ranged.1 (by simpa [byZero] using other) inside)
      | plus | minus | multiply | realDivide => trivial

end Operation

theorem Operation.outcome_of_other (operation : Operation) (other : operation.byZero = false) :
    operation.outcome = Number.ofExact operation.result := by
  have same : operation.fault?
      = if Number.Fits operation.result then none else some .overflow := by
    rw [fault?, other]
    rfl
  rw [outcome, same, Number.ofExact_eq]
  by_cases fits : Number.Fits operation.result
  · rw [if_pos fits, if_pos fits]
  · rw [if_neg fits, if_neg fits]

theorem UnaryOperator.apply_integer (operator : UnaryOperator) (operand : Int64) :
    operator.apply (.integer operand) = (Operation.unary operator operand.toInt).outcome := by
  rw [Operation.outcome_of_other _ rfl]
  cases operator with
  | plus =>
      rw [apply, Operation.result, Number.ofExact_eq, if_pos (Number.fits_toInt operand),
        Int64.ofInt_toInt]
  | minus => rfl

theorem BinaryOperator.apply_integer {operator : BinaryOperator} (whole : operator ≠ .realDivide)
    (left right : Int64) : operator.apply (.integer left) (.integer right)
      = (Operation.binary operator left.toInt right.toInt).outcome := by
  cases operator with
  | plus => exact (Operation.outcome_of_other (.binary .plus _ _) rfl).symm
  | minus => exact (Operation.outcome_of_other (.binary .minus _ _) rfl).symm
  | multiply => exact (Operation.outcome_of_other (.binary .multiply _ _) rfl).symm
  | realDivide => exact absurd rfl whole
  | integerDivide =>
      by_cases zero : right = 0
      · subst zero
        rfl
      · have other : right.toInt ≠ 0 := fun same => zero (Int64.toInt_inj.mp same)
        rw [Operation.outcome_of_other _ (by simpa [Operation.byZero] using other), apply,
          Number.integerDivide, if_neg (by simpa [Number.isZero] using zero)]
        rfl

/-! ## Expressions of integers -/

namespace Expr

/-- All numbers in the expression are integers: its constants, what the variables that it reads have
in the frame, and the results of its operators. -/
def Whole (frame : Frame) : Expr → Prop
  | .number _ value => value.dataType = .integer
  | .read source => ∃ value, frame.get? source.name = some (.integer value)
  | .unary _ _ operand _ => operand.Whole frame
  | .binary _ operator left right _ =>
    operator ≠ .realDivide ∧ left.Whole frame ∧ right.Whole frame

/-- The value over the unbounded integers. -/
def exactIn (frame : Frame) : Expr → Int
  | .number _ (.integer value) => value.toInt
  | .number _ (.real _) => 0
  | .read source =>
    match frame.get? source.name with
    | some (.integer value) => value.toInt
    | _ => 0
  | .unary _ operator operand _ => (Operation.unary operator (operand.exactIn frame)).result
  | .binary _ operator left right _ =>
    (Operation.binary operator (left.exactIn frame) (right.exactIn frame)).result

/-- The steps of arithmetic with their positions, operands first and from the left. -/
def operations (frame : Frame) : Expr → List (Position × Operation)
  | .number _ _ | .read _ => []
  | .unary _ operator operand position =>
    operand.operations frame ++ [(position, .unary operator (operand.exactIn frame))]
  | .binary _ operator left right position =>
    left.operations frame ++ right.operations frame
      ++ [(position, .binary operator (left.exactIn frame) (right.exactIn frame))]

end Expr

/-- None of the steps has a fault. -/
def Clean (steps : List (Position × Operation)) : Prop :=
  ∀ step ∈ steps, step.2.fault? = none

/-- The step at this position is the first one with a fault. -/
def FailsFirst (steps : List (Position × Operation)) (position : Position) (operation : Operation)
    (fault : ArithmeticFault) : Prop :=
  operation.fault? = some fault
    ∧ ∃ earlier later, steps = earlier ++ (position, operation) :: later ∧ Clean earlier

namespace FailsFirst

variable {steps : List (Position × Operation)} {position : Position} {operation : Operation}
  {fault : ArithmeticFault}

theorem append (first : FailsFirst steps position operation fault)
    (others : List (Position × Operation)) :
    FailsFirst (steps ++ others) position operation fault := by
  obtain ⟨fails, earlier, later, rfl, clean⟩ := first
  exact ⟨fails, earlier, later ++ others, by simp, clean⟩

theorem behind {before : List (Position × Operation)} (clean : Clean before)
    (first : FailsFirst steps position operation fault) :
    FailsFirst (before ++ steps) position operation fault := by
  obtain ⟨fails, earlier, later, rfl, others⟩ := first
  exact ⟨fails, before ++ earlier, later, by simp, List.forall_mem_append.mpr ⟨clean, others⟩⟩

theorem not_clean (first : FailsFirst steps position operation fault) : ¬ Clean steps := by
  intro clean
  obtain ⟨fails, earlier, later, rfl, -⟩ := first
  have none := clean (position, operation) (by simp)
  rw [fails] at none
  cases none

theorem found (first : FailsFirst steps position operation fault) :
    steps.find? (fun step => step.2.fault?.isSome) = some (position, operation) := by
  obtain ⟨fails, earlier, later, rfl, clean⟩ := first
  refine List.find?_eq_some_iff_append.mpr ⟨by simp [fails], earlier, later, rfl, ?_⟩
  intro step member
  simp [clean step member]

theorem unique {other : Position} {next : Operation} {reason : ArithmeticFault}
    (first : FailsFirst steps position operation fault)
    (second : FailsFirst steps other next reason) :
    position = other ∧ operation = next ∧ fault = reason := by
  have same := first.found.symm.trans second.found
  obtain ⟨rfl, rfl⟩ := Prod.mk.inj (Option.some.inj same)
  exact ⟨rfl, rfl, Option.some.inj (first.1.symm.trans second.1)⟩

theorem last (fails : operation.fault? = some fault) (clean : Clean steps) :
    FailsFirst (steps ++ [(position, operation)]) position operation fault :=
  ⟨fails, steps, [], rfl, clean⟩

end FailsFirst

namespace Expr

variable {frame : Frame} {expr : Expr}

/-- What the arithmetic of an expression comes to: no step has a fault and the value is exact, or the
first step with a fault decides. -/
inductive Settles (frame : Frame) (expr : Expr) : Prop where
  | value (value : Int64) : Clean (expr.operations frame) →
    expr.valueIn frame = .ok (.integer value) → value.toInt = expr.exactIn frame →
      Settles frame expr
  | fault (position : Position) (operation : Operation) (fault : ArithmeticFault) :
    FailsFirst (expr.operations frame) position operation fault →
    operation.Ranged → expr.valueIn frame = .error (fault.locatedAt position) →
      Settles frame expr

theorem Settles.of_step (operation : Operation) {steps : List (Position × Operation)}
    {position : Position} (clean : Clean steps) (ranged : operation.Ranged)
    (operations : expr.operations frame = steps ++ [(position, operation)])
    (exact : expr.exactIn frame = operation.result)
    (applied : expr.valueIn frame = RuntimeError.located position operation.outcome) :
    Settles frame expr := by
  cases found : operation.fault? with
  | some fault =>
      rw [Operation.outcome, found, RuntimeError.located_error] at applied
      exact .fault position operation fault (operations ▸ .last found clean) ranged applied
  | none =>
      have fits := (Operation.fault?_eq_none_iff.mp found).2
      rw [Operation.outcome, found] at applied
      refine .value _ ?_ applied ?_
      · rw [operations]
        exact List.forall_mem_append.mpr ⟨clean, List.forall_mem_singleton.mpr found⟩
      · rw [Number.toInt_ofInt_of_fits fits, exact]

theorem settles (expr : Expr) : expr.Whole frame → Settles frame expr := by
  induction expr with
  | number id value =>
      intro whole
      cases value with
      | integer value => exact .value value (List.forall_mem_nil _) rfl rfl
      | real value => cases whole
  | read source =>
      rintro ⟨value, found⟩
      refine .value value (List.forall_mem_nil _) ?_ ?_
      · rw [valueIn, found]
      · rw [exactIn, found]
  | unary id operator operand position ih =>
      intro whole
      cases ih whole with
      | fault place operation fault first ranged failed =>
          exact .fault place operation fault (first.append _) ranged (by rw [valueIn, failed])
      | value inner clean found exact =>
          have ranged : Number.Fits (operand.exactIn frame) := exact ▸ Number.fits_toInt inner
          refine .of_step (.unary operator _) clean ranged rfl rfl ?_
          simp only [valueIn, found, UnaryOperator.apply_integer, exact]
  | binary id operator left right position first second =>
      rintro ⟨whole, wholeLeft, wholeRight⟩
      cases first wholeLeft with
      | fault place operation fault first ranged failed =>
          exact .fault place operation fault ((first.append _).append _) ranged
            (by rw [valueIn, failed])
      | value before clean found exact =>
          cases second wholeRight with
          | fault place operation fault first ranged failed =>
              refine .fault place operation fault ((first.behind clean).append _) ranged ?_
              simp only [valueIn, found, failed]
          | value after clean' found' exact' =>
              have ranged : Number.Fits (left.exactIn frame) ∧ Number.Fits (right.exactIn frame) :=
                ⟨exact ▸ Number.fits_toInt before, exact' ▸ Number.fits_toInt after⟩
              refine .of_step (.binary operator _ _)
                (List.forall_mem_append.mpr ⟨clean, clean'⟩) ranged rfl rfl ?_
              simp only [valueIn, found, found', BinaryOperator.apply_integer whole, exact, exact']

/-- An expression of integers has a value if and only if no step of its arithmetic has a fault, and
then its value is the exact one. If steps have faults then the first of them ends the evaluation with
an error at its position; of the steps that overflow, a quotient and a negation do so at the end of
the range alone. -/
theorem evaluate_exact {below : List Frame} {machine : Machine}
    (stack : machine.stack = frame :: below) (whole : expr.Whole frame) :
    (Clean (expr.operations frame)
        ↔ ∃ value after, expr.evaluate machine = .ok (.integer value) after)
      ∧ (∀ value after, expr.evaluate machine = .ok (.integer value) after →
          value.toInt = expr.exactIn frame)
      ∧ (¬ Clean (expr.operations frame) → ∃ position operation fault after,
          FailsFirst (expr.operations frame) position operation fault
            ∧ expr.evaluate machine = .error (.fault (fault.locatedAt position)) after
            ∧ (fault = .overflow → operation.AtEdge)) := by
  rw [Expr.evaluate_eq expr stack]
  cases expr.settles whole with
  | value value clean found exact =>
      rw [found]
      refine ⟨⟨fun _ => ⟨value, _, rfl⟩, fun _ => clean⟩, ?_, absurd clean⟩
      intro other after same
      cases same
      exact exact
  | fault position operation fault first ranged failed =>
      rw [failed]
      refine ⟨⟨fun clean => absurd clean first.not_clean, ?_⟩, ?_, fun _ => ?_⟩
      · rintro ⟨value, after, same⟩
        cases same
      · intro value after same
        cases same
      · refine ⟨position, operation, fault, _, first, rfl, ?_⟩
        rintro rfl
        exact Operation.atEdge_of_overflow ranged first.1

/-- The negation of the least integer comes before the division by zero. -/
theorem evaluate_exact_least :
    let frame := (Frame.ofScope "p").set "x" (.integer Int64.minValue)
    let negated : Expr := .unary 2 .minus (.read ⟨1, "x", ⟨1, 7⟩⟩) ⟨1, 6⟩
    let divided : Expr :=
      .binary 5 .integerDivide (.number 3 (.integer 7)) (.number 4 (.integer 0)) ⟨1, 13⟩
    let expr : Expr := .binary 6 .plus negated divided ⟨1, 9⟩
    expr.Whole frame ∧ ∃ after, expr.evaluate ⟨[frame], []⟩
      = .error (.fault (.overflow ⟨1, 6⟩)) after := by
  intro frame negated divided expr
  have bound : frame.get? "x" = some (.integer Int64.minValue) := by
    rw [Frame.get?_set]
    rfl
  have whole : expr.Whole frame := ⟨by decide, ⟨_, bound⟩, by decide, rfl, rfl⟩
  have least : (Expr.read ⟨1, "x", ⟨1, 7⟩⟩).exactIn frame = Number.least := by
    rw [exactIn, bound]
    rfl
  have first : FailsFirst (expr.operations frame) ⟨1, 6⟩ (.unary .minus Number.least) .overflow := by
    refine ⟨by decide, [], divided.operations frame
      ++ [(⟨1, 9⟩, .binary .plus (negated.exactIn frame) (divided.exactIn frame))], ?_,
      List.forall_mem_nil _⟩
    simp only [expr, negated, operations, least, List.nil_append, List.cons_append]
  obtain ⟨-, -, faulty⟩ := evaluate_exact (show Machine.stack ⟨[frame], []⟩ = [frame] from rfl) whole
  obtain ⟨position, operation, fault, after, other, failed, -⟩ := faulty first.not_clean
  obtain ⟨rfl, rfl, rfl⟩ := first.unique other
  exact ⟨whole, after, failed⟩

end Expr
end MiniPascal
