import MiniPascal.Proofs.Number.Exactness
import MiniPascal.Proofs.Run.Causes
import MiniPascal.Proofs.Run.Integers

/-! # Types of results

Whether an expression comes to a real is decided by its leaves and its operators: by the constants,
by what the variables have in the frame, and by divisions with a fraction. No declaration has a part
in it. The faults of arithmetic depend on the operands alone: only a zero does not divide, and only
integers overflow. -/
set_option autoImplicit false
namespace MiniPascal

/-! ## Types and faults of single operations -/

namespace Number

/-- The integer zero and the real zeros of both signs. -/
def zeros : List Number :=
  [.integer 0, .real 0.0, .real (-0.0)]

theorem dataType_eq_integer_iff {value : Number} :
    value.dataType = .integer ↔ ¬ value.dataType = .real := by
  cases value <;> simp [dataType]

/-- The real zeros are the only reals that are equal to zero. -/
theorem eq_zero_of_beq {value : Float} (equal : Float.beq value 0.0 = true) :
    value = 0.0 ∨ value = -0.0 := by
  change (value.toModel.unpack.compare (.zero .positive) == some .eq) = true at equal
  have zero : ∃ sign, value.toModel.unpack = .zero sign := by
    cases parts : value.toModel.unpack with
    | zero sign => exact ⟨sign, rfl⟩
    | notANumber => rw [parts] at equal; cases equal
    | infinity sign => rw [parts] at equal; cases sign <;> cases equal
    | finite sign mantissa exponent positive =>
        rw [parts] at equal
        cases sign <;> cases equal
  obtain ⟨sign, parts⟩ := zero
  rw [Binary64.eq_pack parts]
  cases sign with
  | positive => exact .inl rfl
  | negative => exact .inr rfl

theorem mem_zeros_of_isZero {value : Number} (zero : value.isZero = true) : value ∈ zeros := by
  cases value with
  | integer value =>
      obtain rfl : value = 0 := eq_of_beq zero
      exact List.mem_cons_self
  | real value =>
      rcases eq_zero_of_beq zero with rfl | rfl
      · exact List.mem_cons_of_mem _ List.mem_cons_self
      · exact List.mem_cons_of_mem _ (List.mem_cons_of_mem _ List.mem_cons_self)

theorem dataType_of_ofExact {value : Int} {result : Number} (done : ofExact value = .ok result) :
    result.dataType = .integer := by
  unfold ofExact at done
  split at done <;> cases done
  rfl

variable {exact : Int → Int → Int} {rounded : Float → Float → Float} {left right : Number}

theorem dataType_of_combine {result : Number}
    (done : combine exact rounded left right = .ok result) :
    result.dataType = .real ↔ left.dataType = .real ∨ right.dataType = .real := by
  cases left with
  | real left =>
      cases done
      exact iff_of_true rfl (.inl rfl)
  | integer left =>
      cases right with
      | real right =>
          cases done
          exact iff_of_true rfl (.inr rfl)
      | integer right =>
          rw [dataType_of_ofExact done]
          simp [dataType]

theorem integers_of_combine {fault : ArithmeticFault}
    (refused : combine exact rounded left right = .error fault) :
    ∃ first second, left = .integer first ∧ right = .integer second := by
  cases left with
  | real left => cases refused
  | integer left =>
      cases right with
      | real right => cases refused
      | integer right => exact ⟨left, right, rfl, rfl⟩

end Number

namespace UnaryOperator

variable {operator : UnaryOperator} {operand : Number}

theorem dataType_of_apply {result : Number} (done : operator.apply operand = .ok result) :
    result.dataType = operand.dataType := by
  cases operator with
  | plus =>
      cases done
      rfl
  | minus =>
      cases operand with
      | integer value => exact Number.dataType_of_ofExact done
      | real value =>
          cases done
          rfl

theorem integer_of_apply {fault : ArithmeticFault}
    (refused : operator.apply operand = .error fault) :
    ∃ value, operand = .integer value := by
  cases operator with
  | plus => cases refused
  | minus =>
      cases operand with
      | integer value => exact ⟨value, rfl⟩
      | real value => cases refused

end UnaryOperator

namespace BinaryOperator

variable {operator : BinaryOperator} {left right : Number}

/-- A division with a fraction makes its result real, and so does one real operand. -/
theorem dataType_of_apply {result : Number} (done : operator.apply left right = .ok result) :
    result.dataType = .real
      ↔ operator = .realDivide ∨ left.dataType = .real ∨ right.dataType = .real := by
  cases operator with
  | plus | minus | multiply => simpa using Number.dataType_of_combine done
  | integerDivide =>
      rw [apply, Number.integerDivide] at done
      split at done
      · cases done
      · simpa using Number.dataType_of_combine done
  | realDivide =>
      rw [apply, Number.realDivide] at done
      split at done <;> cases done
      exact iff_of_true rfl (.inl rfl)

/-- Only what divides by a zero is refused for it. -/
theorem zero_of_apply (refused : operator.apply left right = .error .divisionByZero) :
    operator ∈ dividing ∧ right ∈ Number.zeros := by
  have divides : operator ∈ dividing := by
    rcases mem_of_apply refused with ⟨_, divides⟩ | ⟨impossible, _⟩
    · exact divides
    · cases impossible
  refine ⟨divides, Number.mem_zeros_of_isZero ?_⟩
  by_contra other
  have nonzero : right.isZero = false := Bool.not_eq_true _ ▸ other
  simp only [dividing, List.mem_cons, List.not_mem_nil, or_false] at divides
  rcases divides with rfl | rfl
  · rw [apply, Number.integerDivide, nonzero, if_neg Bool.false_ne_true] at refused
    cases Number.eq_overflow_of_combine refused
  · rw [apply, Number.realDivide, nonzero, if_neg Bool.false_ne_true] at refused
    cases refused

theorem integers_of_apply (refused : operator.apply left right = .error .overflow) :
    ∃ first second, left = .integer first ∧ right = .integer second := by
  cases operator with
  | plus | minus | multiply => exact Number.integers_of_combine refused
  | integerDivide =>
      rw [apply, Number.integerDivide] at refused
      split at refused
      · cases refused
      · exact Number.integers_of_combine refused
  | realDivide =>
      rw [apply, Number.realDivide] at refused
      split at refused <;> cases refused

end BinaryOperator

/-! ## Expressions -/

/-- Why an expression has a fault although its operands have values. -/
inductive RuntimeError.ArisesAt (frame : Frame) : RuntimeError → Expr → Prop where
  | read {source : Variable} : frame.get? source.name = none →
      ArisesAt frame (.uninitialized source.name frame.scope source.position) (.read source)
  | unary {id : NodeId} {operator : UnaryOperator} {operand : Expr} {position : Position}
    {inner : Number} {fault : ArithmeticFault} : operand.valueIn frame = .ok inner →
      operator.apply inner = .error fault →
      ArisesAt frame (fault.locatedAt position) (.unary id operator operand position)
  | binary {id : NodeId} {operator : BinaryOperator} {left right : Expr} {position : Position}
    {first second : Number} {fault : ArithmeticFault} : left.valueIn frame = .ok first →
      right.valueIn frame = .ok second → operator.apply first second = .error fault →
      ArisesAt frame (fault.locatedAt position) (.binary id operator left right position)

theorem RuntimeError.ArisesAt.valueIn_eq {frame : Frame} {error : RuntimeError} {part : Expr}
    (arises : error.ArisesAt frame part) : part.valueIn frame = .error error := by
  cases arises with
  | read unbound => simp [Expr.valueIn, unbound]
  | unary under refused => simp [Expr.valueIn, under, refused, RuntimeError.located_error]
  | binary before after refused =>
      simp [Expr.valueIn, before, after, refused, RuntimeError.located_error]

namespace Expr

variable {frame : Frame}

/-- The node by itself makes a result real. -/
def BringsReal (frame : Frame) : Expr → Prop
  | .number _ value => value.dataType = .real
  | .read source => ∃ value, frame.get? source.name = some (.real value)
  | .unary _ _ _ _ => False
  | .binary _ operator _ _ _ => operator = .realDivide

/-- Evaluation comes to one of several parts: those that are evaluated before have values. -/
def ComesTo (frame : Frame) (parts : List Expr) (part : Expr) : Prop :=
  ∃ earlier later, parts = earlier ++ part :: later
    ∧ ∀ other ∈ earlier, ∃ value, other.valueIn frame = .ok value

theorem ComesTo.behind {before inner further parts : List Expr} {part : Expr}
    (comes : ComesTo frame inner part) (split : parts = before ++ inner ++ further)
    (values : ∀ other ∈ before, ∃ value, other.valueIn frame = .ok value) :
    ComesTo frame parts part := by
  obtain ⟨earlier, later, rfl, found⟩ := comes
  refine ⟨before ++ earlier, later ++ further, by simp [split], ?_⟩
  exact List.forall_mem_append.mpr ⟨values, found⟩

theorem ComesTo.unique {parts : List Expr} {part other : Expr} {error fault : RuntimeError}
    (comes : ComesTo frame parts part) (failed : part.valueIn frame = .error error)
    (comes' : ComesTo frame parts other) (failed' : other.valueIn frame = .error fault) :
    part = other := by
  let unvalued := fun expr : Expr => !(expr.valueIn frame).isOk
  have first : ∀ {part : Expr} {error : RuntimeError}, ComesTo frame parts part →
      part.valueIn frame = .error error → parts.find? unvalued = some part := by
    rintro part error ⟨earlier, later, split, values⟩ failed
    refine List.find?_eq_some_iff_append.mpr ⟨?_, earlier, later, split, ?_⟩
    · simp [unvalued, failed, Except.isOk, Except.toBool]
    · intro before member
      obtain ⟨value, found⟩ := values before member
      simp [unvalued, found, Except.isOk, Except.toBool]
  exact Option.some.inj ((first comes failed).symm.trans (first comes' failed'))

/-- The type of a value is decided by the nodes of its expression. -/
theorem dataType_iff (expr : Expr) : ∀ {value : Number}, expr.valueIn frame = .ok value →
    (value.dataType = .real ↔ ∃ part ∈ expr.parts, part.BringsReal frame) := by
  induction expr with
  | number id constant =>
      intro value found
      cases found
      simp [parts, BringsReal]
  | read source =>
      intro value found
      rw [valueIn] at found
      split at found <;> cases found
      rename_i bound
      cases value <;> simp [parts, BringsReal, bound, Number.dataType]
  | unary id operator operand position ih =>
      intro value found
      obtain ⟨inner, under, applied⟩ := valueIn_unary_iff.mp found
      rw [UnaryOperator.dataType_of_apply applied, ih under]
      simp [parts, or_and_right, exists_or, BringsReal]
  | binary id operator left right position ihLeft ihRight =>
      intro value found
      obtain ⟨first, second, before, after, applied⟩ := valueIn_binary_iff.mp found
      rw [BinaryOperator.dataType_of_apply applied, ihLeft before, ihRight after]
      simp only [parts, List.mem_append, List.mem_singleton, or_and_right, exists_or,
        exists_eq_left, BringsReal]
      rw [or_comm]

/-- A fault arises at one part, with which the evaluation ends. -/
theorem exists_end (expr : Expr) : ∀ {error : RuntimeError}, expr.valueIn frame = .error error →
    ∃ part, ComesTo frame expr.parts part ∧ error.ArisesAt frame part := by
  induction expr with
  | number id constant =>
      intro error failed
      cases failed
  | read source =>
      intro error failed
      rw [valueIn] at failed
      split at failed <;> cases failed
      exact ⟨_, ⟨[], [], rfl, List.forall_mem_nil _⟩, .read ‹_›⟩
  | unary id operator operand position ih =>
      intro error failed
      cases under : operand.valueIn frame with
      | error first =>
          simp only [valueIn, under] at failed
          cases failed
          obtain ⟨part, comes, arises⟩ := ih under
          exact ⟨part, comes.behind (List.nil_append _) (List.forall_mem_nil _), arises⟩
      | ok inner =>
          simp only [valueIn, under] at failed
          cases applied : operator.apply inner with
          | ok value => simp [applied, RuntimeError.located] at failed
          | error fault =>
              rw [applied, RuntimeError.located_error] at failed
              cases failed
              exact ⟨_, ⟨operand.parts, [], rfl, operand.exists_valueIn_parts under⟩,
                .unary under applied⟩
  | binary id operator left right position ihLeft ihRight =>
      intro error failed
      cases before : left.valueIn frame with
      | error first =>
          simp only [valueIn, before] at failed
          cases failed
          obtain ⟨part, comes, arises⟩ := ihLeft before
          exact ⟨part, comes.behind (List.append_assoc _ _ _) (List.forall_mem_nil _), arises⟩
      | ok one =>
          have passed := left.exists_valueIn_parts before
          cases after : right.valueIn frame with
          | error second =>
              simp only [valueIn, before, after] at failed
              cases failed
              obtain ⟨part, comes, arises⟩ := ihRight after
              exact ⟨part, comes.behind rfl passed, arises⟩
          | ok two =>
              simp only [valueIn, before, after] at failed
              cases applied : operator.apply one two with
              | ok value => simp [applied, RuntimeError.located] at failed
              | error fault =>
                  rw [applied, RuntimeError.located_error] at failed
                  cases failed
                  refine ⟨_, ⟨left.parts ++ right.parts, [], rfl, ?_⟩,
                    .binary before after applied⟩
                  exact List.forall_mem_append.mpr ⟨passed, right.exists_valueIn_parts after⟩

/-- The fault of several expressions is the one at which their evaluation ends. -/
theorem valuesIn_eq_error_iff (exprs : List Expr) (error : RuntimeError) :
    Expr.valuesIn frame exprs = .error error
      ↔ ∃ part, ComesTo frame (exprs.flatMap parts) part ∧ error.ArisesAt frame part := by
  have ends : ∀ {fault : RuntimeError}, Expr.valuesIn frame exprs = .error fault →
      ∃ part, ComesTo frame (exprs.flatMap parts) part ∧ fault.ArisesAt frame part := by
    intro fault failed
    obtain ⟨earlier, first, later, values, rfl, before, fails⟩ :=
      Expr.exists_of_valuesIn_error exprs failed
    obtain ⟨part, comes, arises⟩ := first.exists_end fails
    have passed := Expr.exists_valueIn_flatMap ((Expr.valuesIn_eq_ok_iff earlier values).mpr before)
    have split : (earlier ++ first :: later).flatMap parts
        = earlier.flatMap parts ++ first.parts ++ later.flatMap parts := by simp
    exact ⟨part, comes.behind split passed, arises⟩
  refine ⟨ends, ?_⟩
  rintro ⟨part, comes, arises⟩
  cases found : Expr.valuesIn frame exprs with
  | ok values =>
      obtain ⟨earlier, later, split, _⟩ := comes
      have member : part ∈ exprs.flatMap parts := by simp [split]
      obtain ⟨value, given⟩ := Expr.exists_valueIn_flatMap found part member
      rw [arises.valueIn_eq] at given
      cases given
  | error fault =>
      obtain ⟨other, comes', arises'⟩ := ends found
      obtain rfl := comes.unique arises.valueIn_eq comes' arises'.valueIn_eq
      exact congrArg Except.error
        (Except.error.inj (arises'.valueIn_eq.symm.trans arises.valueIn_eq))

/-- A division by zero arises where a divisor has come to a zero. -/
theorem exists_divisor {expr : Expr} {position : Position}
    (failed : expr.valueIn frame = .error (.divisionByZero position)) :
    ∃ id operator left right, ComesTo frame expr.parts (.binary id operator left right position)
      ∧ operator ∈ BinaryOperator.dividing
      ∧ ∃ divisor ∈ Number.zeros, right.valueIn frame = .ok divisor := by
  obtain ⟨part, comes, arises⟩ := expr.exists_end failed
  generalize same : RuntimeError.divisionByZero position = error at arises
  cases arises with
  | read unbound => cases same
  | @unary id operator operand place inner fault under refused =>
      obtain ⟨_, rfl⟩ := UnaryOperator.eq_minus_of_apply refused
      cases same
  | @binary id operator left right place first second fault before after refused =>
      cases fault with
      | overflow => cases same
      | divisionByZero =>
          cases same
          obtain ⟨divides, zero⟩ := BinaryOperator.zero_of_apply refused
          exact ⟨id, operator, left, right, comes, divides, second, zero, after⟩

/-- An overflow arises at an operator that has integers alone as its operands. -/
theorem exists_integers {expr : Expr} {position : Position}
    (failed : expr.valueIn frame = .error (.overflow position)) :
    (∃ id operator operand, ComesTo frame expr.parts (.unary id operator operand position)
        ∧ ∃ value, operand.valueIn frame = .ok (.integer value))
      ∨ ∃ id operator left right,
        ComesTo frame expr.parts (.binary id operator left right position)
        ∧ ∃ first second, left.valueIn frame = .ok (.integer first)
          ∧ right.valueIn frame = .ok (.integer second) := by
  obtain ⟨part, comes, arises⟩ := expr.exists_end failed
  generalize same : RuntimeError.overflow position = error at arises
  cases arises with
  | read unbound => cases same
  | @unary id operator operand place inner fault under refused =>
      obtain ⟨value, rfl⟩ := UnaryOperator.integer_of_apply refused
      cases fault with
      | divisionByZero => cases same
      | overflow =>
          cases same
          exact .inl ⟨id, operator, operand, comes, value, under⟩
  | @binary id operator left right place first second fault before after refused =>
      cases fault with
      | divisionByZero => cases same
      | overflow =>
          cases same
          obtain ⟨one, two, rfl, rfl⟩ := BinaryOperator.integers_of_apply refused
          exact .inr ⟨id, operator, left, right, comes, one, two, before, after⟩

/-- A value is a real if a constant of the expression is one, if a variable that it reads has one in
the frame, or if it divides with a fraction, and an integer otherwise. A division by zero is the
fault of a division whose divisor has come to a zero, and an overflow that of an operator whose
operands are integers. -/
theorem evaluate_promotes (expr : Expr) {below : List Frame} {machine : Machine}
    (stack : machine.stack = frame :: below) :
    match expr.evaluate machine with
    | .ok value _ => (value.dataType = .real ↔ ∃ part ∈ expr.parts, part.BringsReal frame)
      ∧ (value.dataType = .integer ↔ ∀ part ∈ expr.parts, ¬ part.BringsReal frame)
    | .error (.fault (.divisionByZero position)) _ =>
      ∃ id operator left right, ComesTo frame expr.parts (.binary id operator left right position)
        ∧ operator ∈ BinaryOperator.dividing
        ∧ ∃ divisor ∈ Number.zeros, right.valueIn frame = .ok divisor
    | .error (.fault (.overflow position)) _ =>
      (∃ id operator operand, ComesTo frame expr.parts (.unary id operator operand position)
          ∧ ∃ value, operand.valueIn frame = .ok (.integer value))
        ∨ ∃ id operator left right,
          ComesTo frame expr.parts (.binary id operator left right position)
          ∧ ∃ first second, left.valueIn frame = .ok (.integer first)
            ∧ right.valueIn frame = .ok (.integer second)
    | .error _ _ => True := by
  rw [Expr.evaluate_eq expr stack]
  cases found : expr.valueIn frame with
  | ok value =>
      have types := expr.dataType_iff found
      refine ⟨types, ?_⟩
      rw [Number.dataType_eq_integer_iff, types]
      simp only [not_exists, not_and]
  | error error =>
      cases error with
      | divisionByZero position => exact exists_divisor found
      | overflow position => exact exists_integers found
      | uninitialized name scope position => trivial
      | mismatch reason => trivial

/-- The quotient by the negative zero, in a variable that could have been declared as an integer. -/
theorem evaluate_promotes_negative :
    let frame := (Frame.ofScope "p").set "x" (.real (-0.0))
    let quotient : Expr :=
      .binary 3 .integerDivide (.number 1 (.integer 7)) (.read ⟨2, "x", ⟨1, 13⟩⟩) ⟨1, 9⟩
    (∃ after, quotient.evaluate ⟨[frame], []⟩ = .error (.fault (.divisionByZero ⟨1, 9⟩)) after)
      ∧ ∃ id operator left right,
        ComesTo frame quotient.parts (.binary id operator left right ⟨1, 9⟩)
        ∧ operator ∈ BinaryOperator.dividing
        ∧ ∃ divisor ∈ Number.zeros, right.valueIn frame = .ok divisor := by
  intro frame quotient
  have stack : Machine.stack ⟨[frame], []⟩ = [frame] := rfl
  have bound : frame.get? "x" = some (.real (-0.0)) := by
    rw [Frame.get?_set]
    rfl
  have failed : quotient.valueIn frame = .error (.divisionByZero ⟨1, 9⟩) := by
    simp only [quotient, valueIn, bound]
    decide +kernel
  have ended := Expr.evaluate_eq quotient stack
  rw [failed] at ended
  have promotes := evaluate_promotes quotient stack
  rw [ended] at promotes
  exact ⟨⟨_, ended⟩, promotes⟩

end Expr
end MiniPascal
