import Mathlib.Algebra.Order.Field.Power
import Mathlib.Algebra.Order.Ring.Rat
import Mathlib.Tactic.FieldSimp
import Mathlib.Tactic.LinearCombination
import Mathlib.Tactic.Positivity
import Mathlib.Tactic.Ring
import MiniPascal.Proofs.Number.Packing

/-! # Exact results

A quotient that binary64 can represent is what division yields, so a decimal that has a value of
binary64 is read as that value. -/
set_option autoImplicit false
namespace MiniPascal.Binary64

open Float.Model (UnpackedFloat Format totalExponent)
open Float.Model.UnpackedFloat

theorem log2_mul_two_pow {n : Nat} (nonzero : n ≠ 0) (shift : Nat) :
    (n * 2 ^ shift).log2 = n.log2 + shift := by
  have positive : 0 < 2 ^ shift := Nat.two_pow_pos shift
  have product : n * 2 ^ shift ≠ 0 := Nat.mul_ne_zero nonzero (Nat.ne_of_gt positive)
  refine (Nat.log2_eq_iff product).mpr ⟨?_, ?_⟩
  · rw [Nat.pow_add]
    exact Nat.mul_le_mul_right _ (Nat.log2_self_le nonzero)
  · have below : n < 2 ^ (n.log2 + 1) := Nat.lt_log2_self
    have same : n.log2 + shift + 1 = n.log2 + 1 + shift := by omega
    rw [same, Nat.pow_add]
    exact Nat.mul_lt_mul_of_pos_right below positive

/-! ## Rounding what needs none -/

theorem shiftRight_exact (shift : Nat) : ∀ mantissa : Nat,
    (ExtendedMantissa.mk (mantissa * 2 ^ shift) false false) >>> shift
      = ExtendedMantissa.mk mantissa false false := by
  change ∀ mantissa : Nat, shift.repeat ExtendedMantissa.shiftRightOne
    (ExtendedMantissa.mk (mantissa * 2 ^ shift) false false) = _
  induction shift with
  | zero => intro mantissa; simp [Nat.repeat]
  | succ shift ih =>
      intro mantissa
      have same : mantissa * 2 ^ (shift + 1) = mantissa * 2 * 2 ^ shift := by
        rw [Nat.pow_succ]
        ring
      rw [Nat.repeat, same, ih]
      simp [ExtendedMantissa.shiftRightOne]

theorem shiftToTargetExponent_exact {mantissa : Nat} {exponent : Int}
    (canonical : Canonical mantissa exponent) (shift : Nat) :
    shiftToTargetExponent Format.binary64 (mantissa * 2 ^ shift) (exponent - shift) .exact
      = (ExtendedMantissa.mk mantissa false false, exponent) := by
  have nonzero : mantissa ≠ 0 := Nat.ne_of_gt canonical.positive
  have total : totalExponent (mantissa * 2 ^ shift) (exponent - shift)
      = totalExponent mantissa exponent := by
    rw [totalExponent, totalExponent, log2_mul_two_pow nonzero]
    omega
  have amount : (exponent - (exponent - (shift : Int))).toNat = shift := by omega
  rw [shiftToTargetExponent, total, canonical.target, shiftToExponent, amount]
  have shifted := shiftRight_exact shift mantissa
  rw [ExtendedMantissa.ofMantissaAndAccuracy, shifted]
  exact Prod.ext rfl (by omega)

/-- A value in a finer form is rounded to its own form. -/
theorem roundWithAccuracy_exact {mantissa : Nat} {exponent : Int}
    (canonical : Canonical mantissa exponent) (sign : Sign) (shift : Nat) :
    roundWithAccuracy Format.binary64 sign (mantissa * 2 ^ shift) (exponent - shift) .exact
      = .finite sign mantissa exponent canonical.positive := by
  have nonzero : mantissa ≠ 0 := Nat.ne_of_gt canonical.positive
  have first := shiftToTargetExponent_exact canonical shift
  have second : shiftToTargetExponent Format.binary64
      (ExtendedMantissa.mk mantissa false false).roundedMantissa exponent .exact
        = (ExtendedMantissa.mk mantissa false false, exponent) := by
    have unshifted := shiftToTargetExponent_exact canonical 0
    rw [Nat.pow_zero, Nat.mul_one, Int.natCast_zero, Int.sub_zero] at unshifted
    exact unshifted
  unfold roundWithAccuracy
  rw [first]
  dsimp only
  rw [second]
  exact dif_neg nonzero

/-! ## Values as rational numbers -/

/-- The rational number `mantissa * 2 ^ exponent`. -/
def rational (mantissa : Nat) (exponent : Int) : ℚ :=
  mantissa * 2 ^ exponent

theorem rational_mul_two_pow (mantissa : Nat) (exponent : Int) (shift : Nat) :
    rational (mantissa * 2 ^ shift) (exponent - shift) = rational mantissa exponent := by
  unfold rational
  rw [zpow_sub₀ (by norm_num), zpow_natCast]
  push_cast
  field_simp

/-- The same number as a quotient of natural numbers. -/
theorem rational_eq_div (mantissa : Nat) (exponent : Int) :
    rational mantissa exponent = mantissa * 2 ^ exponent.toNat / 2 ^ (-exponent).toNat := by
  have parts : exponent = exponent.toNat - (-exponent).toNat := by omega
  unfold rational
  rw [mul_div_assoc, ← zpow_natCast, ← zpow_natCast, ← zpow_sub₀ (by norm_num), ← parts]

theorem le_rational {mantissa : Nat} (positive : 0 < mantissa) (exponent : Int) :
    (2 : ℚ) ^ (mantissa.log2 + exponent) ≤ rational mantissa exponent := by
  have nonzero : mantissa ≠ 0 := Nat.ne_of_gt positive
  have above : ((2 ^ mantissa.log2 : Nat) : ℚ) ≤ mantissa :=
    Nat.cast_le.mpr (Nat.log2_self_le nonzero)
  rw [rational, zpow_add₀ (by norm_num), zpow_natCast]
  push_cast at above
  exact mul_le_mul_of_nonneg_right above (by positivity)

theorem rational_lt (mantissa : Nat) (exponent : Int) :
    rational mantissa exponent < (2 : ℚ) ^ (mantissa.log2 + 1 + exponent) := by
  have below : (mantissa : ℚ) < ((2 ^ (mantissa.log2 + 1) : Nat) : ℚ) :=
    Nat.cast_lt.mpr Nat.lt_log2_self
  have split : (2 : ℚ) ^ ((mantissa.log2 : Int) + 1 + exponent)
      = ((2 ^ (mantissa.log2 + 1) : Nat) : ℚ) * 2 ^ exponent := by
    rw [zpow_add₀ (by norm_num)]
    push_cast
    norm_cast
  rw [rational, split]
  exact mul_lt_mul_of_pos_right below (by positivity)

theorem rational_pos {mantissa : Nat} (positive : 0 < mantissa) (exponent : Int) :
    0 < rational mantissa exponent := by
  have above : (0 : ℚ) < mantissa := Nat.cast_pos.mpr positive
  unfold rational
  positivity

/-! ## Division -/

/-- The quotient has no remainder on any grid that is fine enough. -/
theorem shifted_eq_mul {quotient dividend divisor : Nat} {exponent upper lower : Int}
    (exact : rational dividend upper = rational quotient exponent * rational divisor lower)
    {grid : Int} (within : grid ≤ upper - lower) (fine : grid ≤ exponent) :
    dividend * 2 ^ (upper - lower - grid).toNat
      = quotient * 2 ^ (exponent - grid).toNat * divisor := by
  obtain ⟨left, lefts⟩ := Int.eq_ofNat_of_zero_le (show 0 ≤ upper - lower - grid by omega)
  obtain ⟨right, rights⟩ := Int.eq_ofNat_of_zero_le (show 0 ≤ exponent - grid by omega)
  have uppers : upper = left + (lower + grid) := by omega
  have exponents : exponent = right + grid := by omega
  rw [lefts, rights, Int.toNat_natCast, Int.toNat_natCast]
  unfold rational at exact
  rw [uppers, exponents, zpow_add₀ (by norm_num), zpow_add₀ (by norm_num),
    zpow_add₀ (by norm_num), zpow_natCast, zpow_natCast] at exact
  have scale : (0 : ℚ) < 2 ^ lower * 2 ^ grid := by positivity
  have same : (dividend * 2 ^ left : ℚ) * (2 ^ lower * 2 ^ grid)
      = quotient * 2 ^ right * divisor * (2 ^ lower * 2 ^ grid) := by
    linear_combination exact
  have cancelled := mul_right_cancel₀ (ne_of_gt scale) same
  exact_mod_cast cancelled

/-- A quotient that has a value of binary64 is divided exactly. -/
theorem div_exact {quotient dividend divisor : Nat} {exponent upper lower : Int}
    (canonical : Canonical quotient exponent) (dividendPositive : 0 < dividend)
    (divisorPositive : 0 < divisor)
    (exact : rational dividend upper = rational quotient exponent * rational divisor lower) :
    UnpackedFloat.div Format.binary64 (.finite .positive dividend upper dividendPositive)
        (.finite .positive divisor lower divisorPositive)
      = .finite .positive quotient exponent canonical.positive := by
  have bound : (dividend.log2 : Int) + upper
      < quotient.log2 + 1 + exponent + (divisor.log2 + 1 + lower) := by
    have below := le_rational dividendPositive upper
    have first := rational_lt quotient exponent
    have second := rational_lt divisor lower
    have positive : (0 : ℚ) ≤ rational divisor lower := by unfold rational; positivity
    have product := mul_lt_mul'' first second (by unfold rational; positivity) positive
    rw [← zpow_add₀ (by norm_num), ← exact] at product
    exact (zpow_lt_zpow_iff_right₀ (by norm_num)).mp (lt_of_le_of_lt below product)
  have target : Format.binary64.targetExponent
      (totalExponent dividend upper - totalExponent divisor lower) ≤ exponent := by
    have own := canonical.target
    rw [targetExponent_eq, totalExponent] at own ⊢
    rw [totalExponent]
    omega
  have within := Int.min_le_left (upper - lower)
    (Format.binary64.targetExponent (totalExponent dividend upper - totalExponent divisor lower))
  have fine := (Int.min_le_right (upper - lower)
    (Format.binary64.targetExponent
      (totalExponent dividend upper - totalExponent divisor lower))).trans target
  unfold UnpackedFloat.div divCore
  dsimp only
  generalize min (upper - lower)
    (Format.binary64.targetExponent
      (totalExponent dividend upper - totalExponent divisor lower)) = grid at within fine
  have shifted := shifted_eq_mul exact within fine
  have grids : grid = exponent - (exponent - grid).toNat := by omega
  rw [Nat.shiftLeft_eq, shifted, Nat.mul_div_cancel _ divisorPositive,
    Nat.mul_mod_left]
  have rounded := roundWithAccuracy_exact canonical .positive (exponent - grid).toNat
  rw [← grids] at rounded
  exact rounded

/-! ## Natural numbers and powers of ten -/

/-- The value is finite, positive and equal to the rational number. -/
def Equals (value : Float) (number : ℚ) : Prop :=
  ∃ mantissa exponent, ∃ canonical : Canonical mantissa exponent,
    value.toModel.unpack = .finite .positive mantissa exponent canonical.positive
      ∧ rational mantissa exponent = number

theorem canonical_of_short {n : Nat} (positive : 0 < n) (short : n < 2 ^ 53) :
    Canonical (n * 2 ^ (52 - n.log2)) ((n.log2 : Int) - 52) := by
  have nonzero : n ≠ 0 := Nat.ne_of_gt positive
  have below : n.log2 < 53 := (Nat.log2_lt nonzero).mpr short
  have product : 0 < n * 2 ^ (52 - n.log2) := Nat.mul_pos positive (Nat.two_pow_pos _)
  have log := log2_mul_two_pow nonzero (52 - n.log2)
  have full : (n * 2 ^ (52 - n.log2)).log2 = 52 := by omega
  obtain ⟨least, most⟩ := (Nat.log2_eq_iff (Nat.ne_of_gt product)).mp full
  exact ⟨product, most, by omega, by omega, Or.inl least⟩

/-- Natural numbers of at most 53 bits are values of binary64. -/
theorem equals_toFloat {n : Nat} (positive : 0 < n) (short : n < 2 ^ 53) :
    Equals n.toUInt64.toFloat n := by
  have nonzero : n ≠ 0 := Nat.ne_of_gt positive
  have below : n.log2 < 53 := (Nat.log2_lt nonzero).mpr short
  have canonical := canonical_of_short positive short
  refine ⟨_, _, canonical, ?_, ?_⟩
  · have word : n.toUInt64.toNat = n := by
      rw [Nat.toUInt64, UInt64.toNat_ofNat']
      exact Nat.mod_eq_of_lt (by omega)
    have rounded : round Format.binary64 .positive n 0
        = .finite .positive (n * 2 ^ (52 - n.log2)) (n.log2 - 52) canonical.positive := by
      have target : Format.binary64.targetExponent (totalExponent n 0) = (n.log2 : Int) - 52 := by
        rw [targetExponent_eq, totalExponent]
        omega
      have amount : (0 - ((n.log2 : Int) - 52)).toNat = 52 - n.log2 := by omega
      have left : (0 : Int) - (52 - n.log2 : Nat) = (n.log2 : Int) - 52 := by omega
      have exact := roundWithAccuracy_exact canonical .positive 0
      rw [Nat.pow_zero, Nat.mul_one, Int.natCast_zero, Int.sub_zero] at exact
      rw [UnpackedFloat.round, target, decreaseExponent, amount, Nat.shiftLeft_eq]
      dsimp only
      rw [left]
      exact exact
    have converted : UnpackedFloat.ofUInt64 Format.binary64 n.toUInt64
        = .finite .positive (n * 2 ^ (52 - n.log2)) (n.log2 - 52) canonical.positive := by
      have greater : compare (n : Int) 0 = .gt := Int.compare_eq_gt.mpr (by omega)
      rw [UnpackedFloat.ofUInt64, UnpackedFloat.ofNat, UnpackedFloat.ofInt,
        UnpackedFloat.normalize, word, greater]
      exact rounded
    change (Float.Model.pack (UnpackedFloat.ofUInt64 Format.binary64 n.toUInt64)).unpack = _
    rw [converted, unpack_pack canonical]
  · have shifts : ((n.log2 : Int) - 52) = 0 - (52 - n.log2 : Nat) := by omega
    rw [shifts, rational_mul_two_pow, rational, zpow_zero, mul_one]

/-- Whether a value is the natural number, computed from its parts. -/
def isNatural (value : Float) (n : Nat) : Bool :=
  match value.toModel.unpack with
  | .finite .positive mantissa exponent _ =>
    mantissa * 2 ^ exponent.toNat == n * 2 ^ (-exponent).toNat
  | _ => false

theorem equals_of_isNatural {value : Float} {n : Nat} (holds : isNatural value n = true) :
    Equals value n := by
  unfold isNatural at holds
  split at holds
  · rename_i mantissa exponent positive unpacked
    refine ⟨mantissa, exponent, canonical_of_unpack unpacked, unpacked, ?_⟩
    have same : ((mantissa * 2 ^ exponent.toNat : Nat) : ℚ) = (n * 2 ^ (-exponent).toNat : Nat) :=
      congrArg Nat.cast (eq_of_beq holds)
    push_cast at same
    rw [rational_eq_div, same, mul_div_assoc, div_self (by positivity), mul_one]
  · cases holds

theorem equals_powerOfTen {e : Nat} (small : e < Float.exactlyRepresentablePowersOfTen.size) :
    Equals Float.exactlyRepresentablePowersOfTen[e] (10 ^ e : Nat) := by
  have all : ∀ (e : Nat) (small : e < Float.exactlyRepresentablePowersOfTen.size),
      isNatural Float.exactlyRepresentablePowersOfTen[e] (10 ^ e) = true := by
    decide +kernel
  exact equals_of_isNatural (all e small)

/-! ## Decimals -/

/-- A value is what its parts are packed to. -/
theorem eq_pack {value : Float} {unpacked : UnpackedFloat}
    (parts : value.toModel.unpack = unpacked) :
    value = Float.ofModel (Float.Model.pack unpacked) := by
  rw [← parts, pack_unpack]

theorem Equals.div_eq {left right value : Float} {dividend divisor : ℚ}
    (lefts : Equals left dividend) (rights : Equals right divisor)
    (values : Equals value (dividend / divisor)) : left / right = value := by
  obtain ⟨_, _, leftCanonical, leftParts, rfl⟩ := lefts
  obtain ⟨mantissa, exponent, rightCanonical, rightParts, rfl⟩ := rights
  obtain ⟨_, _, canonical, parts, same⟩ := values
  have nonzero : rational mantissa exponent ≠ 0 :=
    ne_of_gt (rational_pos rightCanonical.positive exponent)
  rw [eq_pack parts]
  change Float.ofModel (Float.Model.pack (UnpackedFloat.div Format.binary64
    left.toModel.unpack right.toModel.unpack)) = _
  rw [leftParts, rightParts, div_exact canonical leftCanonical.positive rightCanonical.positive]
  rw [same, div_mul_cancel₀ _ nonzero]

/-- So small a decimal that it could be taken for zero has no value but zero. -/
theorem places_le {mantissa digits places : Nat} {exponent : Int}
    (canonical : Canonical mantissa exponent)
    (same : rational mantissa exponent = digits / (10 ^ places : Nat)) :
    places ≤ 2048 + digits.log2 := by
  have least : (2 : ℚ) ^ (-1074 : Int) ≤ rational mantissa exponent := by
    refine le_trans ?_ (le_rational canonical.positive exponent)
    have small := canonical.least
    exact zpow_le_zpow_right₀ (by norm_num) (by omega)
  have most : (digits : ℚ) < 2 ^ ((digits.log2 : Int) + 1 + 0) := by
    have below := rational_lt digits 0
    rwa [rational, zpow_zero, mul_one] at below
  have power : (2 : ℚ) ^ ((3 * places : Nat) : Int) ≤ (10 ^ places : Nat) := by
    have cubes : (2 : Nat) ^ (3 * places) ≤ 10 ^ places := by
      rw [Nat.pow_mul]
      exact Nat.pow_le_pow_left (by norm_num) places
    rw [zpow_natCast]
    exact_mod_cast cubes
  have positive : (0 : ℚ) < (10 ^ places : Nat) := by positivity
  rw [same, le_div_iff₀ positive] at least
  have bound : (2 : ℚ) ^ (-1074 + ((3 * places : Nat) : Int))
      < 2 ^ ((digits.log2 : Int) + 1 + 0) := by
    rw [zpow_add₀ (by norm_num)]
    refine lt_of_le_of_lt (le_trans ?_ least) most
    exact mul_le_mul_of_nonneg_left power (by positivity)
  have exponents := (zpow_lt_zpow_iff_right₀ (by norm_num)).mp bound
  push_cast at exponents
  omega

/-- A decimal is read as the value that it has. -/
theorem ofScientific_exact {value : Float} {digits places : Nat} (some : 0 < places)
    (equals : Equals value (digits / (10 ^ places : Nat))) :
    Float.ofScientific digits true places = value := by
  obtain ⟨mantissa, exponent, canonical, parts, same⟩ := equals
  have positive : 0 < digits := by
    refine Nat.pos_of_ne_zero fun none => ?_
    have above := rational_pos canonical.positive exponent
    rw [same, none, Nat.cast_zero, zero_div] at above
    exact absurd above (lt_irrefl 0)
  unfold Float.ofScientific
  by_cases fast : digits < 2 ^ 53 ∧ places ≤ 22
  · rw [dif_pos fast]
    simp only [if_true]
    exact (equals_toFloat positive fast.1).div_eq (equals_powerOfTen _)
      ⟨mantissa, exponent, canonical, parts, same⟩
  · rw [dif_neg fast, eq_pack parts]
    have within := places_le canonical same
    have negative : Int.negOfNat places = -(places : Int) := Int.negOfNat_eq
    have scale : (- -(places : Int)).toNat = places := by rw [neg_neg, Int.toNat_natCast]
    have exact : rational digits 0
        = rational mantissa exponent * rational (10 ^ (- -(places : Int)).toNat) 0 := by
      rw [scale, same]
      simp only [rational, zpow_zero, mul_one]
      rw [div_mul_cancel₀]
      positivity
    have read : UnpackedFloat.ofScientific Format.binary64 digits (-(places : Int))
        = .finite .positive mantissa exponent canonical.positive := by
      have large : (2 : Int) ^ Format.binary64.exponentBits = 2048 := rfl
      unfold UnpackedFloat.ofScientific
      rw [large, dif_neg (by omega), if_neg (by omega), if_neg (by omega), if_neg (by omega)]
      exact div_exact canonical positive (Nat.pow_pos (by norm_num)) exact
    rw [if_pos rfl, negative]
    exact congrArg Float.ofModel (congrArg Float.Model.pack read)

end MiniPascal.Binary64
