import MiniPascal.Number.Literal
import MiniPascal.Source.Alphabet
import MiniPascal.Proofs.Number.Exactness

/-! # Constants as text

The numbers that literals stand for have no minus sign. An integer of them is written as a literal
that reads back. A real is written as a literal that reads back exactly if there is a dot in its
text: integral values from the limit on and infinity have none. -/
set_option autoImplicit false
namespace MiniPascal

namespace Binary64

open Float.Model (UnpackedFloat Format)
open Float.Model.UnpackedFloat

/-! ## The sign of what is read -/

/-- Nothing but a positive sign, if any. -/
def Positive : UnpackedFloat → Prop
  | .finite sign _ _ _ => sign = .positive
  | .infinity sign => sign = .positive
  | .zero sign => sign = .positive
  | .notANumber => True

section

variable {p : Prop} [Decidable p]

theorem Positive.ite {yes no : UnpackedFloat} (first : Positive yes) (second : Positive no) :
    Positive (if p then yes else no) := by
  split <;> assumption

theorem Positive.dite {yes : p → UnpackedFloat} {no : ¬p → UnpackedFloat}
    (first : ∀ holds, Positive (yes holds)) (second : ∀ fails, Positive (no fails)) :
    Positive (if h : p then yes h else no h) := by
  split
  · exact first _
  · exact second _

end

theorem positive_round (format : Format) (mantissa : Nat) (exponent : Int) (accuracy : Accuracy) :
    Positive (roundWithAccuracy format .positive mantissa exponent accuracy) := by
  unfold roundWithAccuracy
  exact .dite (fun _ => rfl) fun _ => rfl

theorem positive_mul {left right : UnpackedFloat} (lefts : Positive left)
    (rights : Positive right) : Positive (UnpackedFloat.mul Format.binary64 left right) := by
  cases left <;> cases right <;> first
    | trivial
    | subst lefts rights; first | rfl | exact positive_round _ _ _ _

theorem positive_div {left right : UnpackedFloat} (lefts : Positive left)
    (rights : Positive right) : Positive (UnpackedFloat.div Format.binary64 left right) := by
  cases left <;> cases right <;> first
    | trivial
    | subst lefts rights; first | rfl | exact positive_round _ _ _ _

theorem positive_ofComponents (biased : BitVec 11) (stored : BitVec 52) :
    Positive (ofComponents .positive biased stored) := by
  unfold ofComponents
  exact .ite (.ite rfl trivial) (.ite (.dite (fun _ => rfl) fun _ => rfl) rfl)

/-- Packing keeps a positive sign. -/
theorem positive_pack {value : UnpackedFloat} (positive : Positive value) :
    Positive (Float.Model.pack value).unpack := by
  have parts : ∃ (biased : BitVec 11) (stored : BitVec 52),
      UnpackedFloat.pack Format.binary64 value
        = packComponents Format.binary64 .positive biased stored := by
    cases value with
    | notANumber => exact ⟨_, _, rfl⟩
    | infinity sign => subst positive; exact ⟨_, _, rfl⟩
    | zero sign => subst positive; exact ⟨_, _, rfl⟩
    | finite sign mantissa exponent above =>
        subst positive
        unfold UnpackedFloat.pack
        dsimp only
        split
        · exact ⟨_, _, rfl⟩
        · split <;> exact ⟨_, _, rfl⟩
  obtain ⟨biased, stored, same⟩ := parts
  change Positive (unpack Format.binary64 (UnpackedFloat.pack Format.binary64 value))
  rw [same, unpack_packComponents]
  exact positive_ofComponents biased stored

theorem positive_toFloat (word : UInt64) : Positive word.toFloat.toModel.unpack := by
  refine positive_pack ?_
  rw [UnpackedFloat.ofUInt64, UnpackedFloat.ofNat, UnpackedFloat.ofInt, UnpackedFloat.normalize]
  split
  · rename_i negative
    rw [Int.compare_eq_lt] at negative
    omega
  · rfl
  · exact positive_round _ _ _ _

theorem positive_powerOfTen {e : Nat} (small : e < Float.exactlyRepresentablePowersOfTen.size) :
    Positive Float.exactlyRepresentablePowersOfTen[e].toModel.unpack := by
  obtain ⟨_, _, _, parts, _⟩ := equals_powerOfTen small
  rw [parts]
  rfl

theorem positive_model (digits : Nat) (exponent : Int) :
    Positive (UnpackedFloat.ofScientific Format.binary64 digits exponent) := by
  unfold UnpackedFloat.ofScientific
  refine .dite (fun _ => rfl) fun _ => .ite rfl (.ite rfl (.ite ?_ ?_))
  · exact positive_round _ _ _ _
  · exact positive_round _ _ _ _

/-- No decimal is read as a value with a minus sign. -/
theorem positive_ofScientific (digits : Nat) (negative : Bool) (places : Nat) :
    Positive (Float.ofScientific digits negative places).toModel.unpack := by
  unfold Float.ofScientific
  split
  · rename_i fast
    have power := positive_powerOfTen (show places < Float.exactlyRepresentablePowersOfTen.size by
      have size : Float.exactlyRepresentablePowersOfTen.size = 23 := rfl
      omega)
    split
    · exact positive_pack (positive_div (positive_toFloat _) power)
    · exact positive_pack (positive_mul (positive_toFloat _) power)
  · exact positive_pack (positive_model digits _)

end Binary64

/-! ## Digits -/

/-- A row of digits that is not empty. -/
def Digits (text : List Char) : Prop :=
  text ≠ [] ∧ ∀ c ∈ text, Alphabet.isDigit c = true

namespace Digits

theorem toDigits (n : Nat) : Digits (Nat.toDigits 10 n) :=
  ⟨Nat.toDigits_ne_nil, fun _ member => Nat.isDigit_of_mem_toDigits (by decide) (by decide) member⟩

theorem zero : Digits ['0'] :=
  ⟨List.cons_ne_nil _ _, List.forall_mem_singleton.mpr rfl⟩

theorem zeros (count : Nat) : ∀ c ∈ List.replicate count '0', Alphabet.isDigit c = true := by
  intro c member
  rw [(List.mem_replicate.mp member).2]
  rfl

theorem append {left right : List Char} (digits : Digits left)
    (others : ∀ c ∈ right, Alphabet.isDigit c = true) : Digits (left ++ right) :=
  ⟨List.append_ne_nil_of_left_ne_nil digits.1 right, List.forall_mem_append.mpr ⟨digits.2, others⟩⟩

theorem dot_not_mem {text : List Char} (digits : Digits text) : '.' ∉ text :=
  fun member => absurd (digits.2 '.' member) (by decide)

end Digits

namespace Number

theorem digitsValue_toDigits (n : Nat) : digitsValue (Nat.toDigits 10 n) = n :=
  Nat.ofDigitChars_ten_toDigits

theorem digitsValue_zeros (count : Nat) (text : List Char) :
    digitsValue (List.replicate count '0' ++ text) = digitsValue text := by
  have none : (List.replicate count '0').foldl
      (fun value digit => 10 * value + (digit.toNat - '0'.toNat)) 0 = 0 := by
    induction count with
    | zero => rfl
    | succ count ih => rw [List.replicate_succ, List.foldl_cons]; exact ih
  rw [digitsValue, List.foldl_append, none]
  rfl

/-- A text of digits, a dot and digits stands for a decimal with as many places. -/
theorem ofRealLiteral_of_split {text : String} {whole fraction : List Char}
    (split : text.toList = whole ++ '.' :: fraction) (digits : Digits whole) :
    ofRealLiteral text
      = .real (Decimal.toFloat ⟨digitsValue (whole ++ fraction), -(fraction.length : Int)⟩) := by
  have others : ∀ c ∈ whole, (c != '.') = true := by
    intro c member
    exact bne_iff_ne.mpr fun same => digits.dot_not_mem (same ▸ member)
  have before : text.toList.takeWhile (· != '.') = whole := by
    rw [split, List.takeWhile_append_of_pos others]
    simp
  have behind : text.toList.dropWhile (· != '.') = '.' :: fraction := by
    rw [split, List.dropWhile_append_of_pos others]
    simp
  rw [ofRealLiteral, before, behind, List.tail_cons]

/-- The text is a real literal for the value. -/
def ReadsAs (text : String) (value : Float) : Prop :=
  ∃ whole fraction, text.toList = whole ++ '.' :: fraction ∧ Digits whole ∧ Digits fraction
    ∧ ofRealLiteral text = .real value

theorem readsAs_of_split (text : String) {whole fraction : List Char}
    (split : text.toList = whole ++ '.' :: fraction) (digits : Digits whole)
    (others : Digits fraction) :
    ReadsAs text (Float.ofScientific (digitsValue (whole ++ fraction)) true fraction.length) := by
  refine ⟨whole, fraction, split, digits, others, ?_⟩
  have some : 0 < fraction.length := List.length_pos_of_ne_nil others.1
  have negative : -(fraction.length : Int) < 0 := by omega
  rw [ofRealLiteral_of_split split digits, Decimal.toFloat, decide_eq_true negative,
    Int.natAbs_neg, Int.natAbs_natCast]

end Number

namespace Decimal

open Number

theorem toList_positional_of_nonneg {decimal : Decimal} (whole : 0 ≤ decimal.exponent) :
    Digits decimal.positional.toList := by
  rw [positional, if_pos whole, zeros, String.toList_append, String.toList_ofList,
    String.toList_ofList]
  exact (Digits.toDigits _).append (Digits.zeros _)

/-- With places behind the dot a decimal is written as a literal for its own value. -/
theorem readsAs_positional {decimal : Decimal} (negative : decimal.exponent < 0) :
    ReadsAs decimal.positional decimal.toFloat := by
  have own := Digits.toDigits decimal.digits
  have value := digitsValue_toDigits decimal.digits
  have places : 0 < decimal.exponent.natAbs := by omega
  rw [toFloat, decide_eq_true negative]
  unfold positional
  rw [if_neg (by omega)]
  simp only []
  generalize Nat.toDigits 10 decimal.digits = text at own value
  generalize decimal.exponent.natAbs = count at places
  by_cases short : count < text.length
  · rw [if_pos short]
    have all : Digits (text.take (text.length - count))
        ∧ Digits (text.drop (text.length - count)) := by
      refine ⟨⟨?_, fun c member => own.2 c (List.mem_of_mem_take member)⟩,
        ⟨?_, fun c member => own.2 c (List.mem_of_mem_drop member)⟩⟩
      · exact List.ne_nil_of_length_pos (by rw [List.length_take]; omega)
      · exact List.ne_nil_of_length_pos (by rw [List.length_drop]; omega)
    have length : (text.drop (text.length - count)).length = count := by
      rw [List.length_drop]
      omega
    have read := readsAs_of_split (String.ofList (text.take (text.length - count)) ++ "."
      ++ String.ofList (text.drop (text.length - count))) (by simp) all.1 all.2
    rwa [List.take_append_drop, value, length] at read
  · rw [if_neg short]
    have fraction : Digits (List.replicate (count - text.length) '0' ++ text) :=
      ⟨List.append_ne_nil_of_right_ne_nil _ own.1,
        List.forall_mem_append.mpr ⟨Digits.zeros _, own.2⟩⟩
    have length : (List.replicate (count - text.length) '0' ++ text).length = count := by
      rw [List.length_append, List.length_replicate]
      omega
    have read := readsAs_of_split ("0." ++ zeros (count - text.length)
      ++ String.ofList text) (by simp [zeros]) .zero fraction
    have leading : ['0'] ++ (List.replicate (count - text.length) '0' ++ text)
        = List.replicate (count - text.length + 1) '0' ++ text := rfl
    rwa [leading, digitsValue_zeros, value, length] at read

theorem toFloat_of_onGrid? {value : Float} {numerator denominator : Nat} {exponent : Int}
    {decimal : Decimal} (found : onGrid? value numerator denominator exponent = some decimal) :
    decimal.toFloat = value := by
  unfold onGrid? at found
  simp only [] at found
  split at found
  · rename_i lower
    split at found
    · rename_i upper
      injection found with same
      exact same ▸ upper.1
    · injection found with same
      exact same ▸ lower
  · split at found
    · rename_i upper
      injection found with same
      exact same ▸ upper
    · cases found

/-- The exact decimal of a value with a fraction is read as the value. -/
theorem toFloat_exact {value : Float} {mantissa : Nat} {exponent : Int}
    (canonical : Binary64.Canonical mantissa exponent)
    (parts : value.toModel.unpack = .finite .positive mantissa exponent canonical.positive)
    (fraction : exponent < 0) : (Decimal.exact mantissa exponent).toFloat = value := by
  have whole : exponent.toNat = 0 := by omega
  have places : exponent.natAbs = (-exponent).toNat := by omega
  rw [Decimal.exact, if_neg (by omega), toFloat, decide_eq_true fraction, places]
  refine Binary64.ofScientific_exact (by omega) ⟨mantissa, exponent, canonical, parts, ?_⟩
  rw [Binary64.rational_eq_div, whole, pow_zero, mul_one]
  generalize (-exponent).toNat = count
  have ten : (10 : ℚ) ^ count = 2 ^ count * 5 ^ count := by
    rw [← mul_pow]
    norm_num
  push_cast [Nat.pow_eq]
  rw [ten, mul_div_mul_right _ _ (by positivity)]

/-- Behind the dot the shortest decimal is read as the value. -/
theorem toFloat_shortest {value : Float} {mantissa : Nat} {exponent : Int}
    (canonical : Binary64.Canonical mantissa exponent)
    (parts : value.toModel.unpack = .finite .positive mantissa exponent canonical.positive)
    (fraction : (shortest value mantissa exponent).exponent < 0) :
    (shortest value mantissa exponent).toFloat = value := by
  unfold shortest at fraction ⊢
  simp only [] at fraction ⊢
  cases found : (List.range 18).findSome? fun (digits : Nat) =>
      onGrid? value (Binary64.quotient mantissa exponent).1 (Binary64.quotient mantissa exponent).2
        (scale (Binary64.quotient mantissa exponent).1 (Binary64.quotient mantissa exponent).2
          - digits) with
  | some decimal =>
      rw [Option.getD_some]
      obtain ⟨digits, _, grid⟩ := List.exists_of_findSome?_eq_some found
      exact toFloat_of_onGrid? grid
  | none =>
      rw [found, Option.getD_none] at fraction
      rw [Option.getD_none]
      refine toFloat_exact canonical parts ?_
      by_cases whole : 0 ≤ exponent
      · rw [Decimal.exact, if_pos whole] at fraction
        exact absurd fraction (lt_irrefl 0)
      · omega

end Decimal

namespace Binary64

open Number

theorem abs_eq {value : Float} (positive : Positive value.toModel.unpack) : value.abs = value := by
  have same : value.toModel.unpack.abs = value.toModel.unpack := by
    revert positive
    cases value.toModel.unpack <;> intro positive <;> first | rfl | (subst positive; rfl)
  change Float.ofModel (Float.Model.pack value.toModel.unpack.abs) = value
  rw [same]
  exact (eq_pack rfl).symm

/-- An integral value below the limit has one zero behind the dot. -/
theorem readsAs_integral {value : Float} {mantissa : Nat} {exponent : Int}
    (canonical : Canonical mantissa exponent)
    (parts : value.toModel.unpack = .finite .positive mantissa exponent canonical.positive)
    (whole : (quotient mantissa exponent).1 % (quotient mantissa exponent).2 = 0) :
    ReadsAs (((quotient mantissa exponent).1 / (quotient mantissa exponent).2).repr ++ ".0")
      value := by
  have division := Nat.mod_add_div (quotient mantissa exponent).1 (quotient mantissa exponent).2
  have same : rational mantissa exponent
      = (quotient mantissa exponent).1 / (quotient mantissa exponent).2 := by
    rw [rational_eq_div, quotient]
    push_cast [Nat.pow_eq]
    rfl
  have positive : 0 < (quotient mantissa exponent).2 := Nat.two_pow_pos _
  generalize (quotient mantissa exponent).1 = numerator at whole division same ⊢
  generalize (quotient mantissa exponent).2 = denominator at whole division same positive ⊢
  rw [whole, Nat.zero_add] at division
  generalize numerator / denominator = n at division ⊢
  have split : (n.repr ++ ".0").toList = Nat.toDigits 10 n ++ '.' :: ['0'] := by
    simp [Nat.toList_repr]
  have read := readsAs_of_split (n.repr ++ ".0") split (Digits.toDigits n) .zero
  have digits : digitsValue (Nat.toDigits 10 n ++ ['0']) = 10 * n := by
    have own := digitsValue_toDigits n
    rw [digitsValue] at own ⊢
    rw [List.foldl_append, own]
    rfl
  have scientific : Float.ofScientific (10 * n) true 1 = value := by
    refine ofScientific_exact (by omega) ⟨mantissa, exponent, canonical, parts, ?_⟩
    have divisor : (denominator : ℚ) ≠ 0 := Nat.cast_ne_zero.mpr (Nat.ne_of_gt positive)
    rw [same, ← division]
    push_cast
    field_simp
  rw [digits] at read
  exact scientific ▸ read

/-- A real without a minus sign is written as a literal for itself, or as a text without a dot. -/
theorem shown_cases {value : Float} (positive : Positive value.toModel.unpack) :
    ReadsAs (shown value) value ∨ ('.' ∉ (shown value).toList
      ∧ (Digits (shown value).toList ∨ shown value = "inf" ∨ shown value = "NaN")) := by
  have magnitude := abs_eq positive
  unfold shown
  cases parts : value.toModel.unpack with
  | notANumber =>
      have none : '.' ∉ "NaN".toList := by decide
      exact Or.inr ⟨none, Or.inr (Or.inr rfl)⟩
  | infinity sign =>
      rw [parts] at positive
      subst positive
      have none : '.' ∉ "inf".toList := by decide
      exact Or.inr ⟨none, Or.inr (Or.inl rfl)⟩
  | zero sign =>
      rw [parts] at positive
      subst positive
      have read := readsAs_of_split "0.0" rfl .zero .zero
      rw [eq_pack parts]
      exact Or.inl read
  | finite sign mantissa exponent above =>
      rw [parts] at positive
      subst positive
      have canonical := canonical_of_unpack parts
      simp only [magnitude, signText, String.empty_append, magnitudeText]
      split
      · rename_i integral
        exact Or.inl (readsAs_integral canonical parts integral.1)
      · by_cases fraction : (Decimal.shortest value mantissa exponent).exponent < 0
        · have read := Decimal.readsAs_positional fraction
          rw [Decimal.toFloat_shortest canonical parts fraction] at read
          exact Or.inl read
        · have digits := Decimal.toList_positional_of_nonneg (not_lt.mp fraction)
          exact Or.inr ⟨digits.dot_not_mem, Or.inl digits⟩

end Binary64

/-! ## What literals stand for -/

namespace Number

/-- A number that a literal of a program stands for. -/
inductive IsLiteral : Number → Prop where
  | integer {n : Nat} : n ≤ 9223372036854775807 → IsLiteral (.integer (Int64.ofNat n))
  | real {text : String} : IsLiteral (ofRealLiteral text)

theorem IsLiteral.positive {value : Float} (literal : IsLiteral (.real value)) :
    Binary64.Positive value.toModel.unpack := by
  generalize same : Number.real value = number at literal
  cases literal with
  | integer small => cases same
  | real =>
      injection same with same
      subst same
      exact Binary64.positive_ofScientific _ _ _

/-- An integer is written as a literal for itself. -/
theorem IsLiteral.shown_integer {value : Int64} (literal : IsLiteral (.integer value)) :
    Digits (Number.integer value).shown.toList
      ∧ digitsValue (Number.integer value).shown.toList ≤ 9223372036854775807
      ∧ Int64.ofNat (digitsValue (Number.integer value).shown.toList) = value := by
  generalize same : Number.integer value = number at literal
  cases literal with
  | @integer n small =>
      have exact : (Int64.ofNat n).toInt = n := Int64.toInt_ofNat_of_lt (by omega)
      have text : (Number.integer (Int64.ofNat n)).shown.toList = Nat.toDigits 10 n := by
        rw [shown, exact]
        exact Nat.toList_repr
      injection same with same
      rw [text, digitsValue_toDigits]
      exact ⟨Digits.toDigits n, small, same.symm⟩
  | real => cases same

end Number
end MiniPascal
