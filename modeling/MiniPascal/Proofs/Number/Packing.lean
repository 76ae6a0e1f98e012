import Mathlib.Algebra.Order.Ring.Nat
import MiniPascal.Number.Decimal

/-! # Packed and unpacked values

A finite value of binary64 has exactly one mantissa and exponent, and these are what unpacking
yields. Packing undoes unpacking for every value, and unpacking undoes packing for every mantissa
and exponent of this form. -/
set_option autoImplicit false
namespace MiniPascal.Binary64

open Float.Model (UnpackedFloat Format totalExponent)
open Float.Model.UnpackedFloat

/-- The mantissa and the exponent are those that binary64 has for their value. -/
structure Canonical (mantissa : Nat) (exponent : Int) : Prop where
  positive : 0 < mantissa
  short : mantissa < 2 ^ 53
  least : -1074 ≤ exponent
  greatest : exponent ≤ 971
  full : 2 ^ 52 ≤ mantissa ∨ exponent = -1074

namespace Canonical

variable {mantissa : Nat} {exponent : Int}

theorem log2_le (canonical : Canonical mantissa exponent) : mantissa.log2 ≤ 52 := by
  have nonzero : mantissa ≠ 0 := Nat.ne_of_gt canonical.positive
  have below := (Nat.log2_lt nonzero).mpr canonical.short
  omega

theorem log2_eq_or (canonical : Canonical mantissa exponent) :
    mantissa.log2 = 52 ∨ exponent = -1074 := by
  have nonzero : mantissa ≠ 0 := Nat.ne_of_gt canonical.positive
  have below := canonical.log2_le
  rcases canonical.full with full | least
  · have above := (Nat.le_log2 nonzero).mpr full
    omega
  · exact Or.inr least

end Canonical

theorem targetExponent_eq (total : Int) :
    Format.binary64.targetExponent total = max (total - 53) (-1074) := by
  rfl

theorem Canonical.target {mantissa : Nat} {exponent : Int}
    (canonical : Canonical mantissa exponent) :
    Format.binary64.targetExponent (totalExponent mantissa exponent) = exponent := by
  have short := canonical.log2_le
  have least := canonical.least
  rw [targetExponent_eq, totalExponent]
  rcases canonical.log2_eq_or with full | smallest <;> omega

/-! ## The parts of a packed value -/

theorem unpackSign_packComponents {sign : Sign} {biased : BitVec Format.binary64.exponentBits}
    {stored : BitVec Format.binary64.mantissaBitsWithoutImplicit} :
    unpackSign (packComponents Format.binary64 sign biased stored) = sign.toBitVec := by
  change BitVec.extractLsb' 63 1 (sign.toBitVec ++ biased ++ stored) = sign.toBitVec
  rw [BitVec.extractLsb'_append_eq_of_le (by decide)]
  exact BitVec.extractLsb'_append_eq_left

theorem ofBitVec_toBitVec (sign : Sign) : Sign.ofBitVec sign.toBitVec = sign := by
  cases sign <;> rfl

theorem toBitVec_ofBitVec (bit : BitVec 1) : (Sign.ofBitVec bit).toBitVec = bit := by
  revert bit
  decide

/-- A packed value is made of its parts. -/
theorem exists_components (bits : BitVec Format.binary64.numBits) :
    ∃ (sign : Sign) (biased : BitVec 11) (stored : BitVec 52),
      bits = packComponents Format.binary64 sign biased stored := by
  refine ⟨Sign.ofBitVec (unpackSign bits), unpackExponent bits, unpackMantissa bits, ?_⟩
  rw [packComponents, toBitVec_ofBitVec]
  change bits = BitVec.extractLsb' 63 1 bits ++ BitVec.extractLsb' 52 11 bits
    ++ BitVec.extractLsb' 0 52 bits
  have upper : BitVec.extractLsb' 63 1 bits ++ BitVec.extractLsb' 52 11 bits
      = BitVec.extractLsb' 52 12 bits := BitVec.extractLsb'_append_extractLsb'_eq_extractLsb' rfl
  have whole : BitVec.extractLsb' 52 12 bits ++ BitVec.extractLsb' 0 52 bits
      = BitVec.extractLsb' 0 64 bits := BitVec.extractLsb'_append_extractLsb'_eq_extractLsb' rfl
  rw [upper, whole]
  exact BitVec.extractLsb'_eq_self.symm

theorem toNat_implicit (stored : BitVec 52) : (1#1 ++ stored).toNat = 2 ^ 52 + stored.toNat := by
  rw [BitVec.toNat_append, ← Nat.shiftLeft_add_eq_or_of_lt stored.isLt]
  rfl

theorem finite_congr (sign : Sign) {mantissa other : Nat} {exponent further : Int}
    {positive : 0 < mantissa} {above : 0 < other} (mantissas : mantissa = other)
    (exponents : exponent = further) :
    UnpackedFloat.finite sign mantissa exponent positive = .finite sign other further above := by
  subst mantissas exponents
  rfl

def ofComponents (sign : Sign) (biased : BitVec 11) (stored : BitVec 52) : UnpackedFloat :=
  if biased = -1#11 then
    if stored = 0#52 then .infinity sign else .notANumber
  else if biased = 0#11 then
    if positive : 0 < stored.toNat then .finite sign stored.toNat (-1074) positive
    else .zero sign
  else .finite sign (2 ^ 52 + stored.toNat) (biased.toNat - 1075) (by omega)

theorem unpack_of_components {bits : BitVec Format.binary64.numBits} {sign : Sign}
    {biased : BitVec 11} {stored : BitVec 52} (signs : unpackSign bits = sign.toBitVec)
    (exponents : unpackExponent bits = biased) (mantissas : unpackMantissa bits = stored) :
    unpack Format.binary64 bits = ofComponents sign biased stored := by
  have side : sign = Sign.ofBitVec (unpackSign bits) := by rw [signs, ofBitVec_toBitVec]
  subst exponents mantissas side
  unfold unpack ofComponents
  by_cases special : unpackExponent bits = -1#11
  · rw [if_pos special, if_pos special]
  · rw [if_neg special, if_neg special]
    by_cases small : unpackExponent bits = 0#11
    · rw [if_pos small, if_pos small]
      by_cases zero : unpackMantissa bits = 0#52
      · rw [dif_pos zero, dif_neg (by rw [zero]; decide)]
      · have positive : 0 < (unpackMantissa bits).toNat :=
          Nat.pos_of_ne_zero fun none => zero (BitVec.eq_of_toNat_eq none)
        rw [dif_neg zero, dif_pos positive]
        exact finite_congr _ rfl (by rw [small]; rfl)
    · rw [if_neg small, if_neg small]
      exact finite_congr _ (toNat_implicit _) rfl

theorem unpack_packComponents (sign : Sign) (biased : BitVec 11) (stored : BitVec 52) :
    unpack Format.binary64 (packComponents Format.binary64 sign biased stored)
      = ofComponents sign biased stored :=
  unpack_of_components unpackSign_packComponents unpackExponent_packComponents
    unpackMantissa_packComponents

/-- What unpacking yields has the form that binary64 gives it. -/
theorem canonical_of_unpack {model : Float.Model} {sign : Sign} {mantissa : Nat} {exponent : Int}
    {positive : 0 < mantissa} (unpacked : model.unpack = .finite sign mantissa exponent positive) :
    Canonical mantissa exponent := by
  obtain ⟨side, biased, stored, parts⟩ := exists_components model.toBits.toBitVec
  rw [Float.Model.unpack, parts, unpack_packComponents, ofComponents] at unpacked
  have short : stored.toNat < 2 ^ 52 := stored.isLt
  have narrow : biased.toNat < 2 ^ 11 := biased.isLt
  by_cases special : biased = -1#11
  · rw [if_pos special] at unpacked
    by_cases none : stored = 0#52
    · rw [if_pos none] at unpacked
      cases unpacked
    · rw [if_neg none] at unpacked
      cases unpacked
  · rw [if_neg special] at unpacked
    by_cases small : biased = 0#11
    · rw [if_pos small] at unpacked
      by_cases positive : 0 < stored.toNat
      · rw [dif_pos positive] at unpacked
        injection unpacked with _ mantissas exponents
        subst mantissas exponents
        exact ⟨positive, by omega, by omega, by omega, Or.inr rfl⟩
      · rw [dif_neg positive] at unpacked
        cases unpacked
    · rw [if_neg small] at unpacked
      injection unpacked with _ mantissas exponents
      subst mantissas exponents
      have most : biased.toNat ≠ 2047 := fun same => special (BitVec.eq_of_toNat_eq same)
      have least : biased.toNat ≠ 0 := fun same => small (BitVec.eq_of_toNat_eq same)
      exact ⟨by omega, by omega, by omega, by omega, Or.inl (by omega)⟩

theorem pack_finite (sign : Sign) {mantissa : Nat} {exponent : Int}
    (canonical : Canonical mantissa exponent) :
    UnpackedFloat.pack Format.binary64 (.finite sign mantissa exponent canonical.positive)
      = packComponents Format.binary64 sign
        (if 2 ^ 52 ≤ mantissa then BitVec.ofNat 11 (exponent + 1075).toNat else 0#11)
        (BitVec.ofNat 52 mantissa) := by
  have least := canonical.least
  have greatest := canonical.greatest
  have nonzero : mantissa ≠ 0 := Nat.ne_of_gt canonical.positive
  have bounded : ¬ 2 ^ 11 ≤ (exponent + 1023 + 52).toNat + 1 := by omega
  unfold UnpackedFloat.pack
  change (if 2 ^ 11 ≤ (exponent + 1023 + 52).toNat + 1 then _
    else if mantissa.log2 + 1 = 53 then _ else _) = _
  rw [if_neg bounded]
  by_cases full : 2 ^ 52 ≤ mantissa
  · have above := (Nat.le_log2 nonzero).mpr full
    have below := canonical.log2_le
    have same : exponent + 1023 + 52 = exponent + 1075 := by omega
    rw [if_pos (by omega), if_pos full]
    change packComponents Format.binary64 sign (BitVec.ofNat 11 (exponent + 1023 + 52).toNat) _ = _
    rw [same]
  · have below : mantissa.log2 < 52 := (Nat.log2_lt nonzero).mpr (by omega)
    rw [if_neg (by omega), if_neg full]

/-- Unpacking undoes packing. -/
theorem unpack_pack {mantissa : Nat} {exponent : Int} (canonical : Canonical mantissa exponent)
    (sign : Sign) :
    (Float.Model.pack (.finite sign mantissa exponent canonical.positive)).unpack
      = .finite sign mantissa exponent canonical.positive := by
  have short := canonical.short
  have least := canonical.least
  have greatest := canonical.greatest
  change unpack Format.binary64
    (UnpackedFloat.pack Format.binary64 (.finite sign mantissa exponent canonical.positive)) = _
  rw [pack_finite sign canonical, unpack_packComponents]
  unfold ofComponents
  by_cases full : 2 ^ 52 ≤ mantissa
  · have biased : (BitVec.ofNat 11 (exponent + 1075).toNat).toNat = (exponent + 1075).toNat := by
      rw [BitVec.toNat_ofNat, Nat.mod_eq_of_lt (by omega)]
    have stored : (BitVec.ofNat 52 mantissa).toNat = mantissa - 2 ^ 52 := by
      rw [BitVec.toNat_ofNat]
      omega
    have special : BitVec.ofNat 11 (exponent + 1075).toNat ≠ -1#11 := by
      intro same
      rw [same] at biased
      have most : (-1#11 : BitVec 11).toNat = 2047 := rfl
      omega
    have small : BitVec.ofNat 11 (exponent + 1075).toNat ≠ 0#11 := by
      intro same
      rw [same] at biased
      have none : (0#11 : BitVec 11).toNat = 0 := rfl
      omega
    rw [if_pos full, if_neg special, if_neg small]
    exact finite_congr sign (by omega) (by omega)
  · have exponents : exponent = -1074 := canonical.full.resolve_left full
    have stored : (BitVec.ofNat 52 mantissa).toNat = mantissa := by
      rw [BitVec.toNat_ofNat]
      omega
    have positive := canonical.positive
    rw [if_neg full, if_neg (by decide), if_pos rfl, dif_pos (by omega)]
    exact finite_congr sign stored exponents.symm

theorem pack_ofComponents {sign : Sign} {biased : BitVec 11} {stored : BitVec 52}
    (valid : Format.binary64.Valid (packComponents Format.binary64 sign biased stored)) :
    UnpackedFloat.pack Format.binary64 (ofComponents sign biased stored)
      = packComponents Format.binary64 sign biased stored := by
  have short : stored.toNat < 2 ^ 52 := stored.isLt
  have narrow : biased.toNat < 2 ^ 11 := biased.isLt
  unfold ofComponents
  by_cases special : biased = -1#11
  · rw [if_pos special]
    by_cases none : stored = 0#52
    · rw [if_pos none, special, none]
      rfl
    · rw [if_neg none]
      exact (valid.eq_packedNaN (by rw [unpackExponent_packComponents]; exact special)
        (by rw [unpackMantissa_packComponents]; exact none)).symm
  · rw [if_neg special]
    by_cases small : biased = 0#11
    · rw [if_pos small]
      by_cases positive : 0 < stored.toNat
      · have canonical : Canonical stored.toNat (-1074) :=
          ⟨positive, by omega, by omega, by omega, Or.inr rfl⟩
        rw [dif_pos positive, pack_finite sign canonical, if_neg (by omega), small]
        congr 1
        exact BitVec.eq_of_toNat_eq (by rw [BitVec.toNat_ofNat]; omega)
      · have none : stored = 0#52 :=
          BitVec.eq_of_toNat_eq (Nat.eq_zero_of_not_pos positive)
        rw [dif_neg positive, small, none]
        rfl
    · rw [if_neg small]
      have most : biased.toNat ≠ 2047 := fun same => special (BitVec.eq_of_toNat_eq same)
      have least : biased.toNat ≠ 0 := fun same => small (BitVec.eq_of_toNat_eq same)
      have canonical : Canonical (2 ^ 52 + stored.toNat) (biased.toNat - 1075) :=
        ⟨by omega, by omega, by omega, by omega, Or.inl (by omega)⟩
      rw [pack_finite sign canonical, if_pos (by omega)]
      congr 1
      · exact BitVec.eq_of_toNat_eq (by rw [BitVec.toNat_ofNat]; omega)
      · exact BitVec.eq_of_toNat_eq (by rw [BitVec.toNat_ofNat]; omega)

/-- Packing undoes unpacking. -/
theorem pack_unpack (model : Float.Model) : Float.Model.pack model.unpack = model := by
  obtain ⟨bits, valid⟩ := model
  obtain ⟨sign, biased, stored, parts⟩ := exists_components bits.toBitVec
  have whole : Float.Model.unpack ⟨bits, valid⟩ = ofComponents sign biased stored := by
    rw [Float.Model.unpack, ← unpack_packComponents, ← parts]
  have packed := pack_ofComponents (parts ▸ valid)
  rw [whole, Float.Model.pack]
  congr 1
  rw [packed, ← parts]

end MiniPascal.Binary64
