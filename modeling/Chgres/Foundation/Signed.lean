import Mathlib

/-! # Signed machine words

Masks, shifts and products of `short` and `long` values, as numbers.
-/

namespace Chgres.Signed

/-! ## Multiples of sixteen -/

theorem toInt_mod_sixteen (value : Int16) : value.toInt % 16 = (value.toBitVec.toNat % 16 : Nat) := by
  rw [← Int16.toInt_toBitVec, BitVec.toInt_eq_toNat_cond]
  split <;> omega

theorem dvd_iff (value : Int16) : 16 ∣ value.toInt ↔ value.toBitVec.toNat % 16 = 0 := by
  have same := toInt_mod_sixteen value
  omega

theorem and_fifteen (value : Int16) : (value &&& 15).toBitVec.toNat = value.toBitVec.toNat % 16 :=
  Nat.and_two_pow_sub_one_eq_mod value.toBitVec.toNat 4

/-- The low four bits tell whether a number is a multiple of sixteen. -/
theorem dvd_iff_and_fifteen (value : Int16) : 16 ∣ value.toInt ↔ value &&& 15 = 0 := by
  rw [dvd_iff, ← and_fifteen]
  constructor
  · intro zero
    apply Int16.toBitVec_inj.mp
    exact BitVec.eq_of_toNat_eq zero
  · intro zero
    rw [zero]
    rfl

/-- Without its low four bits a number is a multiple of sixteen. -/
theorem dvd_and_mask (value : Int16) : 16 ∣ (value &&& -16).toInt := by
  rw [dvd_iff, Int16.toBitVec_and, BitVec.toNat_and]
  have split := @Nat.and_mod_two_pow value.toBitVec.toNat (-16 : Int16).toBitVec.toNat 4
  have mask : (-16 : Int16).toBitVec.toNat % 2 ^ 4 = 0 := by decide
  rw [mask, Nat.and_zero] at split
  exact split

/-! ## Products that fit -/

/-- A number that a 32-bit `long` can hold. -/
def FitsLong (value : Int) : Prop := -2 ^ 31 ≤ value ∧ value < 2 ^ 31

theorem toInt_mul {left right : Int32} (fits : FitsLong (left.toInt * right.toInt)) :
    (left * right).toInt = left.toInt * right.toInt := by
  rw [Int32.toInt_mul]
  apply Int.bmod_eq_of_le
  · have least := fits.1
    omega
  · have greatest := fits.2
    omega

theorem toInt_shift_three (value : Int32) : (value >>> 3).toInt = value.toInt / 8 := by
  have amount : ((3 : Int32).toBitVec.smod 32).toNat = 3 := by decide
  rw [← Int32.toInt_toBitVec, Int32.toBitVec_shiftRight, BitVec.toInt_sshiftRight', amount,
    Int.shiftRight_eq_div_pow]
  rfl

end Chgres.Signed
