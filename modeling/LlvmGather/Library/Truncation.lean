import Mathlib.Data.Nat.Bitwise
import Mathlib.Tactic

/-!
Arithmetic done at a wider width. The operands of a narrow operation are sign-extended,
combined there and cut back: the ring operations and left shifts do not notice, division
becomes the quotient of the signed readings, and a right shift stays arithmetic.
-/

namespace Truncation

variable {width wide : Nat}

theorem setWidth_eq_ofInt (fits : width ≤ wide) (word : BitVec wide) :
    word.setWidth width = BitVec.ofInt width word.toInt := by
  rw [← BitVec.signExtend_eq_setWidth_of_le word fits]
  rfl

theorem setWidth_signExtend (fits : width ≤ wide) (word : BitVec width) :
    (word.signExtend wide).setWidth width = word := by
  rw [setWidth_eq_ofInt fits, BitVec.toInt_signExtend_of_le fits, BitVec.ofInt_toInt]

theorem setWidth_add (fits : width ≤ wide) (left right : BitVec width) :
    (left.signExtend wide + right.signExtend wide).setWidth width = left + right := by
  rw [BitVec.setWidth_add _ _ fits, setWidth_signExtend fits, setWidth_signExtend fits]

theorem setWidth_mul (fits : width ≤ wide) (left right : BitVec width) :
    (left.signExtend wide * right.signExtend wide).setWidth width = left * right := by
  rw [BitVec.setWidth_mul _ _ fits, setWidth_signExtend fits, setWidth_signExtend fits]

theorem setWidth_sub (fits : width ≤ wide) (left right : BitVec width) :
    (left.signExtend wide - right.signExtend wide).setWidth width = left - right := by
  have sum := BitVec.setWidth_add (left.signExtend wide - right.signExtend wide)
    (right.signExtend wide) fits
  rw [BitVec.sub_add_cancel, setWidth_signExtend fits, setWidth_signExtend fits] at sum
  exact BitVec.eq_sub_iff_add_eq.mpr sum.symm

theorem setWidth_shiftLeft (fits : width ≤ wide) (word : BitVec width) (amount : Nat) :
    (word.signExtend wide <<< amount).setWidth width = word <<< amount := by
  rw [← BitVec.mul_twoPow_eq_shiftLeft, BitVec.setWidth_mul _ _ fits, setWidth_signExtend fits,
    ← BitVec.mul_twoPow_eq_shiftLeft]
  congr 1
  apply BitVec.eq_of_getLsbD_eq
  intro index inside
  simp only [BitVec.getLsbD_setWidth, BitVec.getLsbD_twoPow]
  by_cases here : amount = index
  · subst here
    simp [inside, Nat.lt_of_lt_of_le inside fits]
  · simp [here]

theorem setWidth_sshiftRight (fits : width ≤ wide) (word : BitVec width) (amount : Nat) :
    ((word.signExtend wide).sshiftRight amount).setWidth width = word.sshiftRight amount := by
  rw [setWidth_eq_ofInt fits, BitVec.toInt_sshiftRight, BitVec.toInt_signExtend_of_le fits,
    ← BitVec.toInt_sshiftRight, BitVec.ofInt_toInt]

theorem setWidth_sdiv (fits : width ≤ wide) (left right : BitVec width)
    (noOverflow : left.signExtend wide ≠ BitVec.intMin wide ∨
      right.signExtend wide ≠ -BitVec.ofNat wide 1) :
    ((left.signExtend wide).sdiv (right.signExtend wide)).setWidth width =
      BitVec.ofInt width (left.toInt.tdiv right.toInt) := by
  rw [setWidth_eq_ofInt fits, BitVec.toInt_sdiv_of_ne_or_ne _ _ noOverflow,
    BitVec.toInt_signExtend_of_le fits, BitVec.toInt_signExtend_of_le fits]

theorem sdiv_eq_ofInt (left right : BitVec width) :
    left.sdiv right = BitVec.ofInt width (left.toInt.tdiv right.toInt) := by
  apply BitVec.eq_of_toInt_eq
  rw [BitVec.toInt_sdiv, BitVec.toInt_ofInt]

section Signs

theorem toInt_nonneg (word : BitVec width) (positive : 2 * word.toNat < 2 ^ width) :
    word.toInt = word.toNat := by
  rw [BitVec.toInt_eq_toNat_cond, if_pos positive]

theorem toInt_negative (word : BitVec width) (negative : 2 ^ width ≤ 2 * word.toNat) :
    word.toInt = -((2 ^ width - word.toNat : Nat) : Int) := by
  have bound := word.isLt
  rw [BitVec.toInt_eq_toNat_cond, if_neg (by omega)]
  omega

theorem toInt_nonneg_iff (word : BitVec width) :
    0 ≤ word.toInt ↔ 2 * word.toNat < 2 ^ width := by
  have negative := @BitVec.toInt_neg_iff width word
  omega

theorem toNat_signExtend_of_nonneg (fits : width ≤ wide) {word : BitVec width}
    (positive : 0 ≤ word.toInt) : (word.signExtend wide).toNat = word.toNat := by
  have sign : word.msb = false := by
    rw [BitVec.msb_eq_toInt]
    simpa using positive
  rw [BitVec.signExtend_eq_setWidth_of_msb_false sign, BitVec.toNat_setWidth_of_le fits]

theorem sshiftRight_eq_ushiftRight_iff (word : BitVec width) {amount : Nat}
    (bound : amount < width) :
    word.sshiftRight amount = word >>> amount ↔ 0 ≤ word.toInt ∨ amount = 0 := by
  constructor
  · intro same
    by_contra outside
    obtain ⟨negative, shifted⟩ := not_or.mp outside
    have top := congrArg (BitVec.getLsbD · (width - 1)) same
    have sign : word.msb = true := by
      rw [BitVec.msb_eq_toInt]
      simpa using negative
    simp only [BitVec.getLsbD_sshiftRight, BitVec.getLsbD_ushiftRight] at top
    rw [BitVec.getLsbD_of_ge _ _ (by omega : width ≤ amount + (width - 1))] at top
    simp [show ¬ amount + (width - 1) < width by omega, sign, show ¬ width ≤ width - 1 by omega]
      at top
  · rintro (positive | rfl)
    · apply BitVec.sshiftRight_eq_of_msb_false
      rw [BitVec.msb_eq_toInt]
      simpa using positive
    · simp

end Signs

section Quotients

theorem ofInt_natCast_eq_iff (word : BitVec width) {amount : Nat} (small : amount < 2 ^ width) :
    BitVec.ofInt width amount = word ↔ amount = word.toNat := by
  rw [BitVec.ofInt_natCast, ← BitVec.toNat_inj, BitVec.toNat_ofNat, Nat.mod_eq_of_lt small]

theorem ofInt_neg_eq_iff (word : BitVec width) {amount : Nat} (small : amount ≤ 2 ^ width) :
    BitVec.ofInt width (-amount) = word ↔
      (amount = 0 ∧ word.toNat = 0) ∨ amount + word.toNat = 2 ^ width := by
  have bound := word.isLt
  rcases Nat.eq_zero_or_pos amount with rfl | positive
  · rw [Int.natCast_zero, neg_zero, ← Int.natCast_zero, ofInt_natCast_eq_iff word (by omega)]
    omega
  · have residue : (-(amount : Int)) % ((2 ^ width : Nat) : Int) =
        ((2 ^ width - amount : Nat) : Int) := by
      rw [← Int.add_emod_right, Int.emod_eq_of_lt (by omega) (by omega)]
      omega
    rw [← BitVec.toNat_inj, BitVec.toNat_ofInt, residue, Int.toNat_natCast]
    omega

section Readings

variable (left right : BitVec width)

theorem ofInt_tdiv_divisor_negative (leftSign : 2 * left.toNat < 2 ^ width)
    (rightSign : 2 ^ width ≤ 2 * right.toNat) :
    BitVec.ofInt width (left.toInt.tdiv right.toInt) = left / right ↔
      left.toNat + right.toNat < 2 ^ width := by
  have rightBound := right.isLt
  have zero : left.toNat / right.toNat = 0 := Nat.div_eq_of_lt (by omega)
  have small := Nat.div_le_self left.toNat (2 ^ width - right.toNat)
  have below := @Nat.div_eq_zero_iff_lt (2 ^ width - right.toNat) left.toNat (by omega)
  rw [toInt_nonneg left leftSign, toInt_negative right rightSign, Int.tdiv_neg, ← Int.ofNat_tdiv,
    ofInt_neg_eq_iff _ (by omega), BitVec.toNat_udiv, zero]
  omega

theorem ofInt_tdiv_dividend_negative (nonzero : right.toNat ≠ 0)
    (leftSign : 2 ^ width ≤ 2 * left.toNat) (rightSign : 2 * right.toNat < 2 ^ width) :
    BitVec.ofInt width (left.toInt.tdiv right.toInt) = left / right ↔ right.toNat = 1 := by
  have leftBound := left.isLt
  have large : 0 < left.toNat / right.toNat := Nat.div_pos (by omega) (by omega)
  have small := Nat.div_le_self (2 ^ width - left.toNat) right.toNat
  rw [toInt_negative left leftSign, toInt_nonneg right rightSign, Int.neg_tdiv, ← Int.ofNat_tdiv,
    ofInt_neg_eq_iff _ (by omega), BitVec.toNat_udiv]
  constructor
  · intro turn
    by_contra other
    have two : 2 ≤ right.toNat := by omega
    have half := Nat.div_le_div_left two (by omega) (a := left.toNat)
    have otherHalf := Nat.div_le_div_left two (by omega) (a := 2 ^ width - left.toNat)
    omega
  · intro one
    rw [one, Nat.div_one, Nat.div_one]
    omega

theorem ofInt_tdiv_both_negative (leftSign : 2 ^ width ≤ 2 * left.toNat)
    (rightSign : 2 ^ width ≤ 2 * right.toNat) :
    BitVec.ofInt width (left.toInt.tdiv right.toInt) = left / right ↔ left.toNat = right.toNat := by
  have leftBound := left.isLt
  have rightBound := right.isLt
  have small := Nat.div_le_self (2 ^ width - left.toNat) (2 ^ width - right.toNat)
  rw [toInt_negative left leftSign, toInt_negative right rightSign, Int.neg_tdiv, Int.tdiv_neg,
    neg_neg, ← Int.ofNat_tdiv, ofInt_natCast_eq_iff _ (by omega), BitVec.toNat_udiv]
  rcases Nat.lt_trichotomy left.toNat right.toNat with less | same | more
  · have positive : 0 < (2 ^ width - left.toNat) / (2 ^ width - right.toNat) :=
      Nat.div_pos (by omega) (by omega)
    rw [Nat.div_eq_of_lt less]
    omega
  · rw [same, Nat.div_self (by omega), Nat.div_self (by omega)]
    simp
  · have positive : 0 < left.toNat / right.toNat := Nat.div_pos (by omega) (by omega)
    rw [Nat.div_eq_of_lt (by omega)]
    omega

theorem ofInt_tdiv_eq_udiv_iff (nonzero : right.toNat ≠ 0) :
    BitVec.ofInt width (left.toInt.tdiv right.toInt) = left / right ↔
      (0 ≤ left.toInt ∧ 0 ≤ right.toInt) ∨ right.toNat = 1 ∨ left.toNat = right.toNat ∨
        (0 ≤ left.toInt ∧ left.toInt < -right.toInt) := by
  have leftBound := left.isLt
  have rightBound := right.isLt
  by_cases leftSign : 2 * left.toNat < 2 ^ width <;>
    by_cases rightSign : 2 * right.toNat < 2 ^ width
  · have small := Nat.div_le_self left.toNat right.toNat
    rw [toInt_nonneg left leftSign, toInt_nonneg right rightSign, ← Int.ofNat_tdiv,
      ofInt_natCast_eq_iff _ (by omega), BitVec.toNat_udiv]
    simp
  · rw [ofInt_tdiv_divisor_negative left right leftSign (by omega), toInt_nonneg left leftSign,
      toInt_negative right (by omega)]
    omega
  · rw [ofInt_tdiv_dividend_negative left right nonzero (by omega) rightSign,
      toInt_negative left (by omega), toInt_nonneg right rightSign]
    omega
  · rw [ofInt_tdiv_both_negative left right (by omega) (by omega), toInt_negative left (by omega),
      toInt_negative right (by omega)]
    omega

end Readings

theorem ushiftRight_eq_udiv (word divisor : BitVec width) {amount : Nat}
    (power : divisor.toNat = 2 ^ amount) : word >>> amount = word / divisor := by
  apply BitVec.eq_of_toNat_eq
  rw [BitVec.toNat_ushiftRight, BitVec.toNat_udiv, power, Nat.shiftRight_eq_div_pow]

theorem ushiftRight_eq_sdiv_iff (word divisor : BitVec width) {amount : Nat}
    (power : divisor.toNat = 2 ^ amount) (positive : 0 < divisor.toInt) :
    word >>> amount = word.sdiv divisor ↔ divisor.toNat = 1 ∨ 0 ≤ word.toInt := by
  have nonzero : divisor.toNat ≠ 0 := by
    rw [power]
    exact (Nat.two_pow_pos amount).ne'
  have divisorSign := (toInt_nonneg_iff divisor).mp positive.le
  rw [ushiftRight_eq_udiv word divisor power, sdiv_eq_ofInt, eq_comm,
    ofInt_tdiv_eq_udiv_iff word divisor nonzero]
  have same : word.toNat = divisor.toNat → 0 ≤ word.toInt := by
    intro same
    rw [toInt_nonneg_iff, same]
    exact divisorSign
  omega

end Quotients

end Truncation
