import Mathlib.Data.Nat.Bitwise
import Mathlib.Tactic

/-!
Masks of low bits in words: clearing the low bits rounds down to a multiple of a power
of two, and keeping them is the remainder.
-/

namespace Mask

variable {width : Nat}

def low (width bits : Nat) : BitVec width := BitVec.ofNat width (2 ^ bits) - BitVec.ofNat width 1

theorem toNat_low {bits : Nat} (bound : bits < width) : (low width bits).toNat = 2 ^ bits - 1 := by
  have small : 2 ^ bits < 2 ^ width := Nat.pow_lt_pow_right (by omega) bound
  have one : 1 < 2 ^ width := Nat.one_lt_two_pow (by omega)
  have atMost : BitVec.ofNat width 1 ≤ BitVec.ofNat width (2 ^ bits) := by
    rw [BitVec.le_def, BitVec.toNat_ofNat, BitVec.toNat_ofNat, Nat.mod_eq_of_lt small,
      Nat.mod_eq_of_lt one]
    exact Nat.two_pow_pos bits
  rw [low, BitVec.toNat_sub_of_le atMost, BitVec.toNat_ofNat, BitVec.toNat_ofNat,
    Nat.mod_eq_of_lt small, Nat.mod_eq_of_lt one]

theorem getLsbD_low {bits index : Nat} (bound : bits < width) :
    (low width bits).getLsbD index = decide (index < bits) := by
  rw [BitVec.getLsbD, toNat_low bound, Nat.testBit_two_pow_sub_one]

theorem toNat_clear {bits : Nat} (bound : bits < width) (word : BitVec width) :
    (word &&& ~~~ low width bits).toNat = word.toNat / 2 ^ bits * 2 ^ bits := by
  have shifted : word &&& ~~~ low width bits = (word >>> bits) <<< bits := by
    apply BitVec.eq_of_getLsbD_eq
    intro index inside
    rw [BitVec.getLsbD_and, BitVec.getLsbD_not, getLsbD_low bound, BitVec.getLsbD_shiftLeft,
      BitVec.getLsbD_ushiftRight]
    by_cases isLow : index < bits
    · simp [isLow]
    · have back : bits + (index - bits) = index := by omega
      simp [isLow, inside, back]
  have small : word.toNat / 2 ^ bits * 2 ^ bits < 2 ^ width :=
    Nat.lt_of_le_of_lt (Nat.div_mul_le_self _ _) word.isLt
  rw [shifted, BitVec.toNat_shiftLeft, BitVec.toNat_ushiftRight, Nat.shiftRight_eq_div_pow,
    Nat.shiftLeft_eq, Nat.mod_eq_of_lt small]

theorem toNat_keep {bits : Nat} (bound : bits < width) (word : BitVec width) :
    (word &&& low width bits).toNat = word.toNat % 2 ^ bits := by
  rw [BitVec.toNat_and, toNat_low bound, Nat.and_two_pow_sub_one_eq_mod]

end Mask
