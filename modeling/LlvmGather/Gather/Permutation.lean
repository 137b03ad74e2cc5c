import LlvmGather.Gather.Request

/-!
The address computation of `doMemGather`. Its three steps are a transposition of field
and tuple numbers, restricted to the bits of the pattern.
-/

namespace LlvmGather

def FIELD_ID (x : Addr) : Addr := x >>> 3 &&& 0x7
def TUPLE_ID (x : Addr) : Addr := x >>> 6 &&& 0x7
def SHUFFLE (x : Addr) : Addr := x ^^^ (TUPLE_ID x <<< 3)
def UNSHUFFLE (x : Addr) : Addr := SHUFFLE x
def PATTERN (x patId : Addr) : Addr := x ^^^ ((FIELD_ID x &&& patId) <<< 6)

def gatherSource (patternId addr : Addr) : Addr := UNSHUFFLE (PATTERN (SHUFFLE addr) patternId)

/-- Field bits 3 to 5 and tuple bits 6 to 8 change places where the pattern has a one. -/
def exchange (pattern addr : Addr) : Addr :=
  let field := FIELD_ID addr
  let tuple := TUPLE_ID addr
  (addr &&& ~~~ 0x1F8#64) ||| ((field &&& ~~~ pattern ||| tuple &&& pattern) <<< 3) |||
    ((tuple &&& ~~~ pattern ||| field &&& pattern) <<< 6)

theorem getLsbD_seven (index : Nat) : (7#64).getLsbD index = decide (index < 3) :=
  show (Mask.low 64 3).getLsbD index = _ from Mask.getLsbD_low (by decide)

theorem getLsbD_FIELD_ID (x : Addr) (index : Nat) :
    (FIELD_ID x).getLsbD index = (decide (index < 3) && x.getLsbD (3 + index)) := by
  simp [FIELD_ID, getLsbD_seven, Bool.and_comm]

theorem getLsbD_TUPLE_ID (x : Addr) (index : Nat) :
    (TUPLE_ID x).getLsbD index = (decide (index < 3) && x.getLsbD (6 + index)) := by
  simp [TUPLE_ID, getLsbD_seven, Bool.and_comm]

theorem getLsbD_tile (index : Nat) :
    (0x1F8#64).getLsbD index = decide (3 ≤ index ∧ index < 9) := by
  by_cases small : index < 64
  · interval_cases index <;> rfl
  · have out : ¬ (3 ≤ index ∧ index < 9) := by omega
    rw [BitVec.getLsbD_of_ge _ _ (Nat.le_of_not_lt small)]
    simp [out]

theorem masked_left (bit other mask : Bool) :
    (bit != (other != (other && !mask || bit && mask))) = (bit && !mask || other && mask) := by
  revert bit other mask
  decide

theorem masked_right (bit other mask : Bool) :
    (bit ^^ (other ^^ bit) && mask) = (bit && !mask || other && mask) := by
  revert bit other mask
  decide

theorem masked_choice (bit other mask : Bool) :
    (bit && !mask || other && mask) = if mask = true then other else bit := by
  cases mask <;> simp

theorem gatherSource_eq_exchange (pattern addr : Addr) :
    gatherSource pattern addr = exchange pattern addr := by
  apply BitVec.eq_of_getLsbD_eq
  intro index inside
  simp only [gatherSource, exchange, UNSHUFFLE, PATTERN, SHUFFLE, BitVec.getLsbD_xor,
    BitVec.getLsbD_or, BitVec.getLsbD_and, BitVec.getLsbD_not, BitVec.getLsbD_shiftLeft,
    getLsbD_FIELD_ID, getLsbD_TUPLE_ID, getLsbD_tile]
  rcases Nat.lt_or_ge index 9 with low | high
  · interval_cases index <;> simp [masked_left, masked_right]
  · have notField : ¬ index - 3 < 3 := by omega
    have notTuple : ¬ index - 6 < 3 := by omega
    have notTile : ¬ index < 9 := by omega
    simp [notField, notTuple, notTile, inside]

theorem getLsbD_gatherSource (pattern addr : Addr) (index : Nat) :
    (gatherSource pattern addr).getLsbD index =
      if 3 ≤ index ∧ index < 6 ∧ pattern.getLsbD (index - 3) = true then addr.getLsbD (index + 3)
      else if 6 ≤ index ∧ index < 9 ∧ pattern.getLsbD (index - 6) = true then
        addr.getLsbD (index - 3)
      else addr.getLsbD index := by
  rw [gatherSource_eq_exchange]
  simp only [exchange, BitVec.getLsbD_or, BitVec.getLsbD_and, BitVec.getLsbD_not,
    BitVec.getLsbD_shiftLeft, getLsbD_FIELD_ID, getLsbD_TUPLE_ID, getLsbD_tile]
  rcases Nat.lt_or_ge index 9 with low | high
  · interval_cases index <;> simp [masked_choice]
  · have notField : ¬ index - 3 < 3 := by omega
    have notTuple : ¬ index - 6 < 3 := by omega
    have notTile : ¬ index < 9 := by omega
    have beyond : ¬ index < 6 := by omega
    have wide : addr.getLsbD index = true → index < 64 := BitVec.lt_of_getLsbD
    grind

theorem exchange_zero (addr : Addr) : exchange 0 addr = addr := by
  rw [← gatherSource_eq_exchange]
  apply BitVec.eq_of_getLsbD_eq
  intro index _
  simp [getLsbD_gatherSource]

theorem gatherSource_involutive (pattern : Addr) :
    Function.Involutive (gatherSource pattern) := by
  intro addr
  apply BitVec.eq_of_getLsbD_eq
  intro index _
  have down : 3 ≤ index → index < 6 → index + 3 - 6 = index - 3 ∧ index + 3 - 3 = index := by omega
  have up : 6 ≤ index → index < 9 → index - 3 - 3 = index - 6 ∧ index - 3 + 3 = index := by omega
  simp only [getLsbD_gatherSource]
  grind

theorem gatherSource_of_diagonal (pattern : Addr) {addr : Addr}
    (diagonal : FIELD_ID addr = TUPLE_ID addr) : gatherSource pattern addr = addr := by
  have bits : ∀ index < 3, addr.getLsbD (3 + index) = addr.getLsbD (6 + index) := by
    intro index low
    have same := congrArg (BitVec.getLsbD · index) diagonal
    simpa [getLsbD_FIELD_ID, getLsbD_TUPLE_ID, low] using same
  apply BitVec.eq_of_getLsbD_eq
  intro index _
  rw [getLsbD_gatherSource]
  split_ifs with field tuple
  · have same := bits (index - 3) (by omega)
    rw [show 3 + (index - 3) = index by omega, show 6 + (index - 3) = index + 3 by omega] at same
    exact same.symm
  · have same := bits (index - 6) (by omega)
    rwa [show 3 + (index - 6) = index - 3 by omega, show 6 + (index - 6) = index by omega] at same
  · rfl

theorem toNat_three_bits (x : Addr) (place : Nat) :
    (x >>> place &&& 0x7).toNat = x.toNat / 2 ^ place % 2 ^ 3 := by
  have seven : (0x7 : Addr) = Mask.low 64 3 := by decide
  rw [seven, Mask.toNat_keep (by decide), BitVec.toNat_ushiftRight, Nat.shiftRight_eq_div_pow]

theorem diagonal_iff (addr : Addr) :
    FIELD_ID addr = TUPLE_ID addr ↔ addr.toNat / 8 % 8 = addr.toNat / 64 % 8 := by
  rw [← BitVec.toNat_inj, FIELD_ID, TUPLE_ID, toNat_three_bits, toNat_three_bits]
  norm_num

theorem gatherSource_tile (pattern addr : Addr) :
    (gatherSource pattern addr).toNat / 512 = addr.toNat / 512 := by
  have shifted : gatherSource pattern addr >>> 9 = addr >>> 9 := by
    apply BitVec.eq_of_getLsbD_eq
    intro index _
    have beyond : ¬ 9 + index < 6 := by omega
    simp [getLsbD_gatherSource, beyond]
  have values := congrArg BitVec.toNat shifted
  simpa [BitVec.toNat_ushiftRight, Nat.shiftRight_eq_div_pow] using values

theorem gatherSource_offset (pattern addr : Addr) :
    (gatherSource pattern addr).toNat % 8 = addr.toNat % 8 := by
  have kept : gatherSource pattern addr &&& Mask.low 64 3 = addr &&& Mask.low 64 3 := by
    apply BitVec.eq_of_getLsbD_eq
    intro index _
    rw [BitVec.getLsbD_and, BitVec.getLsbD_and, Mask.getLsbD_low (by decide)]
    by_cases low : index < 3
    · have notField : ¬ 3 ≤ index := by omega
      have notTuple : ¬ 6 ≤ index := by omega
      simp [getLsbD_gatherSource, notField, notTuple]
    · simp [low]
  have values := congrArg BitVec.toNat kept
  rwa [Mask.toNat_keep (by decide), Mask.toNat_keep (by decide)] at values

theorem toNat_gatherSource (pattern : Addr) {addr : Addr} {place : Nat}
    (here : addr.toNat % 512 = place) :
    (gatherSource pattern addr).toNat =
      addr.toNat - place + (gatherSource pattern (BitVec.ofNat 64 place)).toNat := by
  have low : addr &&& Mask.low 64 9 = BitVec.ofNat 64 place := by
    apply BitVec.eq_of_toNat_eq
    rw [Mask.toNat_keep (by decide), BitVec.toNat_ofNat]
    omega
  have kept : gatherSource pattern addr &&& Mask.low 64 9 =
      gatherSource pattern (addr &&& Mask.low 64 9) := by
    apply BitVec.eq_of_getLsbD_eq
    intro index _
    simp only [BitVec.getLsbD_and, getLsbD_gatherSource, Mask.getLsbD_low (show 9 < 64 by decide)]
    grind
  have values := congrArg BitVec.toNat kept
  rw [Mask.toNat_keep (by decide), low] at values
  have tile := gatherSource_tile pattern addr
  omega

theorem gatherSource_of_corner (pattern : Addr) {addr : Addr}
    (corner : addr.toNat % 512 < 8 ∨ 504 ≤ addr.toNat % 512) : gatherSource pattern addr = addr := by
  apply gatherSource_of_diagonal
  rw [diagonal_iff]
  omega

theorem gatherSource_confined (pattern addr : Addr) :
    gatherSource pattern addr = addr ∨
      8 ≤ addr.toNat % 512 ∧ addr.toNat % 512 < 504 ∧
      8 ≤ (gatherSource pattern addr).toNat % 512 ∧
      (gatherSource pattern addr).toNat % 512 < 504 := by
  by_cases own : addr.toNat % 512 < 8 ∨ 504 ≤ addr.toNat % 512
  · exact .inl (gatherSource_of_corner pattern own)
  · by_cases source : (gatherSource pattern addr).toNat % 512 < 8 ∨
        504 ≤ (gatherSource pattern addr).toNat % 512
    · have fixed := gatherSource_of_corner pattern source
      rw [gatherSource_involutive] at fixed
      exact .inl fixed.symm
    · right
      omega

end LlvmGather
