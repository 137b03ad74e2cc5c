import LlvmGather.Ir.Integer

/-!
Constant folding of `LocalOpts`. Every constant is read as a signed 64-bit number of the
host, the operation is done there whatever the opcode says about signs, and the result is
cut to the width of the first operand.
-/

namespace LlvmGather

inductive Fault
  | tooManyBits
  | divisionOverflow
  | ownReplacement
deriving DecidableEq, Repr

/-- The machine the compiler runs on: whether LLVM was built with assertions, and what
a shift by an amount outside 0 to 63 gives, which C++ leaves undefined. -/
structure Host where
  assertions : Bool
  overShift : BinaryOps → BitVec 64 → BitVec 64 → BitVec 64

namespace Host

variable (host : Host)

/-- `getSExtValue`, which asserts that the number has at most 64 significant bits. -/
def getSExtValue (number : APInt) : Except Fault (BitVec 64) :=
  if host.assertions ∧ number.value.toInt ≠ (number.value.signExtend 64).toInt then
    .error .tooManyBits
  else .ok (number.value.signExtend 64)

/-- Signed division; the quotient of the least number and -1 does not fit. -/
def divide (left right : BitVec 64) : Except Fault (BitVec 64) :=
  if left = BitVec.intMin 64 ∧ right = -1 then .error .divisionOverflow
  else .ok (left.sdiv right)

def shiftLeft (left right : BitVec 64) : BitVec 64 :=
  if right.toNat < 64 then left <<< right.toNat else host.overShift .Shl left right

def shiftRight (left right : BitVec 64) : BitVec 64 :=
  if right.toNat < 64 then left.sshiftRight right.toNat else host.overShift .LShr left right

end Host

def getConst (width : Nat) (val : BitVec 64) : APInt := ⟨width, val.setWidth width⟩

/-- `get_const(ci1->getType(), operate(ci1->getSExtValue(), ci2->getSExtValue()))`. -/
def Host.combine (host : Host) (operate : BitVec 64 → BitVec 64 → BitVec 64) (ci1 ci2 : APInt) :
    Except Fault (Option APInt) := do
  return some (getConst ci1.width (operate (← host.getSExtValue ci1) (← host.getSExtValue ci2)))

def Host.quotient (host : Host) (ci1 ci2 : APInt) : Except Fault (Option APInt) := do
  if (← host.getSExtValue ci2) ≠ 0 then
    let quotient ← divide (← host.getSExtValue ci1) (← host.getSExtValue ci2)
    return some (getConst ci1.width quotient)
  else return none -- division by zero

/-- The switch of `constant_folding`; there is no result for an instruction that is not known. -/
def Host.fold (host : Host) (op : BinaryOps) (ci1 ci2 : APInt) : Except Fault (Option APInt) :=
  match op with
  | .Add => host.combine (· + ·) ci1 ci2
  | .Sub => host.combine (· - ·) ci1 ci2
  | .Mul => host.combine (· * ·) ci1 ci2
  | .UDiv | .SDiv => host.quotient ci1 ci2
  | .Shl => host.combine host.shiftLeft ci1 ci2
  | .LShr => host.combine host.shiftRight ci1 ci2
  | _ => .ok none

def foldConstants (constants : Constants) (host : Host) (inst : Inst) :
    Except Fault (Option Value) :=
  match inst.shape with
  | .binary op val1 val2 =>
      match constants.constantInt val1, constants.constantInt val2 with
      | some ci1, some ci2 => (host.fold op ci1 ci2).map (Option.map constants.ofInt)
      | _, _ => .ok none
  | _ => .ok none

theorem foldConstants_cases (constants : Constants) (host : Host) (inst : Inst) :
    foldConstants constants host inst = .ok none ∨
      ∃ op val1 val2 ci1 ci2, inst.shape = .binary op val1 val2 ∧
        constants.constantInt val1 = some ci1 ∧ constants.constantInt val2 = some ci2 ∧
        foldConstants constants host inst =
          (host.fold op ci1 ci2).map (Option.map constants.ofInt) := by
  unfold foldConstants
  split
  · next op val1 val2 shape =>
      split
      · next ci1 ci2 first second =>
          exact Or.inr ⟨op, val1, val2, ci1, ci2, shape, first, second, rfl⟩
      · exact Or.inl rfl
  · exact Or.inl rfl

def TooWide (number : APInt) : Prop := number.value.toInt ≠ (number.value.signExtend 64).toInt

section Reading

variable (host : Host) {width : Nat}

theorem getSExtValue_cases (number : APInt) :
    host.getSExtValue number = .ok (number.value.signExtend 64) ∨
      (host.getSExtValue number = .error .tooManyBits ∧ host.assertions = true ∧ TooWide number) := by
  unfold Host.getSExtValue
  split
  · next wide => exact Or.inr ⟨rfl, wide⟩
  · exact Or.inl rfl

theorem getSExtValue_of_le (fits : width ≤ 64) (value : BitVec width) :
    host.getSExtValue ⟨width, value⟩ = .ok (value.signExtend 64) := by
  rw [Host.getSExtValue, if_neg]
  simp [BitVec.toInt_signExtend_of_le fits]

theorem combine_of_le (fits : width ≤ 64) (operate : BitVec 64 → BitVec 64 → BitVec 64)
    (left right : BitVec width) :
    host.combine operate ⟨width, left⟩ ⟨width, right⟩ =
      .ok (some ⟨width, (operate (left.signExtend 64) (right.signExtend 64)).setWidth width⟩) := by
  simp only [Host.combine, getSExtValue_of_le host fits]
  rfl

theorem combine_cases (operate : BitVec 64 → BitVec 64 → BitVec 64) (ci1 ci2 : APInt) :
    (∃ number, host.combine operate ci1 ci2 = .ok (some number) ∧ number.width = ci1.width) ∨
      (host.combine operate ci1 ci2 = .error .tooManyBits ∧ host.assertions = true ∧
        (TooWide ci1 ∨ TooWide ci2)) := by
  unfold Host.combine
  rcases getSExtValue_cases host ci1 with first | ⟨first, asserts, wide⟩
  · rcases getSExtValue_cases host ci2 with second | ⟨second, asserts, wide⟩
    · rw [first, second]
      exact Or.inl ⟨_, rfl, rfl⟩
    · rw [first, second]
      exact Or.inr ⟨rfl, asserts, Or.inr wide⟩
  · rw [first]
    exact Or.inr ⟨rfl, asserts, Or.inl wide⟩

theorem quotient_of_ok {ci1 ci2 : APInt} {left right : BitVec 64}
    (first : host.getSExtValue ci1 = .ok left) (second : host.getSExtValue ci2 = .ok right) :
    host.quotient ci1 ci2 =
      if right ≠ 0 then
        (Host.divide left right).map fun quotient => some (getConst ci1.width quotient)
      else .ok none := by
  simp only [Host.quotient, first, second]
  rfl

theorem quotient_cases (ci1 ci2 : APInt) :
    (host.quotient ci1 ci2 = .ok none ∧ host.getSExtValue ci2 = .ok 0) ∨
      (∃ number, host.quotient ci1 ci2 = .ok (some number) ∧ number.width = ci1.width) ∨
      (host.quotient ci1 ci2 = .error .tooManyBits ∧ host.assertions = true ∧
        (TooWide ci1 ∨ TooWide ci2)) ∨
      (host.quotient ci1 ci2 = .error .divisionOverflow ∧
        ci1.value.signExtend 64 = BitVec.intMin 64 ∧ ci2.value.signExtend 64 = -1) := by
  rcases getSExtValue_cases host ci2 with second | ⟨second, asserts, wide⟩
  · by_cases zero : ci2.value.signExtend 64 = 0
    · refine Or.inl ⟨?_, by rw [second, zero]⟩
      simp only [Host.quotient, second, zero]
      rfl
    · rcases getSExtValue_cases host ci1 with first | ⟨first, asserts, wide⟩
      · rw [quotient_of_ok host first second, if_pos zero, Host.divide]
        split
        · next overflow => exact Or.inr (Or.inr (Or.inr ⟨rfl, overflow⟩))
        · exact Or.inr (Or.inl ⟨_, rfl, rfl⟩)
      · refine Or.inr (Or.inr (Or.inl ⟨?_, asserts, Or.inl wide⟩))
        simp only [Host.quotient, first, second, bind, Except.bind, if_pos zero]
  · exact Or.inr (Or.inr (Or.inl ⟨by simp only [Host.quotient, second]; rfl, asserts, Or.inr wide⟩))

theorem fold_width {op : BinaryOps} {ci1 ci2 number : APInt}
    (folded : host.fold op ci1 ci2 = .ok (some number)) : number.width = ci1.width := by
  have combined : ∀ operate, host.combine operate ci1 ci2 = .ok (some number) →
      number.width = ci1.width := by
    intro operate folded
    rcases combine_cases host operate ci1 ci2 with ⟨other, result, same⟩ | ⟨stops, -⟩
    · obtain rfl : other = number := by simpa [result] using folded
      exact same
    · simp [stops] at folded
  cases op <;> simp only [Host.fold, Except.ok.injEq, reduceCtorEq] at folded
  case UDiv | SDiv =>
    rcases quotient_cases host ci1 ci2 with
      ⟨zero, -⟩ | ⟨other, result, same⟩ | ⟨stops, -⟩ | ⟨stops, -⟩
    · simp [zero] at folded
    · obtain rfl : other = number := by simpa [result] using folded
      exact same
    · simp [stops] at folded
    · simp [stops] at folded
  all_goals exact combined _ folded

theorem signExtend_eq_zero_iff (fits : width ≤ 64) (value : BitVec width) :
    value.signExtend 64 = 0#64 ↔ value = BitVec.ofNat width 0 := by
  rw [← BitVec.toInt_inj, BitVec.toInt_signExtend_of_le fits, ← BitVec.toInt_inj]
  simp

theorem signExtend_overflow_iff (fits : width ≤ 64) (left right : BitVec width) (nonzero : right ≠ 0) :
    (left.signExtend 64 = BitVec.intMin 64 ∧ right.signExtend 64 = -1) ↔
      width = 64 ∧ left = BitVec.intMin width ∧ right = -1 := by
  constructor
  · rintro ⟨least, minusOne⟩
    have reading : left.toInt = -2 ^ 63 := by
      rw [← BitVec.toInt_signExtend_of_le fits, least]
      decide
    have full : width = 64 := by
      by_contra narrow
      have low := left.le_toInt
      have small : (2 : Int) ^ (width - 1) ≤ 2 ^ 62 := pow_le_pow_right₀ (by omega) (by omega)
      omega
    subst full
    simpa using And.intro least minusOne
  · rintro ⟨rfl, rfl, rfl⟩
    decide

theorem toNat_signExtend_amount (fits : width ≤ 64) {amount : BitVec width}
    (inRange : amount.toNat < width) : (amount.signExtend 64).toNat = amount.toNat := by
  have half : width - 1 < 2 ^ (width - 1) := Nat.lt_two_pow_self
  have double : 2 ^ width = 2 * 2 ^ (width - 1) := by
    rw [← Nat.pow_succ', Nat.succ_eq_add_one, Nat.sub_add_cancel (by omega)]
  have positive : 0 ≤ amount.toInt := by
    rw [Truncation.toInt_nonneg_iff]
    omega
  exact Truncation.toNat_signExtend_of_nonneg fits positive

end Reading

section Results

variable (host : Host) {width : Nat} (fits : width ≤ 64) (left right : BitVec width)
include fits

theorem fold_shl (inRange : right.toNat < width) :
    host.fold .Shl ⟨width, left⟩ ⟨width, right⟩ = .ok (some ⟨width, left <<< right.toNat⟩) := by
  have amount := toNat_signExtend_amount fits inRange
  rw [Host.fold, combine_of_le host fits, Host.shiftLeft, amount, if_pos (by omega),
    Truncation.setWidth_shiftLeft fits]

theorem fold_lshr (inRange : right.toNat < width) :
    host.fold .LShr ⟨width, left⟩ ⟨width, right⟩ =
      .ok (some ⟨width, left.sshiftRight right.toNat⟩) := by
  have amount := toNat_signExtend_amount fits inRange
  rw [Host.fold, combine_of_le host fits, Host.shiftRight, amount, if_pos (by omega),
    Truncation.setWidth_sshiftRight fits]

theorem fold_division {op : BinaryOps} (division : op = .UDiv ∨ op = .SDiv) :
    host.fold op ⟨width, left⟩ ⟨width, right⟩ =
      if right = 0 then .ok none
      else if width = 64 ∧ left = BitVec.intMin width ∧ right = -1 then .error .divisionOverflow
      else .ok (some ⟨width, BitVec.ofInt width (left.toInt.tdiv right.toInt)⟩) := by
  have unfolded : host.fold op ⟨width, left⟩ ⟨width, right⟩ =
      if right.signExtend 64 ≠ 0 then
        (Host.divide (left.signExtend 64) (right.signExtend 64)).map
          fun quotient => some (getConst width quotient)
      else .ok none := by
    rcases division with rfl | rfl <;>
      exact quotient_of_ok host (getSExtValue_of_le host fits left) (getSExtValue_of_le host fits right)
  rw [unfolded]
  by_cases zero : right = 0
  · rw [if_pos zero, if_neg]
    simpa [signExtend_eq_zero_iff fits] using zero
  · rw [if_neg zero, if_pos (by simpa [signExtend_eq_zero_iff fits] using zero)]
    have overflows := signExtend_overflow_iff fits left right zero
    by_cases overflow : left.signExtend 64 = BitVec.intMin 64 ∧ right.signExtend 64 = -1
    · rw [Host.divide, if_pos overflow, if_pos (overflows.mp overflow)]
      rfl
    · rw [Host.divide, if_neg overflow, if_neg (fun bad => overflow (overflows.mpr bad))]
      have apart : left.signExtend 64 ≠ BitVec.intMin 64 ∨ right.signExtend 64 ≠ -1#64 := by
        rw [← not_and_or]
        exact overflow
      show Except.ok (some (getConst width _)) = _
      rw [getConst, Truncation.setWidth_sdiv fits _ _ apart]

end Results

section Instructions

variable (constants : Constants) (host : Host) (overShift : OverShift)

theorem foldConstants_of_constants {inst : Inst} {op : BinaryOps} {ci1 ci2 : APInt}
    (shape : inst.shape = .binary op (constants.ofInt ci1) (constants.ofInt ci2)) :
    foldConstants constants host inst = (host.fold op ci1 ci2).map (Option.map constants.ofInt) := by
  simp only [foldConstants, shape, Constants.constantInt_ofInt]

/-- Wrapping arithmetic on sign-extended operands is modular arithmetic after the cut. -/
theorem foldConstants_modular {op : BinaryOps}
    (modular : op = .Add ∨ op = .Sub ∨ op = .Mul ∨ op = .Shl) {width : Nat} (fits : width ≤ 64)
    (left right : BitVec width) (inRange : op = .Shl → right.toNat < width) {inst : Inst}
    (shape : inst.shape =
      .binary op (constants.ofInt ⟨width, left⟩) (constants.ofInt ⟨width, right⟩)) :
    ∃ result, op.apply overShift left right = some result ∧
      foldConstants constants host inst = .ok (some (constants.ofInt ⟨width, result⟩)) := by
  rw [foldConstants_of_constants constants host shape]
  rcases modular with rfl | rfl | rfl | rfl
  · refine ⟨left + right, rfl, ?_⟩
    rw [Host.fold, combine_of_le host fits, Truncation.setWidth_add fits]
    rfl
  · refine ⟨left - right, rfl, ?_⟩
    rw [Host.fold, combine_of_le host fits, Truncation.setWidth_sub fits]
    rfl
  · refine ⟨left * right, rfl, ?_⟩
    rw [Host.fold, combine_of_le host fits, Truncation.setWidth_mul fits]
    rfl
  · refine ⟨left <<< right.toNat, by simp [BinaryOps.apply, inRange rfl], ?_⟩
    rw [fold_shl host fits left right (inRange rfl)]
    rfl

def sampleHost : Host := ⟨true, fun _ left _ => left⟩

def sampleOverShift : OverShift := fun _ _ left _ => left

def constantInst (op : BinaryOps) {width : Nat} (left right : BitVec width) : Inst where
  id := 0
  name := "folded"
  shape := .binary op (Constants.standard.ofInt ⟨width, left⟩)
    (Constants.standard.ofInt ⟨width, right⟩)

theorem foldConstants_modular_product :
    ∃ result, BinaryOps.Mul.apply sampleOverShift 100#8 253#8 = some result ∧
      foldConstants .standard sampleHost (constantInst .Mul 100#8 253#8) =
        .ok (some (Constants.standard.ofInt ⟨8, result⟩)) :=
  foldConstants_modular .standard sampleHost sampleOverShift (by decide) (by decide) 100#8 253#8
    (by decide) rfl

def SignSafe (op : BinaryOps) {width : Nat} (left right : BitVec width) : Prop :=
  match op with
  | .UDiv =>
      right = 0 ∨ (0 ≤ left.toInt ∧ 0 ≤ right.toInt) ∨ right.toNat = 1 ∨
        left.toNat = right.toNat ∨ (0 ≤ left.toInt ∧ left.toInt < -right.toInt)
  | .SDiv => ¬ (width = 64 ∧ left = BitVec.intMin width ∧ right = -1)
  | .LShr => width ≤ right.toNat ∨ 0 ≤ left.toInt ∨ right.toNat = 0
  | _ => True

/-- What folding an instruction with constant operands should do: give its result where it
is defined, and not overflow the host's division. -/
def FoldsRight (op : BinaryOps) {width : Nat} (left right : BitVec width)
    (folded : Except Fault (Option Value)) : Prop :=
  (∀ result, op.apply overShift left right = some result →
    (op = .LShr → right.toNat < width) → folded = .ok (some (constants.ofInt ⟨width, result⟩))) ∧
  folded ≠ .error .divisionOverflow

section FoldsRight

variable {constants overShift} {op : BinaryOps} {width : Nat} {left right : BitVec width}

theorem foldsRight_iff_eq {folded result : BitVec width}
    (defined : op.apply overShift left right = some result)
    (inRange : op = .LShr → right.toNat < width) :
    FoldsRight constants overShift op left right (.ok (some (constants.ofInt ⟨width, folded⟩))) ↔
      folded = result := by
  constructor
  · rintro ⟨gives, -⟩
    have same := constants.ofInt_injective (Option.some.inj (Except.ok.inj (gives _ defined inRange)))
    simpa using same
  · rintro rfl
    refine ⟨?_, by simp⟩
    intro result other _
    rw [Option.some.inj (defined.symm.trans other)]

theorem foldsRight_of_undefined {folded : Option Value}
    (undefined : op.apply overShift left right = none ∨ op = .LShr ∧ width ≤ right.toNat) :
    FoldsRight constants overShift op left right (.ok folded) := by
  refine ⟨?_, by simp⟩
  intro result defined inRange
  rcases undefined with none | ⟨isShift, beyond⟩
  · simp [none] at defined
  · have := inRange isShift
    omega

theorem not_foldsRight_overflow :
    ¬ FoldsRight constants overShift op left right (.error .divisionOverflow) :=
  fun folds => folds.2 rfl

end FoldsRight

theorem foldsRight_udiv_iff {width : Nat} (fits : width ≤ 64) (left right : BitVec width) :
    FoldsRight constants overShift .UDiv left right
        ((host.fold .UDiv ⟨width, left⟩ ⟨width, right⟩).map (Option.map constants.ofInt)) ↔
      SignSafe .UDiv left right := by
  rw [fold_division host fits left right (Or.inl rfl)]
  by_cases zero : right = 0
  · rw [if_pos zero]
    exact iff_of_true (foldsRight_of_undefined (Or.inl (if_pos zero))) (Or.inl zero)
  · have nonzero : right.toNat ≠ 0 := fun none => zero (BitVec.eq_of_toNat_eq (by simpa using none))
    rw [if_neg zero]
    by_cases overflow : width = 64 ∧ left = BitVec.intMin width ∧ right = -1
    · rw [if_pos overflow]
      obtain ⟨rfl, rfl, rfl⟩ := overflow
      refine iff_of_false not_foldsRight_overflow ?_
      simp only [SignSafe]
      decide
    · rw [if_neg overflow]
      have defined : BinaryOps.apply overShift .UDiv left right = some (left / right) :=
        if_neg zero
      refine (foldsRight_iff_eq defined (by simp)).trans ?_
      rw [Truncation.ofInt_tdiv_eq_udiv_iff left right nonzero]
      exact (or_iff_right zero).symm

theorem foldsRight_sdiv_iff {width : Nat} (fits : width ≤ 64) (left right : BitVec width) :
    FoldsRight constants overShift .SDiv left right
        ((host.fold .SDiv ⟨width, left⟩ ⟨width, right⟩).map (Option.map constants.ofInt)) ↔
      SignSafe .SDiv left right := by
  rw [fold_division host fits left right (Or.inr rfl)]
  by_cases zero : right = 0
  · rw [if_pos zero]
    refine iff_of_true (foldsRight_of_undefined (Or.inl (if_pos (Or.inl zero)))) ?_
    rintro ⟨rfl, -, minusOne⟩
    rw [zero] at minusOne
    exact absurd minusOne (by decide)
  · rw [if_neg zero]
    by_cases overflow : width = 64 ∧ left = BitVec.intMin width ∧ right = -1
    · rw [if_pos overflow]
      exact iff_of_false not_foldsRight_overflow (not_not.mpr overflow)
    · rw [if_neg overflow]
      refine iff_of_true ?_ overflow
      by_cases undefined : right = 0 ∨ left = BitVec.intMin width ∧ right = -1
      · exact foldsRight_of_undefined (Or.inl (if_pos undefined))
      · have defined : BinaryOps.apply overShift .SDiv left right = some (left.sdiv right) :=
          if_neg undefined
        exact (foldsRight_iff_eq defined (by simp)).mpr (Truncation.sdiv_eq_ofInt left right).symm

theorem foldsRight_lshr_iff {width : Nat} (fits : width ≤ 64) (left right : BitVec width) :
    FoldsRight constants overShift .LShr left right
        ((host.fold .LShr ⟨width, left⟩ ⟨width, right⟩).map (Option.map constants.ofInt)) ↔
      SignSafe .LShr left right := by
  by_cases inRange : right.toNat < width
  · rw [fold_lshr host fits left right inRange]
    have defined : BinaryOps.apply overShift .LShr left right = some (left >>> right.toNat) :=
      if_pos inRange
    refine (foldsRight_iff_eq defined (fun _ => inRange)).trans ?_
    rw [Truncation.sshiftRight_eq_ushiftRight_iff left inRange]
    exact (or_iff_right (by omega)).symm
  · have beyond : width ≤ right.toNat := by omega
    rw [Host.fold, combine_of_le host fits]
    exact iff_of_true (foldsRight_of_undefined (Or.inr ⟨rfl, beyond⟩)) (Or.inl beyond)

/-- Folding the operators that depend on signs is right exactly on the operands where the
signed reading does no harm. -/
theorem foldConstants_signed_iff {op : BinaryOps} (signed : op = .UDiv ∨ op = .SDiv ∨ op = .LShr)
    {width : Nat} (fits : width ≤ 64) (left right : BitVec width) {inst : Inst}
    (shape : inst.shape =
      .binary op (constants.ofInt ⟨width, left⟩) (constants.ofInt ⟨width, right⟩)) :
    FoldsRight constants overShift op left right (foldConstants constants host inst) ↔
      SignSafe op left right := by
  rw [foldConstants_of_constants constants host shape]
  rcases signed with rfl | rfl | rfl
  · exact foldsRight_udiv_iff constants host overShift fits left right
  · exact foldsRight_sdiv_iff constants host overShift fits left right
  · exact foldsRight_lshr_iff constants host overShift fits left right

theorem foldConstants_signed_iff_quotient :
    FoldsRight .standard sampleOverShift .SDiv 200#8 3#8
      (foldConstants .standard sampleHost (constantInst .SDiv 200#8 3#8)) :=
  (foldConstants_signed_iff .standard sampleHost sampleOverShift (by decide) (by decide) 200#8 3#8
    rfl).mpr (by simp [SignSafe])

/-- The unsigned quotient of 200 and 3 becomes that of -56 and 3, the logical shift of 200
by 1 an arithmetic one, and one unsigned 64-bit division overflows the host. -/
theorem foldConstants_signed_fails :
    (BinaryOps.UDiv.apply sampleOverShift 200#8 3#8 = some 66#8 ∧
      foldConstants .standard sampleHost (constantInst .UDiv 200#8 3#8) =
        .ok (some (Constants.standard.ofInt ⟨8, 238#8⟩))) ∧
    (BinaryOps.LShr.apply sampleOverShift 200#8 1#8 = some 100#8 ∧
      foldConstants .standard sampleHost (constantInst .LShr 200#8 1#8) =
        .ok (some (Constants.standard.ofInt ⟨8, 228#8⟩))) ∧
    (BinaryOps.UDiv.apply sampleOverShift (BitVec.intMin 64) (-1) = some 0 ∧
      foldConstants .standard sampleHost (constantInst .UDiv (BitVec.intMin 64) (-1)) =
        .error .divisionOverflow) := by
  decide

end Instructions

end LlvmGather
