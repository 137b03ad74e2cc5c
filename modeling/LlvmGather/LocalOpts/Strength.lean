import LlvmGather.LocalOpts.Folding

/-!
Strength reduction of `LocalOpts`: products and quotients by constants near a power of two
become shifts. The constant is read as a signed number and classified by its logarithm.
-/

namespace LlvmGather

def findLogLoop : (rounds n : Nat) → (res : Int) → Int
  | 0, n, res => if n = 1 then res else -1
  | rounds + 1, n, res =>
      if n % 2 = 0 ∧ 1 < n then findLogLoop rounds (n / 2) (res + 1)
      else if n = 1 then res else -1

def findLog (n : BitVec 64) : Int :=
  if n.toInt ≤ 0 then -1 else findLogLoop 64 n.toNat 0

/-- The result of `find_log_improved` and the exponent it leaves behind. -/
def findLogImproved (n : BitVec 64) (exponent : Int) : Int × Int :=
  if n.toInt ≤ 0 then (-1, exponent)
  else if 0 ≤ findLog n then (0, findLog n)
  else if 0 ≤ findLog (n - 1) then (1, findLog (n - 1))
  else if 0 ≤ findLog (n + 1) then (-1, findLog (n + 1))
  else (-2, findLog (n + 1))

/-- The instructions put in the place of one: a shift of an operand and, with `finish`,
the combination of what was shifted with the operand. -/
structure Reduction where
  shift : BinaryOps
  operand : Value
  amount : APInt
  finish : Option BinaryOps
deriving DecidableEq, Repr

def multiplier (constants : Constants) (val1 val2 : Value) : Value :=
  if constants.classof val1 then val1 else val2

def multiplicand (constants : Constants) (val1 val2 : Value) : Value :=
  if constants.classof val1 then val2 else val1

def reduceProduct (host : Host) (val1 : Value) (ci2 : APInt) : Except Fault (Option Reduction) :=
  (host.getSExtValue ci2).map fun n =>
    let (checkPow, logI) := findLogImproved n 0
    let amount := getConst ci2.width (BitVec.ofInt 64 logI)
    if checkPow ≠ -2 then
      if checkPow = 0 then some ⟨.Shl, val1, amount, none⟩
      else if checkPow = 1 then some ⟨.Shl, val1, amount, some .Add⟩
      else some ⟨.Shl, val1, amount, some .Sub⟩
    else none

def reduceQuotient (host : Host) (val1 : Value) (ci2 : APInt) : Except Fault (Option Reduction) :=
  (host.getSExtValue ci2).map fun n =>
    let logI := findLog n
    if 0 ≤ logI then some ⟨.LShr, val1, getConst ci2.width (BitVec.ofInt 64 logI), none⟩ else none

/-- What `strength_reduction` puts in the place of an instruction. -/
def reduceStrength (constants : Constants) (host : Host) (inst : Inst) :
    Except Fault (Option Reduction) :=
  match inst.shape with
  | .binary .Mul val1 val2 =>
      match constants.constantInt (multiplier constants val1 val2) with
      | some ci2 => reduceProduct host (multiplicand constants val1 val2) ci2
      | none => .ok none
  | .binary .UDiv val1 val2 | .binary .SDiv val1 val2 =>
      match constants.constantInt val2 with
      | some ci2 => reduceQuotient host val1 ci2
      | none => .ok none
  | _ => .ok none

def Reduction.eval (constants : Constants) (overShift : OverShift) {width : Nat}
    (value : Value → BitVec width) (reduction : Reduction) : Option (BitVec width) := do
  let shifted ← reduction.shift.apply overShift (value reduction.operand)
    (value (constants.ofInt reduction.amount))
  match reduction.finish with
  | some op => op.apply overShift shifted (value reduction.operand)
  | none => return shifted

section Logarithm

theorem findLogLoop_cases (rounds n : Nat) (res : Int) (positive : 0 < n) (small : n ≤ 2 ^ rounds) :
    (∃ exponent : Nat, n = 2 ^ exponent ∧ findLogLoop rounds n res = res + exponent) ∨
      ((∀ exponent, n ≠ 2 ^ exponent) ∧ findLogLoop rounds n res = -1) := by
  induction rounds generalizing n res with
  | zero =>
      obtain rfl : n = 1 := by omega
      exact Or.inl ⟨0, rfl, by simp [findLogLoop]⟩
  | succ rounds ih =>
      by_cases halved : n % 2 = 0 ∧ 1 < n
      · have double : n = 2 * (n / 2) := by omega
        rw [findLogLoop, if_pos halved]
        rw [Nat.pow_succ] at small
        rcases ih (n / 2) (res + 1) (by omega) (by omega) with ⟨exponent, power, result⟩ | ⟨none, result⟩
        · refine Or.inl ⟨exponent + 1, ?_, ?_⟩
          · rw [Nat.pow_succ, ← power]
            omega
          · rw [result]
            omega
        · refine Or.inr ⟨?_, result⟩
          rintro (_ | exponent) power
          · omega
          · apply none exponent
            rw [Nat.pow_succ] at power
            omega
      · rw [findLogLoop, if_neg halved]
        by_cases one : n = 1
        · exact Or.inl ⟨0, one, by simp [one]⟩
        · refine Or.inr ⟨?_, if_neg one⟩
          rintro (_ | exponent) power
          · exact one power
          · rw [Nat.pow_succ] at power
            omega

theorem findLog_cases (n : BitVec 64) :
    (∃ exponent : Nat, 0 < n.toInt ∧ n.toNat = 2 ^ exponent ∧ findLog n = exponent) ∨
      (¬ (0 < n.toInt ∧ ∃ exponent, n.toNat = 2 ^ exponent) ∧ findLog n = -1) := by
  by_cases positive : n.toInt ≤ 0
  · exact Or.inr ⟨by omega, if_pos positive⟩
  · have bits := (Truncation.toInt_nonneg_iff n).mp (by omega)
    have nonzero : n.toNat ≠ 0 := by
      rw [Truncation.toInt_nonneg n bits] at positive
      omega
    rw [findLog, if_neg positive]
    rcases findLogLoop_cases 64 n.toNat 0 (by omega) n.isLt.le with
      ⟨exponent, power, result⟩ | ⟨none, result⟩
    · exact Or.inl ⟨exponent, by omega, power, by omega⟩
    · exact Or.inr ⟨fun found => none _ found.2.choose_spec, result⟩

theorem findLog_nonneg {n : BitVec 64} (found : 0 ≤ findLog n) :
    ∃ exponent : Nat, 0 < n.toInt ∧ n.toNat = 2 ^ exponent ∧ findLog n = exponent := by
  rcases findLog_cases n with power | ⟨-, none⟩
  · exact power
  · omega

theorem findLogImproved_cases {n : BitVec 64} {start checkPow exponent : Int}
    (result : findLogImproved n start = (checkPow, exponent)) (known : checkPow ≠ -2) :
    (n.toInt ≤ 0 ∧ checkPow = -1 ∧ exponent = start) ∨
      (0 < n.toInt ∧ ∃ log : Nat, exponent = log ∧
        (checkPow = 0 ∧ n.toNat = 2 ^ log ∨ checkPow = 1 ∧ n.toNat = 2 ^ log + 1 ∨
          checkPow = -1 ∧ n.toNat + 1 = 2 ^ log)) := by
  have bound := n.isLt
  rw [findLogImproved] at result
  by_cases positive : n.toInt ≤ 0
  · rw [if_pos positive] at result
    obtain ⟨rfl, rfl⟩ := Prod.mk.inj result
    exact Or.inl ⟨positive, rfl, rfl⟩
  · have low := (Truncation.toInt_nonneg_iff n).mp (by omega)
    have nonzero : 0 < n.toNat := by
      rw [Truncation.toInt_nonneg n low] at positive
      omega
    refine Or.inr ⟨by omega, ?_⟩
    rw [if_neg positive] at result
    split at result
    · next here =>
        obtain ⟨log, -, power, value⟩ := findLog_nonneg here
        obtain ⟨rfl, rfl⟩ := Prod.mk.inj result
        exact ⟨log, value, Or.inl ⟨rfl, power⟩⟩
    split at result
    · next below =>
        obtain ⟨log, -, power, value⟩ := findLog_nonneg below
        obtain ⟨rfl, rfl⟩ := Prod.mk.inj result
        refine ⟨log, value, Or.inr (Or.inl ⟨rfl, ?_⟩)⟩
        have one : (1 : BitVec 64) ≤ n := nonzero
        rw [BitVec.toNat_sub_of_le one] at power
        simp only [BitVec.toNat_ofNat, BitVec.ofNat_eq_ofNat] at power
        omega
    split at result
    · next above =>
        obtain ⟨log, -, power, value⟩ := findLog_nonneg above
        obtain ⟨rfl, rfl⟩ := Prod.mk.inj result
        refine ⟨log, value, Or.inr (Or.inr ⟨rfl, ?_⟩)⟩
        rw [BitVec.toNat_add] at power
        simp only [BitVec.toNat_ofNat, BitVec.ofNat_eq_ofNat] at power
        omega
    · exact absurd (Prod.mk.inj result).1.symm known

end Logarithm

section Values

variable {width : Nat}

theorem getConst_log {log : Nat} (fits : width ≤ 64) (bound : log < width) :
    ∃ amount : BitVec width, getConst width (BitVec.ofInt 64 log) = ⟨width, amount⟩ ∧
      amount.toNat = log := by
  refine ⟨_, rfl, ?_⟩
  have small : log < 2 ^ width := Nat.lt_trans bound Nat.lt_two_pow_self
  rw [BitVec.ofInt_natCast, BitVec.toNat_setWidth, BitVec.toNat_ofNat,
    Nat.mod_eq_of_lt (by omega : log < 2 ^ 64), Nat.mod_eq_of_lt small]

theorem log_lt_width {factor : BitVec width} {log : Nat} (positive : 0 < factor.toInt)
    (near : 2 ^ log ≤ factor.toNat + 1) : log < width := by
  have low := (Truncation.toInt_nonneg_iff factor).mp positive.le
  rw [Truncation.toInt_nonneg factor low] at positive
  by_contra beyond
  have large : 2 ^ width ≤ 2 ^ log := Nat.pow_le_pow_right (by omega) (by omega)
  omega

inductive ProductShape (factor amount : BitVec width) : Option BinaryOps → Prop
  | notPositive : factor.toInt ≤ 0 → amount = 0 → ProductShape factor amount (some .Sub)
  | power : 0 < factor.toInt → amount.toNat < width → factor.toNat = 2 ^ amount.toNat →
      ProductShape factor amount none
  | above : 0 < factor.toInt → amount.toNat < width → factor.toNat = 2 ^ amount.toNat + 1 →
      ProductShape factor amount (some .Add)
  | below : 0 < factor.toInt → amount.toNat < width → factor.toNat + 1 = 2 ^ amount.toNat →
      ProductShape factor amount (some .Sub)

theorem reduceProduct_shape (host : Host) (fits : width ≤ 64) {val1 : Value}
    {factor : BitVec width} {reduction : Reduction}
    (reduced : reduceProduct host val1 ⟨width, factor⟩ = .ok (some reduction)) :
    ∃ amount finish, reduction = ⟨.Shl, val1, ⟨width, amount⟩, finish⟩ ∧
      ProductShape factor amount finish := by
  obtain ⟨⟨checkPow, exponent⟩, result⟩ :
      ∃ found, findLogImproved (factor.signExtend 64) 0 = found := ⟨_, rfl⟩
  rw [reduceProduct, getSExtValue_of_le host fits] at reduced
  simp only [Except.map, result, Except.ok.injEq, ne_eq, ite_not] at reduced
  obtain ⟨known, reduced⟩ := Option.ite_none_left_eq_some.mp reduced
  have signs := BitVec.toInt_signExtend_of_le (x := factor) fits
  rcases findLogImproved_cases result known with ⟨sign, rfl, rfl⟩ | ⟨sign, log, rfl, found⟩
  · refine ⟨0, some .Sub, ?_, .notPositive (by omega) rfl⟩
    simpa [getConst] using reduced.symm
  · rw [signs] at sign
    rw [Truncation.toNat_signExtend_of_nonneg fits sign.le] at found
    have bound : log < width := log_lt_width sign (by omega)
    obtain ⟨amount, same, rfl⟩ := getConst_log fits bound
    rw [same] at reduced
    rcases found with ⟨rfl, power⟩ | ⟨rfl, above⟩ | ⟨rfl, below⟩
    · exact ⟨amount, none, by simpa using reduced.symm, .power sign bound power⟩
    · exact ⟨amount, some .Add, by simpa using reduced.symm, .above sign bound above⟩
    · exact ⟨amount, some .Sub, by simpa using reduced.symm, .below sign bound below⟩

theorem reduceQuotient_shape (host : Host) (fits : width ≤ 64) {val1 : Value}
    {divisor : BitVec width} {reduction : Reduction}
    (reduced : reduceQuotient host val1 ⟨width, divisor⟩ = .ok (some reduction)) :
    ∃ amount : BitVec width, reduction = ⟨.LShr, val1, ⟨width, amount⟩, none⟩ ∧
      0 < divisor.toInt ∧ amount.toNat < width ∧ divisor.toNat = 2 ^ amount.toNat := by
  rw [reduceQuotient, getSExtValue_of_le host fits] at reduced
  obtain ⟨found, reduced⟩ := Option.ite_none_right_eq_some.mp (Except.ok.inj reduced)
  obtain ⟨log, sign, power, value⟩ := findLog_nonneg found
  rw [BitVec.toInt_signExtend_of_le fits] at sign
  rw [Truncation.toNat_signExtend_of_nonneg fits sign.le] at power
  have bound : log < width := log_lt_width sign (by omega)
  obtain ⟨amount, same, rfl⟩ := getConst_log fits bound
  rw [value, same] at reduced
  exact ⟨amount, (Option.some.inj reduced).symm, sign, bound, power⟩

theorem eq_twoPow {number : BitVec width} {log : Nat} (power : number.toNat = 2 ^ log) :
    number = BitVec.twoPow width log := by
  apply BitVec.eq_of_toNat_eq
  rw [BitVec.toNat_twoPow, ← power, Nat.mod_eq_of_lt number.isLt]

theorem eq_twoPow_add_one {number : BitVec width} {log : Nat} (inhabited : 1 ≤ width)
    (above : number.toNat = 2 ^ log + 1) :
    number = BitVec.twoPow width log + BitVec.ofNat width 1 := by
  have bound := number.isLt
  have one : 1 % 2 ^ width = 1 := Nat.mod_eq_of_lt (Nat.one_lt_two_pow (by omega))
  apply BitVec.eq_of_toNat_eq
  rw [BitVec.toNat_add, BitVec.toNat_twoPow, BitVec.toNat_ofNat, one,
    Nat.mod_eq_of_lt (by omega : 2 ^ log < 2 ^ width), ← above, Nat.mod_eq_of_lt bound]

theorem add_one_eq_twoPow {number : BitVec width} {log : Nat} (inhabited : 1 ≤ width)
    (below : number.toNat + 1 = 2 ^ log) :
    number + BitVec.ofNat width 1 = BitVec.twoPow width log := by
  have one : 1 % 2 ^ width = 1 := Nat.mod_eq_of_lt (Nat.one_lt_two_pow (by omega))
  apply BitVec.eq_of_toNat_eq
  rw [BitVec.toNat_add, BitVec.toNat_twoPow, BitVec.toNat_ofNat, one, below]

end Values

section Instructions

theorem reduceStrength_cases (constants : Constants) (host : Host) (inst : Inst) :
    reduceStrength constants host inst = .ok none ∨
      (∃ val1 val2 ci2, inst.shape = .binary .Mul val1 val2 ∧
        constants.constantInt (multiplier constants val1 val2) = some ci2 ∧
        reduceStrength constants host inst =
          reduceProduct host (multiplicand constants val1 val2) ci2) ∨
      ∃ op val1 val2 ci2, (op = .UDiv ∨ op = .SDiv) ∧ inst.shape = .binary op val1 val2 ∧
        constants.constantInt val2 = some ci2 ∧
        reduceStrength constants host inst = reduceQuotient host val1 ci2 := by
  unfold reduceStrength
  split
  · next val1 val2 shape =>
      split
      · next ci2 found => exact Or.inr (Or.inl ⟨val1, val2, ci2, shape, found, rfl⟩)
      · exact Or.inl rfl
  · next val1 val2 shape =>
      split
      · next ci2 found => exact Or.inr (Or.inr ⟨_, val1, val2, ci2, Or.inl rfl, shape, found, rfl⟩)
      · exact Or.inl rfl
  · next val1 val2 shape =>
      split
      · next ci2 found => exact Or.inr (Or.inr ⟨_, val1, val2, ci2, Or.inr rfl, shape, found, rfl⟩)
      · exact Or.inl rfl
  · exact Or.inl rfl

theorem reduceProduct_cases (host : Host) (val : Value) (ci2 : APInt) :
    (∀ other, reduceProduct host other ci2 = .ok none) ∨
      (∃ amount finish, reduceProduct host val ci2 = .ok (some ⟨.Shl, val, amount, finish⟩) ∧
        (finish = none ∨ finish = some .Add ∨ finish = some .Sub)) ∨
      (reduceProduct host val ci2 = .error .tooManyBits ∧ host.assertions = true ∧ TooWide ci2) := by
  rcases getSExtValue_cases host ci2 with reads | ⟨fails, asserts, wide⟩
  · simp only [reduceProduct, reads, Except.map]
    by_cases known : (findLogImproved (ci2.value.signExtend 64) 0).1 = -2
    · simp [known]
    · refine Or.inr (Or.inl ?_)
      simp only [known, ne_eq, not_false_eq_true, if_true]
      split_ifs
      · exact ⟨_, none, rfl, by simp⟩
      · exact ⟨_, some .Add, rfl, by simp⟩
      · exact ⟨_, some .Sub, rfl, by simp⟩
  · exact Or.inr (Or.inr ⟨by simp only [reduceProduct, fails, Except.map], asserts, wide⟩)

theorem reduceQuotient_cases (host : Host) (val : Value) (ci2 : APInt) :
    (∀ other, reduceQuotient host other ci2 = .ok none) ∨
      (∃ amount, reduceQuotient host val ci2 = .ok (some ⟨.LShr, val, amount, none⟩) ∧
        host.getSExtValue ci2 ≠ .ok 0) ∨
      (reduceQuotient host val ci2 = .error .tooManyBits ∧ host.assertions = true ∧ TooWide ci2) := by
  rcases getSExtValue_cases host ci2 with reads | ⟨fails, asserts, wide⟩
  · simp only [reduceQuotient, reads, Except.map]
    by_cases found : 0 ≤ findLog (ci2.value.signExtend 64)
    · refine Or.inr (Or.inl ⟨_, by rw [if_pos found], ?_⟩)
      intro zero
      rw [Except.ok.inj zero] at found
      exact absurd found (by decide)
    · exact Or.inl fun other => by rw [if_neg found]
  · exact Or.inr (Or.inr ⟨by simp only [reduceQuotient, fails, Except.map], asserts, wide⟩)

end Instructions

section Meaning

variable {constants : Constants} {overShift : OverShift} {width : Nat} {value : Value → BitVec width}
variable (reads : ∀ number, value (constants.ofInt ⟨width, number⟩) = number)
include reads

theorem eval_product_iff (inhabited : 1 ≤ width) {val1 : Value} {factor amount : BitVec width}
    {finish : Option BinaryOps} (shape : ProductShape factor amount finish) :
    Reduction.eval constants overShift value ⟨.Shl, val1, ⟨width, amount⟩, finish⟩ =
        some (value val1 * factor) ↔
      0 ≤ factor.toInt ∨ value val1 * factor = 0 := by
  cases shape with
  | notPositive sign zero =>
      have zeroResult : Reduction.eval constants overShift value
          ⟨.Shl, val1, ⟨width, amount⟩, some .Sub⟩ = some 0 := by
        simp [Reduction.eval, reads, BinaryOps.apply, zero, Nat.lt_of_lt_of_le Nat.zero_lt_one inhabited]
      rw [zeroResult, Option.some.injEq, eq_comm]
      refine (or_iff_right_of_imp ?_).symm
      intro nonneg
      have zeroFactor : factor = 0 := BitVec.eq_of_toInt_eq (by simp; omega)
      simp [zeroFactor]
  | power sign bound power =>
      refine iff_of_true ?_ (Or.inl sign.le)
      simp [Reduction.eval, reads, BinaryOps.apply, bound, eq_twoPow power,
        BitVec.mul_twoPow_eq_shiftLeft]
  | above sign bound above =>
      refine iff_of_true ?_ (Or.inl sign.le)
      rw [eq_twoPow_add_one inhabited above, BitVec.mul_add, BitVec.mul_twoPow_eq_shiftLeft,
        BitVec.mul_one]
      simp [Reduction.eval, reads, BinaryOps.apply, bound]
  | below sign bound below =>
      refine iff_of_true ?_ (Or.inl sign.le)
      have product : value val1 <<< amount.toNat - value val1 = value val1 * factor := by
        rw [← BitVec.mul_twoPow_eq_shiftLeft, ← add_one_eq_twoPow inhabited below, BitVec.mul_add,
          BitVec.mul_one, BitVec.add_sub_cancel]
      simp [Reduction.eval, reads, BinaryOps.apply, bound, product]

/-- A product that is replaced keeps its value exactly if the constant factor is not
negative or the product is zero anyway. -/
theorem reduceStrength_product_iff (host : Host) (inhabited : 1 ≤ width) (fits : width ≤ 64)
    {inst : Inst} {val1 val2 : Value} (shape : inst.shape = .binary .Mul val1 val2)
    (typed : ∀ number, constants.constantInt (multiplier constants val1 val2) = some number →
      number.width = width)
    {reduction : Reduction} (replaced : reduceStrength constants host inst = .ok (some reduction)) :
    reduction.eval constants overShift value = some (value val1 * value val2) ↔
      0 ≤ (value (multiplier constants val1 val2)).toInt ∨ value val1 * value val2 = 0 := by
  have product : value val1 * value val2 =
      value (multiplicand constants val1 val2) * value (multiplier constants val1 val2) := by
    unfold multiplicand multiplier
    split
    · exact BitVec.mul_comm _ _
    · rfl
  rw [product]
  simp only [reduceStrength, shape] at replaced
  split at replaced
  · next number found =>
      obtain ⟨factorWidth, factor⟩ := number
      obtain rfl : factorWidth = width := typed _ found
      obtain ⟨amount, finish, rfl, shaped⟩ := reduceProduct_shape host fits replaced
      rw [constants.eq_ofInt found, reads]
      exact eval_product_iff reads inhabited shaped
  · simp at replaced

end Meaning

def sampleValue {width : Nat} (x : BitVec width) (value : Value) : BitVec width :=
  match Constants.standard.constantInt value with
  | some number => number.value.setWidth width
  | none => x

theorem sampleValue_constant {width : Nat} (x number : BitVec width) :
    sampleValue x (Constants.standard.ofInt ⟨width, number⟩) = number := by
  simp [sampleValue]

def argumentInst (op : BinaryOps) {width : Nat} (number : BitVec width) : Inst where
  id := 0
  name := "reduced"
  shape := .binary op (.arg 0) (Constants.standard.ofInt ⟨width, number⟩)

theorem reduceStrength_product_iff_seven :
    Reduction.eval .standard sampleOverShift (sampleValue 5#8)
        ⟨.Shl, .arg 0, ⟨8, 3#8⟩, some .Sub⟩ =
      some (sampleValue 5#8 (.arg 0) * sampleValue 5#8 (Constants.standard.ofInt ⟨8, 7#8⟩)) :=
  (reduceStrength_product_iff (sampleValue_constant 5#8) sampleHost (by decide) (by decide)
    (rfl : (argumentInst .Mul 7#8).shape = _) (by decide) (by decide)).mpr (by decide)

/-- A product with -1 is replaced by the difference of the operand and itself. -/
theorem reduceStrength_product_fails :
    reduceStrength .standard sampleHost (argumentInst .Mul (-1 : BitVec 32)) =
      .ok (some ⟨.Shl, .arg 0, ⟨32, 0⟩, some .Sub⟩) ∧
    Reduction.eval .standard sampleOverShift (sampleValue 1#32)
      ⟨.Shl, .arg 0, ⟨32, 0⟩, some .Sub⟩ = some 0 ∧
    1#32 * (-1) ≠ 0 := by
  decide

theorem divisor_of_replaced {constants : Constants} (host : Host) {inst : Inst} {op : BinaryOps}
    (division : op = .UDiv ∨ op = .SDiv) {val1 val2 : Value}
    (shape : inst.shape = .binary op val1 val2) {reduction : Reduction}
    (replaced : reduceStrength constants host inst = .ok (some reduction)) :
    ∃ number, constants.constantInt val2 = some number ∧
      reduceQuotient host val1 number = .ok (some reduction) := by
  rcases reduceStrength_cases constants host inst with
    none | ⟨_, _, _, product, -⟩ | ⟨_, _, _, number, -, sameShape, found, same⟩
  · simp [none] at replaced
  · rcases division with rfl | rfl <;> simp [shape] at product
  · obtain ⟨rfl, rfl, rfl⟩ := Shape.binary.inj (shape.symm.trans sameShape)
    exact ⟨number, found, same ▸ replaced⟩

theorem sdiv_apply_of_positive (overShift : OverShift) {width : Nat} (dividend : BitVec width)
    {divisor : BitVec width} (positive : 0 < divisor.toInt) :
    BinaryOps.SDiv.apply overShift dividend divisor = some (dividend.sdiv divisor) := by
  refine if_neg ?_
  rintro (rfl | ⟨-, minusOne⟩)
  · simp at positive
  · have negative : divisor.toInt ≤ 0 := by
      rw [minusOne, show (-1 : BitVec width) = BitVec.allOnes width from BitVec.neg_one_eq_allOnes,
        BitVec.toInt_allOnes]
      split <;> omega
    omega

section Meaning

variable {constants : Constants} {overShift : OverShift} {width : Nat} {value : Value → BitVec width}
variable (reads : ∀ number, value (constants.ofInt ⟨width, number⟩) = number)
include reads

/-- The shift that replaces a quotient keeps the value exactly if the division is unsigned,
the divisor is one or the dividend is not negative. -/
theorem reduceStrength_quotient_iff (host : Host) (fits : width ≤ 64)
    {inst : Inst} {op : BinaryOps} (division : op = .UDiv ∨ op = .SDiv) {val1 val2 : Value}
    (shape : inst.shape = .binary op val1 val2)
    (typed : ∀ number, constants.constantInt val2 = some number → number.width = width)
    {reduction : Reduction} (replaced : reduceStrength constants host inst = .ok (some reduction)) :
    reduction.eval constants overShift value = op.apply overShift (value val1) (value val2) ↔
      op = .UDiv ∨ (value val2).toNat = 1 ∨ 0 ≤ (value val1).toInt := by
  obtain ⟨⟨divisorWidth, divisor⟩, found, reduced⟩ := divisor_of_replaced host division shape replaced
  obtain rfl : divisorWidth = width := typed _ found
  obtain ⟨amount, rfl, sign, bound, power⟩ := reduceQuotient_shape host fits reduced
  rw [constants.eq_ofInt found, reads]
  have shifted : Reduction.eval constants overShift value ⟨.LShr, val1, ⟨_, amount⟩, none⟩ =
      some (value val1 >>> amount.toNat) := by
    simp [Reduction.eval, reads, BinaryOps.apply, bound]
  have nonzero : divisor ≠ 0 := by
    rintro rfl
    simp at sign
  rw [shifted]
  rcases division with rfl | rfl
  · refine iff_of_true ?_ (Or.inl rfl)
    rw [Truncation.ushiftRight_eq_udiv _ divisor power]
    exact (if_neg nonzero).symm
  · rw [sdiv_apply_of_positive overShift (value val1) sign, Option.some.injEq,
      Truncation.ushiftRight_eq_sdiv_iff _ divisor power sign]
    simp

end Meaning

theorem reduceStrength_quotient_iff_four :
    Reduction.eval .standard sampleOverShift (sampleValue 13#8) ⟨.LShr, .arg 0, ⟨8, 2#8⟩, none⟩ =
      BinaryOps.SDiv.apply sampleOverShift (sampleValue 13#8 (.arg 0))
        (sampleValue 13#8 (Constants.standard.ofInt ⟨8, 4#8⟩)) :=
  (reduceStrength_quotient_iff (sampleValue_constant 13#8) sampleHost (by decide)
    (Or.inr rfl) (rfl : (argumentInst .SDiv 4#8).shape = _) (by decide) (by decide)).mpr (by decide)

/-- The signed quotient of -8 and 4 is -2, but the shift gives 62. -/
theorem reduceStrength_quotient_fails :
    reduceStrength .standard sampleHost (argumentInst .SDiv 4#8) =
      .ok (some ⟨.LShr, .arg 0, ⟨8, 2#8⟩, none⟩) ∧
    Reduction.eval .standard sampleOverShift (sampleValue 248#8)
      ⟨.LShr, .arg 0, ⟨8, 2#8⟩, none⟩ = some 62#8 ∧
    BinaryOps.SDiv.apply sampleOverShift 248#8 4#8 = some (-2) := by
  decide

end LlvmGather
