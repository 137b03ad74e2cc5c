import LlvmGather.LocalOpts.Strength

/-!
The two logarithms of `LocalOpts` against their comments. The loop is run on the machine
word with a bound on its tests, and the neighbours of the argument are computed with the
signed overflow of C++ made visible.
-/

namespace LlvmGather

/-- The loop of `find_log` and its exit, `none` where `tests` tests of its condition do not
reach the exit. -/
def findLogWhile : (tests : Nat) → (n : BitVec 64) → (res : Int) → Option Int
  | 0, _, _ => none
  | tests + 1, n, res =>
      if n &&& 1 = 0 ∧ 1 < n.toInt then findLogWhile tests (n.sshiftRight 1) (res + 1)
      else some (if n = 1 then res else -1)

def findLogRun (tests : Nat) (n : BitVec 64) : Option Int :=
  if n.toInt ≤ 0 then some (-1) else findLogWhile tests n 0

/-- `find_log_improved`, undefined where `n - 1` or `n + 1` leaves the signed numbers. -/
def findLogImprovedChecked (n : BitVec 64) (exponent : Int) : Option (Int × Int) :=
  if n.toInt ≤ 0 then some (-1, exponent)
  else if 0 ≤ findLog n then some (0, findLog n)
  else if n.ssubOverflow 1 then none
  else if 0 ≤ findLog (n - 1) then some (1, findLog (n - 1))
  else if n.saddOverflow 1 then none
  else if 0 ≤ findLog (n + 1) then some (-1, findLog (n + 1))
  else some (-2, findLog (n + 1))

/-- `n` is `2 ^ exponent + distance`, the distance 0 being preferred to 1 and 1 to -1. -/
inductive NearPower (n : Int) : (distance exponent : Int) → Prop
  | power (log : Nat) : n = 2 ^ log → NearPower n 0 log
  | above (log : Nat) : n = 2 ^ log + 1 → (∀ other : Nat, n ≠ 2 ^ other) → NearPower n 1 log
  | below (log : Nat) : n = 2 ^ log - 1 → (∀ other : Nat, n ≠ 2 ^ other) →
      (∀ other : Nat, n ≠ 2 ^ other + 1) → NearPower n (-1) log

/-- The comment of `find_log`, which also says that the loop ends. -/
structure FindLogCorrect (n : BitVec 64) : Prop where
  terminates : ∀ tests, 64 ≤ tests → findLogRun tests n = some (findLog n)
  power : ∀ log : Nat, findLog n = log ↔ n.toInt = 2 ^ log
  other : findLog n = -1 ↔ ∀ log : Nat, n.toInt ≠ 2 ^ log

/-- The comment of `find_log_improved` for the result and the exponent it leaves. -/
structure FindLogImprovedCorrect (n : BitVec 64) (result : Int × Int) : Prop where
  near : ∀ distance ∈ [-1, 0, 1], ∀ exponent,
    result = (distance, exponent) ↔ NearPower n.toInt distance exponent
  far : result.1 = -2 ↔ ∀ distance exponent, ¬ NearPower n.toInt distance exponent

section Loop

theorem findLogWhile_condition {n : BitVec 64} (positive : 0 < n.toInt) :
    n &&& 1 = 0 ∧ 1 < n.toInt ↔ n.toNat % 2 = 0 ∧ 1 < n.toNat := by
  have low := (Truncation.toInt_nonneg_iff n).mp positive.le
  rw [Truncation.toInt_nonneg n low, ← BitVec.toNat_inj, BitVec.toNat_and]
  simp only [BitVec.ofNat_eq_ofNat, BitVec.toNat_ofNat, Nat.reducePow, Nat.reduceMod,
    Nat.zero_mod, Nat.and_one_is_mod]
  omega

theorem toNat_halved {n : BitVec 64} (positive : 0 < n.toInt) :
    (n.sshiftRight 1).toNat = n.toNat / 2 := by
  have low := (Truncation.toInt_nonneg_iff n).mp positive.le
  have sign : n.msb = false := BitVec.msb_eq_false_iff_two_mul_lt.mpr low
  rw [BitVec.sshiftRight_eq_of_msb_false sign, BitVec.toNat_ushiftRight, Nat.shiftRight_eq_div_pow]

theorem findLogWhile_eq (tests rounds : Nat) (n : BitVec 64) (res : Int) (positive : 0 < n.toInt)
    (enough : n.toNat < 2 ^ tests) (small : n.toNat ≤ 2 ^ rounds) :
    findLogWhile tests n res = some (findLogLoop rounds n.toNat res) := by
  have low := (Truncation.toInt_nonneg_iff n).mp positive.le
  have value := Truncation.toInt_nonneg n low
  induction tests generalizing rounds n res with
  | zero => omega
  | succ tests ih =>
      rw [findLogWhile]
      by_cases even : n.toNat % 2 = 0 ∧ 1 < n.toNat
      · have halved := toNat_halved positive
        have lowHalved : 2 * (n.sshiftRight 1).toNat < 2 ^ 64 := by omega
        have valueHalved := Truncation.toInt_nonneg _ lowHalved
        obtain _ | rounds := rounds
        · omega
        rw [if_pos ((findLogWhile_condition positive).mpr even), findLogLoop, if_pos even, ← halved]
        rw [Nat.pow_succ] at enough small
        exact ih rounds (n.sshiftRight 1) (res + 1) (by omega) (by omega) (by omega) lowHalved
          valueHalved
      · have one : n = 1 ↔ n.toNat = 1 := by
          rw [← BitVec.toNat_inj]
          rfl
        rw [if_neg fun taken => even ((findLogWhile_condition positive).mp taken)]
        cases rounds with
        | zero => simp only [findLogLoop, one]
        | succ rounds => rw [findLogLoop, if_neg even, if_congr one rfl rfl]

theorem findLogRun_eq (n : BitVec 64) {tests : Nat} (enough : 64 ≤ tests) :
    findLogRun tests n = some (findLog n) := by
  rw [findLogRun, findLog]
  by_cases positive : n.toInt ≤ 0
  · rw [if_pos positive, if_pos positive]
  · have bound : 2 ^ 64 ≤ 2 ^ tests := Nat.pow_le_pow_right (by omega) enough
    have width := n.isLt
    rw [if_neg positive, if_neg positive]
    exact findLogWhile_eq tests 64 n 0 (by omega) (by omega) width.le

end Loop

section Values

theorem toInt_eq_toNat {n : BitVec 64} (positive : 0 < n.toInt) : n.toInt = n.toNat :=
  Truncation.toInt_nonneg n ((Truncation.toInt_nonneg_iff n).mp positive.le)

theorem findLog_eq_iff (n : BitVec 64) (log : Nat) : findLog n = log ↔ n.toInt = 2 ^ log := by
  rcases findLog_cases n with ⟨found, positive, power, result⟩ | ⟨none, result⟩
  · rw [result, toInt_eq_toNat positive, power]
    norm_cast
    exact (Nat.pow_right_injective (le_refl 2)).eq_iff.symm
  · refine ⟨fun equal => by omega, fun power => absurd ?_ none⟩
    have positive : 0 < n.toInt := by
      rw [power]
      positivity
    refine ⟨positive, log, ?_⟩
    rw [toInt_eq_toNat positive] at power
    exact_mod_cast power

theorem findLog_power {n : BitVec 64} (found : 0 ≤ findLog n) :
    ∃ log : Nat, findLog n = log ∧ n.toInt = 2 ^ log := by
  obtain ⟨log, -, -, result⟩ := findLog_nonneg found
  exact ⟨log, result, (findLog_eq_iff n log).mp result⟩

theorem findLog_none {n : BitVec 64} (missing : ¬ 0 ≤ findLog n) (log : Nat) :
    n.toInt ≠ 2 ^ log := by
  intro power
  have result := (findLog_eq_iff n log).mpr power
  omega

theorem findLog_correct (n : BitVec 64) : FindLogCorrect n where
  terminates _ enough := findLogRun_eq n enough
  power := findLog_eq_iff n
  other := by
    constructor
    · intro none
      exact findLog_none (by omega)
    · intro none
      rcases findLog_cases n with ⟨log, -, -, result⟩ | ⟨-, result⟩
      · exact absurd ((findLog_eq_iff n log).mp result) (none log)
      · exact result

theorem toInt_one : (1 : BitVec 64).toInt = 1 := by
  decide

theorem ssubOverflow_one {n : BitVec 64} (positive : 0 < n.toInt) : ¬ n.ssubOverflow 1 := by
  have bound := BitVec.toInt_lt (x := n)
  simp only [BitVec.ssubOverflow, toInt_one, Bool.or_eq_true, decide_eq_true_eq]
  omega

theorem saddOverflow_one (n : BitVec 64) : n.saddOverflow 1 ↔ n.toInt = 2 ^ 63 - 1 := by
  have upper := BitVec.toInt_lt (x := n)
  have lower := BitVec.le_toInt n
  simp only [BitVec.saddOverflow, toInt_one, Bool.or_eq_true, decide_eq_true_eq]
  omega

theorem toInt_pred {n : BitVec 64} (positive : 0 < n.toInt) : (n - 1).toInt = n.toInt - 1 := by
  rw [BitVec.toInt_sub_of_not_ssubOverflow (ssubOverflow_one positive), toInt_one]

theorem toInt_succ {n : BitVec 64} (below : n.toInt ≠ 2 ^ 63 - 1) :
    (n + 1).toInt = n.toInt + 1 := by
  rw [BitVec.toInt_add_of_not_saddOverflow fun overflow => below ((saddOverflow_one n).mp overflow),
    toInt_one]

end Values

section Nearest

theorem pow_log_injective {left right : Nat} (equal : (2 : Int) ^ left = 2 ^ right) :
    left = right := by
  have powers : 2 ^ left = 2 ^ right := by exact_mod_cast equal
  exact Nat.pow_right_injective (le_refl 2) powers

theorem NearPower.distance_mem {n distance exponent : Int} (near : NearPower n distance exponent) :
    distance ∈ [-1, 0, 1] := by
  cases near <;> decide

theorem NearPower.nonneg {n distance exponent : Int} (near : NearPower n distance exponent) :
    0 ≤ n := by
  have positive (log : Nat) : (0 : Int) < 2 ^ log := by positivity
  cases near with
  | power log equal =>
      have := positive log
      omega
  | above log equal =>
      have := positive log
      omega
  | below log equal =>
      have := positive log
      omega

theorem NearPower.unique {n distance exponent distance' exponent' : Int}
    (near : NearPower n distance exponent) (near' : NearPower n distance' exponent') :
    distance = distance' ∧ exponent = exponent' := by
  cases near with
  | power log equal =>
      cases near' with
      | power log' equal' =>
          obtain rfl := pow_log_injective (equal.symm.trans equal')
          exact ⟨rfl, rfl⟩
      | above _ _ noPower => exact absurd equal (noPower log)
      | below _ _ noPower => exact absurd equal (noPower log)
  | above log equal noPower =>
      cases near' with
      | power log' equal' => exact absurd equal' (noPower log')
      | above log' equal' =>
          obtain rfl := pow_log_injective (by omega : (2 : Int) ^ log = 2 ^ log')
          exact ⟨rfl, rfl⟩
      | below _ _ _ noAbove => exact absurd equal (noAbove log)
  | below log equal noPower noAbove =>
      cases near' with
      | power log' equal' => exact absurd equal' (noPower log')
      | above log' equal' => exact absurd equal' (noAbove log')
      | below log' equal' =>
          obtain rfl := pow_log_injective (by omega : (2 : Int) ^ log = 2 ^ log')
          exact ⟨rfl, rfl⟩

theorem FindLogImprovedCorrect.of_near {n : BitVec 64} {distance exponent : Int}
    (near : NearPower n.toInt distance exponent) :
    FindLogImprovedCorrect n (distance, exponent) where
  near other _ exponent' := by
    constructor
    · rintro ⟨⟩
      exact near
    · intro near'
      obtain ⟨rfl, rfl⟩ := near.unique near'
      rfl
  far := by
    have known := near.distance_mem
    constructor
    · rintro rfl
      simp at known
    · intro none
      exact absurd near (none distance exponent)

theorem FindLogImprovedCorrect.of_far {n : BitVec 64} (exponent : Int)
    (none : ∀ distance exponent, ¬ NearPower n.toInt distance exponent) :
    FindLogImprovedCorrect n (-2, exponent) where
  near distance known exponent' := by
    constructor
    · rintro ⟨⟩
      simp at known
    · intro near
      exact absurd near (none distance exponent')
  far := ⟨fun _ => none, fun _ => rfl⟩

theorem findLogImprovedChecked_correct {n : BitVec 64} (exponent : Int) (positive : 0 < n.toInt)
    (below : n.toInt ≠ 2 ^ 63 - 1) :
    ∃ result, findLogImprovedChecked n exponent = some result ∧ FindLogImprovedCorrect n result := by
  have pred := toInt_pred positive
  have succ := toInt_succ below
  rw [findLogImprovedChecked, if_neg (by omega : ¬ n.toInt ≤ 0)]
  by_cases here : 0 ≤ findLog n
  · obtain ⟨log, result, power⟩ := findLog_power here
    rw [if_pos here, result]
    exact ⟨_, rfl, .of_near (.power log power)⟩
  have noPower := findLog_none here
  rw [if_neg here, if_neg (ssubOverflow_one positive)]
  by_cases before : 0 ≤ findLog (n - 1)
  · obtain ⟨log, result, power⟩ := findLog_power before
    rw [if_pos before, result]
    exact ⟨_, rfl, .of_near (.above log (by omega) noPower)⟩
  have noAbove (log : Nat) : n.toInt ≠ 2 ^ log + 1 := by
    have none := findLog_none before log
    omega
  rw [if_neg before, if_neg fun overflow => below ((saddOverflow_one n).mp overflow)]
  by_cases after : 0 ≤ findLog (n + 1)
  · obtain ⟨log, result, power⟩ := findLog_power after
    rw [if_pos after, result]
    exact ⟨_, rfl, .of_near (.below log (by omega) noPower noAbove)⟩
  · rw [if_neg after]
    refine ⟨_, rfl, .of_far _ ?_⟩
    rintro _ _ (⟨log, equal⟩ | ⟨log, equal, -⟩ | ⟨log, equal, -, -⟩)
    · exact noPower log equal
    · exact noAbove log equal
    · have none := findLog_none after log
      omega

/-- Both functions meet their comments for the positive numbers below the largest, and for 0
where the exponent is already the 0 that is never stored. -/
theorem findLogImproved_comment_iff (n : BitVec 64) (exponent : Int) :
    (FindLogCorrect n ∧ ∃ result, findLogImprovedChecked n exponent = some result ∧
      FindLogImprovedCorrect n result) ↔
      (0 < n.toInt ∧ n.toInt ≠ 2 ^ 63 - 1) ∨ (n.toInt = 0 ∧ exponent = 0) := by
  constructor
  · rintro ⟨-, result, run, correct⟩
    by_cases positive : n.toInt ≤ 0
    · rw [findLogImprovedChecked, if_pos positive, Option.some_inj] at run
      have near := (correct.near (-1) (by decide) exponent).mp run.symm
      have bound := near.nonneg
      have zero : n.toInt = 0 := by omega
      refine Or.inr ⟨zero, ?_⟩
      cases near with
      | below log equal =>
          have one : (2 : Int) ^ log = 2 ^ 0 := by omega
          rw [pow_log_injective one]
          rfl
    · refine Or.inl ⟨by omega, ?_⟩
      intro largest
      obtain rfl : n = BitVec.intMax 64 := by
        apply BitVec.eq_of_toInt_eq
        rw [largest]
        decide
      have undefined : findLogImprovedChecked (BitVec.intMax 64) exponent = none := rfl
      rw [undefined] at run
      cases run
  · rintro (⟨positive, below⟩ | ⟨zero, rfl⟩)
    · exact ⟨findLog_correct n, findLogImprovedChecked_correct exponent positive below⟩
    · refine ⟨findLog_correct n, (-1, 0), ?_, .of_near ?_⟩
      · rw [findLogImprovedChecked, if_pos zero.le]
      · have positive (log : Nat) : (0 : Int) < 2 ^ log := by positivity
        refine .below 0 (by omega) (fun log => ?_) (fun log => ?_)
        · have := positive log
          omega
        · have := positive log
          omega

/-- For `-5` the result -1 claims a power of two next to it; for the largest number `n + 1`
overflows. -/
theorem findLogImproved_comment_fails :
    (findLogImprovedChecked (-5) 0 = some (-1, 0) ∧ ¬ FindLogImprovedCorrect (-5) (-1, 0)) ∧
      findLogImprovedChecked (BitVec.intMax 64) 0 = none := by
  refine ⟨⟨rfl, fun correct => ?_⟩, rfl⟩
  have near := (correct.near (-1) (by decide) 0).mp rfl
  exact absurd near.nonneg (by decide)

end Nearest

end LlvmGather
