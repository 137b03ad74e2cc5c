import Mathlib.Tactic

/-!
Loops that count up: the values that the counter of `for (i = start; i < bound; i += step)`
takes. A body that visits several cells per round is a `flatMap` over them.
-/

namespace CountedLoop

def countersFrom (bound : Int) (step : Nat) : (fuel : Nat) → (counter : Int) → List Int
  | 0, _ => []
  | fuel + 1, counter =>
      if counter < bound then counter :: countersFrom bound step fuel (counter + step) else []

def counters (start bound : Int) (step : Nat) : List Int :=
  countersFrom bound step (bound - start).toNat start

theorem mem_countersFrom (bound : Int) {step : Nat} (positive : 0 < step) (fuel : Nat)
    (counter : Int) (enough : bound - counter ≤ fuel) (value : Int) :
    value ∈ countersFrom bound step fuel counter ↔
      counter ≤ value ∧ value < bound ∧ (step : Int) ∣ value - counter := by
  induction fuel generalizing counter with
  | zero =>
      simp only [countersFrom, List.not_mem_nil, false_iff]
      omega
  | succ fuel ih =>
      rw [countersFrom]
      split_ifs with inside
      · rw [List.mem_cons, ih (counter + step) (by omega)]
        have shifted : value - counter = value - (counter + step) + step := by omega
        rw [shifted, dvd_add_self_right]
        constructor
        · rintro (rfl | ⟨lower, upper, divides⟩)
          · exact ⟨by omega, inside, by simp⟩
          · exact ⟨by omega, upper, divides⟩
        · rintro ⟨lower, upper, divides⟩
          by_cases first : value = counter
          · exact Or.inl first
          · refine Or.inr ⟨?_, upper, divides⟩
            by_contra below
            have whole : (step : Int) ∣ value - counter := by
              rw [shifted, dvd_add_self_right]
              exact divides
            have least := Int.le_of_dvd (by omega) whole
            omega
      · simp only [List.not_mem_nil, false_iff]
        omega

theorem mem_counters {start bound : Int} {step : Nat} (positive : 0 < step) (value : Int) :
    value ∈ counters start bound step ↔
      start ≤ value ∧ value < bound ∧ (step : Int) ∣ value - start :=
  mem_countersFrom bound positive _ start (by omega) value

theorem mem_counters_one {start bound : Int} (value : Int) :
    value ∈ counters start bound 1 ↔ start ≤ value ∧ value < bound := by
  rw [mem_counters Nat.one_pos]
  simp

theorem length_countersFrom (bound : Int) {step : Nat} (positive : 0 < step) (rounds fuel : Nat)
    (counter : Int) (exact : bound - counter = step * rounds) (enough : rounds ≤ fuel) :
    (countersFrom bound step fuel counter).length = rounds := by
  induction rounds generalizing fuel counter with
  | zero =>
      cases fuel with
      | zero => rfl
      | succ fuel =>
          rw [countersFrom, if_neg (by simp at exact; omega)]
          rfl
  | succ rounds ih =>
      obtain _ | fuel := fuel
      · omega
      have product : (step : Int) * (rounds + 1 : Nat) = step * rounds + step := by
        push_cast
        ring
      have nonneg : (0 : Int) ≤ step * rounds := by positivity
      rw [countersFrom, if_pos (by omega), List.length_cons,
        ih fuel (counter + step) (by omega) (by omega)]

theorem length_counters {start bound : Int} {step : Nat} (positive : 0 < step) {rounds : Nat}
    (exact : bound - start = step * rounds) : (counters start bound step).length = rounds := by
  apply length_countersFrom bound positive rounds _ start exact
  have scaled : rounds ≤ step * rounds := Nat.le_mul_of_pos_left rounds positive
  have cast : ((step * rounds : Nat) : Int) = step * rounds := Nat.cast_mul step rounds
  omega

theorem nodup_countersFrom (bound : Int) {step : Nat} (positive : 0 < step) (fuel : Nat)
    (counter : Int) (enough : bound - counter ≤ fuel) :
    (countersFrom bound step fuel counter).Nodup := by
  induction fuel generalizing counter with
  | zero => exact List.nodup_nil
  | succ fuel ih =>
      rw [countersFrom]
      split_ifs with inside
      · refine List.nodup_cons.mpr ⟨?_, ih (counter + step) (by omega)⟩
        intro again
        have later := (mem_countersFrom bound positive fuel _ (by omega) counter).mp again
        omega
      · exact List.nodup_nil

theorem nodup_counters (start bound : Int) {step : Nat} (positive : 0 < step) :
    (counters start bound step).Nodup :=
  nodup_countersFrom bound positive _ start (by omega)

theorem length_nest {rows columns : List Int} {body : Int → Int → List Int} (width : Nat)
    (constant : ∀ row column, (body row column).length = width) :
    (rows.flatMap fun row => columns.flatMap (body row)).length =
      rows.length * (columns.length * width) := by
  simp [List.length_flatMap, constant]

end CountedLoop
