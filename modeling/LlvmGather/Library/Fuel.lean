import Mathlib.Tactic

/-!
Functions that are given fuel for their loops: a result does not change with more fuel.
-/

namespace Fuel

variable {α β : Type*} {f : Nat → Option α} {g : α → Nat → Option β}

def Steady (f : Nat → Option α) : Prop :=
  ∀ fuel more result, fuel ≤ more → f fuel = some result → f more = some result

def Returns (f : Nat → Option α) (result : α) : Prop :=
  ∃ enough, ∀ fuel, enough ≤ fuel → f fuel = some result

theorem Steady.of_succ (step : ∀ fuel result, f fuel = some result → f (fuel + 1) = some result) :
    Steady f := by
  intro fuel more result bound found
  induction bound with
  | refl => exact found
  | step _ ih => exact step _ _ ih

theorem Steady.const (result : Option α) : Steady fun _ => result := fun _ _ _ _ found => found

theorem Steady.bind (first : Steady f) (second : ∀ value, Steady (g value)) :
    Steady fun fuel => (f fuel).bind fun value => g value fuel := by
  intro fuel more result bound found
  obtain ⟨value, before, after⟩ := Option.bind_eq_some_iff.mp found
  exact Option.bind_eq_some_iff.mpr
    ⟨value, first _ _ _ bound before, second value _ _ _ bound after⟩

theorem Steady.map (steady : Steady f) (change : α → β) :
    Steady fun fuel => (f fuel).map change := by
  intro fuel more result bound found
  obtain ⟨value, before, rfl⟩ := Option.map_eq_some_iff.mp found
  exact Option.map_eq_some_iff.mpr ⟨value, steady _ _ _ bound before, rfl⟩

theorem Steady.returns (steady : Steady f) {fuel : Nat} {result : α} (found : f fuel = some result) :
    Returns f result :=
  ⟨fuel, fun more bound => steady fuel more result bound found⟩

theorem Returns.bind {value : α} {result : β} (first : Returns f value)
    (second : Returns (g value) result) :
    Returns (fun fuel => (f fuel).bind fun value => g value fuel) result := by
  obtain ⟨enough, before⟩ := first
  obtain ⟨more, after⟩ := second
  refine ⟨max enough more, fun fuel bound => ?_⟩
  exact Option.bind_eq_some_iff.mpr ⟨value, before fuel (by omega), after fuel (by omega)⟩

end Fuel
