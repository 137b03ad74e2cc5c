import Mathlib.Tactic

/-!
Exclusive monitors: every context reserves at most one granule, and a write to a granule
ends the reservations of it.
-/

namespace Monitor

variable {C G : Type*}

inductive Op (C G : Type*)
  | reserve (context : C) (granule : G)
  | write (granule : G)
  | other

section Step

variable [DecidableEq C] [DecidableEq G]

def step (reserved : C → Option G) : Op C G → C → Option G
  | .reserve context granule => Function.update reserved context (some granule)
  | .write granule => fun context =>
      if reserved context = some granule then none else reserved context
  | .other => reserved

def reservations (history : List (Op C G)) : C → Option G :=
  history.foldl step fun _ => none

end Step

/-- The context reserved the granule, has reserved nothing since, and no write to the
granule has come since. -/
def Holds (history : List (Op C G)) (context : C) (granule : G) : Prop :=
  ∃ before after, history = before ++ .reserve context granule :: after ∧
    (∀ other, .reserve context other ∉ after) ∧ .write granule ∉ after

variable {history : List (Op C G)} {op : Op C G} {context : C} {granule : G}

theorem holds_append_iff :
    Holds (history ++ [op]) context granule ↔
      op = .reserve context granule ∨
        Holds history context granule ∧ (∀ other, op ≠ .reserve context other) ∧
          op ≠ .write granule := by
  constructor
  · rintro ⟨before, after, split, alone, unwritten⟩
    rcases List.eq_nil_or_concat after with rfl | ⟨front, last, rfl⟩
    · left
      have ends := List.append_inj_right' split rfl
      simpa using ends
    · right
      rw [List.concat_eq_append, ← List.cons_append, ← List.append_assoc] at split
      have ends := List.append_inj_right' split rfl
      obtain rfl : op = last := by simpa using ends
      rw [List.concat_eq_append] at alone unwritten
      simp only [List.mem_append, List.mem_singleton, not_or] at alone unwritten
      exact ⟨⟨before, front, List.append_inj_left' split rfl, fun other => (alone other).1,
        unwritten.1⟩, fun other same => (alone other).2 same.symm,
        fun same => unwritten.2 same.symm⟩
  · rintro (rfl | ⟨⟨before, after, rfl, alone, unwritten⟩, kept, spared⟩)
    · exact ⟨history, [], rfl, fun _ => List.not_mem_nil, List.not_mem_nil⟩
    · refine ⟨before, after ++ [op], by simp, fun other member => ?_, fun member => ?_⟩
      · rcases List.mem_append.mp member with earlier | last
        · exact alone other earlier
        · exact kept other (List.mem_singleton.mp last).symm
      · rcases List.mem_append.mp member with earlier | last
        · exact unwritten earlier
        · exact spared (List.mem_singleton.mp last).symm

theorem reservations_eq_some_iff [DecidableEq C] [DecidableEq G] :
    reservations history context = some granule ↔ Holds history context granule := by
  -- by induction on the end of the history, where the newest operation stands
  induction history using List.reverseRecOn generalizing granule with
  | nil => simp [reservations, Holds]
  | append_singleton history op ih =>
      rw [holds_append_iff, ← ih]
      simp only [reservations, List.foldl_append, List.foldl_cons, List.foldl_nil] at ih ⊢
      cases op with
      | reserve owner target =>
          by_cases same : context = owner
          · subst same
            simp [step]
          · simp [step, same, Ne.symm same]
      | write target =>
          simp only [step, reduceCtorEq, false_or, ne_eq, not_false_eq_true, implies_true,
            true_and, Op.write.injEq]
          split_ifs with ended
          · simp only [ended, Option.some.injEq, false_iff, not_and, not_not, imp_self]
          · constructor
            · intro kept
              refine ⟨kept, fun same => ended ?_⟩
              rw [kept, same]
            · exact fun kept => kept.1
      | other => simp [step]

end Monitor
