import Mathlib.Tactic

/-!
Lists in the order of a key in which the items of one key keep the order of their arrival.
-/

namespace Stable

variable {α κ : Type*} [LinearOrder κ] {key : α → κ} {item : α}
variable {arrivals before after list : List α}

def Inserted (key : α → κ) (item : α) (before after : List α) : Prop :=
  ∃ front back, before = front ++ back ∧ after = front ++ item :: back ∧
    (∀ other ∈ front, key other ≤ key item) ∧ ∀ other ∈ back, key item < key other

theorem Inserted.first (lower : ∀ other ∈ list, key item < key other) :
    Inserted key item list (item :: list) :=
  ⟨[], list, rfl, rfl, fun _ member => absurd member List.not_mem_nil, lower⟩

theorem Inserted.last (upper : ∀ other ∈ list, key other ≤ key item) :
    Inserted key item list (list ++ [item]) :=
  ⟨list, [], (List.append_nil list).symm, rfl, upper, fun _ member => absurd member List.not_mem_nil⟩

theorem le_getLast {last : α} (sorted : list.Pairwise fun first second => key first ≤ key second)
    (ends : list.getLast? = some last) : ∀ other ∈ list, key other ≤ key last := by
  obtain ⟨front, rfl⟩ := List.getLast?_eq_some_iff.mp ends
  intro other member
  rcases List.mem_append.mp member with inside | inside
  · exact (List.pairwise_append.mp sorted).2.2 other inside last List.mem_cons_self
  · exact (congrArg key (List.mem_singleton.mp inside)).le

theorem Inserted.append_left (inserted : Inserted key item before after) (list : List α)
    (lower : ∀ other ∈ list, key other ≤ key item) :
    Inserted key item (list ++ before) (list ++ after) := by
  obtain ⟨front, back, rfl, rfl, first, second⟩ := inserted
  refine ⟨list ++ front, back, by rw [List.append_assoc], by rw [List.append_assoc], ?_, second⟩
  intro other member
  rcases List.mem_append.mp member with inside | inside
  · exact lower other inside
  · exact first other inside

theorem Inserted.head? {top : α} (inserted : Inserted key item before after)
    (first : before.head? = some top) (lower : key top ≤ key item) : after.head? = some top := by
  obtain ⟨front, back, rfl, rfl, -, second⟩ := inserted
  cases front with
  | nil =>
      have above := second top (List.mem_of_head? first)
      exact absurd lower (not_le.mpr above)
  | cons other rest => exact first

theorem Inserted.mem_iff (inserted : Inserted key item before after) {other : α} :
    other ∈ after ↔ other = item ∨ other ∈ before := by
  obtain ⟨front, back, rfl, rfl, -, -⟩ := inserted
  simp only [List.mem_append, List.mem_cons]
  tauto

theorem Inserted.length_eq (inserted : Inserted key item before after) :
    after.length = before.length + 1 := by
  obtain ⟨front, back, rfl, rfl, -, -⟩ := inserted
  simp only [List.length_append, List.length_cons]
  omega

theorem Inserted.pairwise (inserted : Inserted key item before after)
    (sorted : before.Pairwise fun first second => key first ≤ key second) :
    after.Pairwise fun first second => key first ≤ key second := by
  obtain ⟨front, back, rfl, rfl, first, second⟩ := inserted
  obtain ⟨left, right, across⟩ := List.pairwise_append.mp sorted
  refine List.pairwise_append.mpr
    ⟨left, List.pairwise_cons.mpr ⟨fun other member => (second other member).le, right⟩, ?_⟩
  intro lower below other member
  rcases List.mem_cons.mp member with rfl | inside
  · exact first lower below
  · exact across lower below other inside

/-- The list is what a stable sort makes of the arrivals. -/
structure Arranged (key : α → κ) (arrivals list : List α) : Prop where
  sorted : list.Pairwise fun first second => key first ≤ key second
  stable : ∀ value, list.filter (fun item => key item = value) =
    arrivals.filter (fun item => key item = value)

theorem Arranged.insert (arranged : Arranged key arrivals before)
    (inserted : Inserted key item before after) : Arranged key (arrivals ++ [item]) after := by
  refine ⟨inserted.pairwise arranged.sorted, fun value => ?_⟩
  rw [List.filter_append, ← arranged.stable value]
  obtain ⟨front, back, rfl, rfl, -, second⟩ := inserted
  by_cases same : key item = value
  · have none : back.filter (fun item => key item = value) = [] := by
      rw [List.filter_eq_nil_iff]
      intro other member equal
      rw [decide_eq_true_eq] at equal
      exact absurd (same.trans equal.symm) (second other member).ne
    simp [same, none]
  · simp [same]

theorem Arranged.perm (arranged : Arranged key arrivals list) : list.Perm arrivals := by
  classical
  rw [List.perm_iff_count]
  intro item
  calc list.count item
      = (list.filter fun other => key other = key item).count item :=
        (List.count_filter (by simp)).symm
    _ = (arrivals.filter fun other => key other = key item).count item := by
        rw [arranged.stable (key item)]
    _ = arrivals.count item := List.count_filter (by simp)

end Stable
