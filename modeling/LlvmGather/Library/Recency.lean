import Mathlib.Tactic

/-!
Lists of keys in the order of their last use, cut off at a size: the contents of a cache
that replaces what was used longest ago.
-/

namespace Recency

variable {K : Type*} [DecidableEq K]

def touch (size : Nat) (recent : List K) (key : K) : List K :=
  key :: (recent.erase key).take (size - 1)

def push (recent : List K) (key : K) : List K := key :: recent.erase key

variable {size : Nat} {recent small large : List K} {key : K}

theorem length_touch_le (positive : 0 < size) : (touch size recent key).length ≤ size := by
  rw [touch, List.length_cons, List.length_take]
  omega

theorem nodup_touch (distinct : recent.Nodup) : (touch size recent key).Nodup := by
  rw [touch, List.nodup_cons]
  refine ⟨fun member => ?_, (distinct.erase key).sublist (List.take_sublist _ _)⟩
  exact distinct.not_mem_erase (List.mem_of_mem_take member)

theorem touch_of_mem (bound : recent.length ≤ size) (member : key ∈ recent) :
    touch size recent key = push recent key := by
  have shorter := List.length_erase_of_mem member
  rw [touch, push, List.take_of_length_le (by omega)]

theorem erase_isPrefix (shorter : small <+: large) (key : K) :
    small.erase key <+: large.erase key := by
  obtain ⟨rest, rfl⟩ := shorter
  rw [List.erase_append]
  split_ifs with member
  · exact List.prefix_append _ _
  · rw [List.erase_of_not_mem member]
    exact List.prefix_append _ _

theorem touch_isPrefix {more : Nat} (shorter : small <+: large) (within : size ≤ more) (key : K) :
    touch size small key <+: touch more large key := by
  rw [touch, touch, List.cons_prefix_cons]
  refine ⟨rfl, List.prefix_take_iff.mpr ⟨?_, ?_⟩⟩
  · exact (List.take_prefix _ _).trans (erase_isPrefix shorter key)
  · rw [List.length_take]
    omega

theorem take_erase_take (count : Nat) (list : List K) (key : K) :
    ((list.take (count + 1)).erase key).take count = (list.erase key).take count := by
  induction list generalizing count with
  | nil => simp
  | cons first rest ih =>
      rw [List.take_succ_cons]
      by_cases same : first = key
      · subst same
        simp
      · rw [List.erase_cons_tail (by simpa using same), List.erase_cons_tail (by simpa using same)]
        cases count with
        | zero => rfl
        | succ count => rw [List.take_succ_cons, List.take_succ_cons, ih]

theorem touch_take (positive : 0 < size) :
    touch size (recent.take size) key = (push recent key).take size := by
  obtain ⟨count, rfl⟩ := Nat.exists_eq_add_of_le' positive
  rw [touch, push, List.take_succ_cons, Nat.add_sub_cancel, take_erase_take]

theorem foldl_touch_take (positive : 0 < size) (history recent : List K) :
    history.foldl (touch size) (recent.take size) = (history.foldl push recent).take size := by
  induction history generalizing recent with
  | nil => rfl
  | cons key rest ih => rw [List.foldl_cons, List.foldl_cons, touch_take positive, ih]

theorem foldl_push_front {history front : List K} (rest : List K) (absent : key ∉ history)
    (before : key ∉ front) (distinct : front.Nodup) :
    ∃ front' rest', history.foldl push (front ++ key :: rest) = front' ++ key :: rest' ∧
      key ∉ front' ∧ front'.Nodup ∧ ∀ other, other ∈ front' ↔ other ∈ front ∨ other ∈ history := by
  induction history generalizing front rest with
  | nil => exact ⟨front, rest, rfl, before, distinct, by simp⟩
  | cons used later ih =>
      rw [List.mem_cons, not_or] at absent
      have step : ∃ others, push (front ++ key :: rest) used =
          (used :: front.erase used) ++ key :: others := by
        rw [push, List.erase_append]
        split_ifs with member
        · exact ⟨rest, rfl⟩
        · refine ⟨rest.erase used, ?_⟩
          rw [List.erase_of_not_mem member, List.erase_cons_tail (by simpa using absent.1)]
          rfl
      obtain ⟨others, pushed⟩ := step
      have outside : key ∉ used :: front.erase used := by
        rw [List.mem_cons, not_or]
        exact ⟨absent.1, fun member => before (List.mem_of_mem_erase member)⟩
      have unique : (used :: front.erase used).Nodup :=
        List.nodup_cons.mpr ⟨distinct.not_mem_erase, distinct.erase used⟩
      rw [List.foldl_cons, pushed]
      obtain ⟨front', rest', folded, without, nodup, members⟩ := ih others absent.2 outside unique
      refine ⟨front', rest', folded, without, nodup, fun other => ?_⟩
      rw [members, List.mem_cons, List.mem_cons, distinct.mem_erase_iff]
      tauto

theorem mem_foldl_touch_iff (positive : 0 < size) (before after : List K) (absent : key ∉ after) :
    key ∈ (before ++ key :: after).foldl (touch size) [] ↔ after.dedup.length < size := by
  have bounded : (before ++ key :: after).foldl (touch size) [] =
      ((before ++ key :: after).foldl push []).take size := by
    have taken := foldl_touch_take positive (before ++ key :: after) []
    rwa [List.take_nil] at taken
  obtain ⟨front, rest, folded, outside, nodup, members⟩ :=
    foldl_push_front ((before.foldl push []).erase key) absent List.not_mem_nil List.nodup_nil
  have stack : (before ++ key :: after).foldl push [] = front ++ key :: rest := by
    rw [List.foldl_append, List.foldl_cons, ← folded]
    rfl
  have length : front.length = after.dedup.length := by
    refine (List.perm_ext_iff_of_nodup nodup (List.nodup_dedup after)).mpr (fun other => ?_)
      |>.length_eq
    rw [members, List.mem_dedup]
    simp
  rw [bounded, stack, ← length]
  constructor
  · intro member
    by_contra late
    rw [List.take_append_of_le_length (by omega)] at member
    exact outside (List.mem_of_mem_take member)
  · intro early
    rw [List.take_append]
    apply List.mem_append_right
    obtain ⟨room, extra⟩ := Nat.exists_eq_add_of_lt early
    rw [show size - front.length = room + 1 by omega, List.take_succ_cons]
    exact List.mem_cons_self

end Recency
