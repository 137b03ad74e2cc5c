import Mathlib.Tactic

/-!
A few slots that remember what a larger table said. They are searched in order, a new pair
goes in front and pushes out the last slot, and a key is forgotten by emptying the first
slot that holds it. The slots may be asked in place of the table as long as no key is in
two of them.
-/

namespace Memo

variable {K V : Type*}

def keys (slots : List (Option (K × V))) : List K := slots.filterMap fun slot => slot.map Prod.fst

@[simp] theorem keys_nil : keys ([] : List (Option (K × V))) = [] := rfl

@[simp] theorem keys_none (rest : List (Option (K × V))) : keys (none :: rest) = keys rest := rfl

@[simp] theorem keys_some (held : K) (value : V) (rest : List (Option (K × V))) :
    keys (some (held, value) :: rest) = held :: keys rest := rfl

theorem mem_keys_iff {slots : List (Option (K × V))} {key : K} :
    key ∈ keys slots ↔ ∃ value, some (key, value) ∈ slots := by
  simp [keys]

theorem keys_dropLast_sublist (slots : List (Option (K × V))) :
    (keys slots.dropLast).Sublist (keys slots) :=
  slots.dropLast_sublist.filterMap _

def push (slots : List (Option (K × V))) (key : K) (value : V) : List (Option (K × V)) :=
  some (key, value) :: slots.dropLast

structure Agrees (slots : List (Option (K × V))) (table : K → Option V) : Prop where
  distinct : (keys slots).Nodup
  held : ∀ key value, some (key, value) ∈ slots → table key = some value

namespace Agrees

variable {slots : List (Option (K × V))} {table other : K → Option V} {key : K} {value : V}

theorem absent (agrees : Agrees slots table) (missing : table key = none) :
    key ∉ keys slots := by
  intro member
  obtain ⟨value, held⟩ := mem_keys_iff.mp member
  have present := agrees.held key value held
  rw [missing] at present
  exact absurd present nofun

theorem push (agrees : Agrees slots table) (fresh : key ∉ keys slots)
    (present : table key = some value) : Agrees (Memo.push slots key value) table where
  distinct := by
    rw [Memo.push, keys_some]
    exact List.nodup_cons.mpr ⟨fun member => fresh ((keys_dropLast_sublist slots).mem member),
      agrees.distinct.sublist (keys_dropLast_sublist slots)⟩
  held held kept member := by
    rcases List.mem_cons.mp member with same | later
    · obtain ⟨rfl, rfl⟩ := Prod.mk.inj (Option.some.inj same)
      exact present
    · exact agrees.held held kept (slots.dropLast_sublist.mem later)

theorem congr (agrees : Agrees slots table)
    (same : ∀ key ∈ keys slots, other key = table key) : Agrees slots other where
  distinct := agrees.distinct
  held held value member := by
    rw [same held (mem_keys_iff.mpr ⟨value, member⟩)]
    exact agrees.held held value member

end Agrees

variable [DecidableEq K]

def find : List (Option (K × V)) → K → Option V
  | [], _ => none
  | none :: rest, key => find rest key
  | some (held, value) :: rest, key => if held = key then some value else find rest key

def forget : List (Option (K × V)) → K → List (Option (K × V))
  | [], _ => []
  | none :: rest, key => none :: forget rest key
  | some (held, value) :: rest, key =>
      if held = key then none :: rest else some (held, value) :: forget rest key

theorem forget_ne_nil {slots : List (Option (K × V))} (key : K) (nonempty : slots ≠ []) :
    forget slots key ≠ [] := by
  rcases slots with _ | ⟨_ | ⟨held, value⟩, rest⟩
  · exact absurd rfl nonempty
  · exact List.cons_ne_nil _ _
  · rw [forget]
    split <;> exact List.cons_ne_nil _ _

theorem keys_forget_sublist (slots : List (Option (K × V))) (key : K) :
    (keys (forget slots key)).Sublist (keys slots) := by
  induction slots with
  | nil => exact .slnil
  | cons slot rest ih =>
      rcases slot with _ | ⟨held, value⟩
      · exact ih
      · rw [forget]
        split
        · exact List.sublist_cons_self _ _
        · exact ih.cons_cons held

theorem mem_of_mem_forget {slots : List (Option (K × V))} {key held : K} {value : V}
    (member : some (held, value) ∈ forget slots key) : some (held, value) ∈ slots := by
  induction slots with
  | nil => exact member
  | cons slot rest ih =>
      rcases slot with _ | ⟨other, kept⟩
      · rcases List.mem_cons.mp member with same | later
        · exact absurd same nofun
        · exact .tail _ (ih later)
      · rw [forget] at member
        split at member
        · rcases List.mem_cons.mp member with same | later
          · exact absurd same nofun
          · exact .tail _ later
        · rcases List.mem_cons.mp member with same | later
          · exact same ▸ List.mem_cons_self
          · exact .tail _ (ih later)

theorem mem_of_find {slots : List (Option (K × V))} {key : K} {value : V}
    (found : find slots key = some value) : some (key, value) ∈ slots := by
  induction slots with
  | nil => exact absurd found nofun
  | cons slot rest ih =>
      rcases slot with _ | ⟨held, kept⟩
      · exact .tail _ (ih found)
      · rw [find] at found
        split at found
        next same =>
          obtain rfl := same
          obtain rfl := Option.some.inj found
          exact List.mem_cons_self
        next => exact .tail _ (ih found)

theorem find_eq_none_iff {slots : List (Option (K × V))} {key : K} :
    find slots key = none ↔ key ∉ keys slots := by
  induction slots with
  | nil => simp [find]
  | cons slot rest ih =>
      rcases slot with _ | ⟨held, value⟩
      · exact ih
      · by_cases same : held = key
        · simp [find, same]
        · simp [find, same, ih, Ne.symm same]

theorem not_mem_keys_forget {slots : List (Option (K × V))} (distinct : (keys slots).Nodup)
    (key : K) : key ∉ keys (forget slots key) := by
  induction slots with
  | nil => simp [forget]
  | cons slot rest ih =>
      rcases slot with _ | ⟨held, value⟩
      · exact ih distinct
      · obtain ⟨absent, others⟩ := List.nodup_cons.mp distinct
        by_cases same : held = key
        · rw [forget, if_pos same]
          exact same ▸ absent
        · rw [forget, if_neg same, keys_some, List.mem_cons, not_or]
          exact ⟨Ne.symm same, ih others⟩

namespace Agrees

variable {slots : List (Option (K × V))} {table : K → Option V} {key : K} {value : V}

theorem find (agrees : Agrees slots table) (found : Memo.find slots key = some value) :
    table key = some value :=
  agrees.held key value (mem_of_find found)

theorem forget (agrees : Agrees slots table) (key : K) : Agrees (Memo.forget slots key) table where
  distinct := agrees.distinct.sublist (keys_forget_sublist slots key)
  held held value member := agrees.held held value (mem_of_mem_forget member)

end Agrees

end Memo
