import Mathlib.Data.List.Nodup
import Mathlib.Tactic

/-!
Scans of lists. A scan that collects the items which its findings so far admit computes a
least set in one pass, if no item needs one that comes after it.
-/

namespace Scan

theorem foldl_rule {A S : Type} {P : List A → S → Prop} {step : S → A → S} {initial : S}
    (list : List A) (base : P [] initial)
    (keeps : ∀ before next after state, list = before ++ next :: after → P before state →
      P (before ++ [next]) (step state next)) : P list (list.foldl step initial) := by
  suffices scanned : ∀ rest before state, list = before ++ rest → P before state →
      P list (rest.foldl step state) by
    exact scanned list [] initial rfl base
  intro rest
  induction rest with
  | nil =>
      intro before state split holds
      simpa [split] using holds
  | cons next rest ih =>
      intro before state split holds
      exact ih (before ++ [next]) _ (by simp [split]) (keeps before next rest state split holds)

theorem snoc_split {A : Type*} {list before after : List A} {last item : A}
    (split : list ++ [last] = before ++ item :: after) :
    (before = list ∧ item = last ∧ after = []) ∨
      ∃ rest, after = rest ++ [last] ∧ list = before ++ item :: rest := by
  rcases List.eq_nil_or_concat after with rfl | ⟨rest, final, rfl⟩
  · obtain ⟨front, back⟩ := List.append_inj' split rfl
    exact Or.inl ⟨front.symm, (List.cons.inj back).1.symm, rfl⟩
  · rw [List.concat_eq_append, ← List.cons_append, ← List.append_assoc] at split
    obtain ⟨front, back⟩ := List.append_inj' split rfl
    exact Or.inr ⟨rest, by rw [List.concat_eq_append, back], front⟩

theorem exists_last {A : Type} {P : A → Prop} {list : List A} (some : ∃ item ∈ list, P item) :
    ∃ before item after, list = before ++ item :: after ∧ P item ∧ ∀ later ∈ after, ¬ P later := by
  induction list with
  | nil => simp at some
  | cons first rest ih =>
      by_cases later : ∃ item ∈ rest, P item
      · obtain ⟨before, item, after, rfl, holds, none⟩ := ih later
        exact ⟨first :: before, item, after, rfl, holds, none⟩
      · push Not at later
        obtain ⟨item, member, holds⟩ := some
        rcases List.mem_cons.mp member with rfl | inRest
        · exact ⟨[], item, rest, rfl, holds, later⟩
        · exact absurd holds (later item inRest)

theorem flatMap_split {A B : Type} {f : A → List B} {list : List A} {before after : List B}
    {item : B} (split : list.flatMap f = before ++ item :: after) :
    ∃ earlier block later front back, list = earlier ++ block :: later ∧
      f block = front ++ item :: back ∧ before = earlier.flatMap f ++ front ∧
      after = back ++ later.flatMap f := by
  induction list generalizing before with
  | nil => simp at split
  | cons first rest ih =>
      rw [List.flatMap_cons] at split
      rcases List.append_eq_append_iff.mp split with ⟨middle, rfl, inRest⟩ | ⟨middle, inFirst, tail⟩
      · obtain ⟨earlier, block, later, front, back, rfl, inside, rfl, rest⟩ := ih inRest
        exact ⟨first :: earlier, block, later, front, back, rfl, inside, by simp, rest⟩
      · cases middle with
        | nil =>
            have inRest : rest.flatMap f = [] ++ item :: after := by simpa using tail.symm
            obtain ⟨earlier, block, later, front, back, rfl, inside, empty, rest⟩ := ih inRest
            refine ⟨first :: earlier, block, later, front, back, rfl, inside, ?_, rest⟩
            rw [List.flatMap_cons, List.append_assoc, ← empty, inFirst]
            simp
        | cons next middle =>
            simp only [List.cons_append, List.cons.injEq] at tail
            obtain ⟨rfl, rfl⟩ := tail
            exact ⟨[], first, rest, before, middle, rfl, inFirst, rfl, rfl⟩

theorem mem_before_iff_sublist {A : Type} {list before after : List A} {first second : A}
    (nodup : list.Nodup) (split : list = before ++ second :: after) :
    first ∈ before ↔ List.Sublist [first, second] list := by
  subst split
  constructor
  · intro earlier
    exact (List.singleton_sublist.mpr earlier).append
      (List.singleton_sublist.mpr List.mem_cons_self)
  · intro ordered
    have fresh : second ∉ after := (List.nodup_cons.mp (List.nodup_append.mp nodup).2.1).1
    obtain ⟨front, back, shape, inFront, inBack⟩ := List.sublist_append_iff.mp ordered
    cases front with
    | nil =>
        rw [List.nil_append] at shape
        subst shape
        have later : second ∈ after := by
          cases inBack with
          | cons _ rest => exact rest.subset (by simp)
          | cons_cons _ rest => exact rest.subset (by simp)
        exact absurd later fresh
    | cons head front =>
        simp only [List.cons_append, List.cons.injEq] at shape
        exact inFront.subset (by simp [shape.1])

section Collect

variable {A : Type}

/-- The least set that holds each admissible item once it holds what the item needs. -/
inductive Least (base : A → Prop) (needs : A → A → Prop) : A → Prop
  | intro {item : A} (admissible : base item)
      (others : ∀ other, needs item other → Least base needs other) : Least base needs item

def collect (admits : List A → A → Bool) (found items : List A) : List A :=
  items.foldl (fun found item => if admits found item then found ++ [item] else found) found

variable {admits : List A → A → Bool}

theorem collect_cons (found : List A) (first : A) (rest : List A) :
    collect admits found (first :: rest) =
      collect admits (if admits found first then found ++ [first] else found) rest :=
  rfl

theorem collect_append (found first second : List A) :
    collect admits found (first ++ second) = collect admits (collect admits found first) second :=
  List.foldl_append

theorem collect_flatMap {B : Type} (f : B → List A) (found : List A) (list : List B) :
    collect admits found (list.flatMap f) =
      list.foldl (fun found block => collect admits found (f block)) found := by
  induction list generalizing found with
  | nil => rfl
  | cons first rest ih => rw [List.flatMap_cons, collect_append, ih, List.foldl_cons]

theorem mem_collect_of_mem {found : List A} {item : A} (member : item ∈ found) (items : List A) :
    item ∈ collect admits found items := by
  induction items generalizing found with
  | nil => exact member
  | cons first rest ih =>
      rw [collect_cons]
      split
      · exact ih (List.mem_append_left _ member)
      · exact ih member

theorem mem_or_mem_of_collect {found items : List A} {item : A}
    (member : item ∈ collect admits found items) : item ∈ found ∨ item ∈ items := by
  induction items generalizing found with
  | nil => exact Or.inl member
  | cons first rest ih =>
      rw [collect_cons] at member
      split at member
      · have kept := ih member
        simp only [List.mem_append, List.mem_cons, List.not_mem_nil, or_false] at kept ⊢
        tauto
      · exact (ih member).imp_right (List.mem_cons_of_mem _)

variable {base : A → Prop} {needs : A → A → Prop} {items : List A}

/-- One pass finds the least set, since an item that is needed has been decided on before. -/
theorem mem_collect_iff_least (nodup : items.Nodup) (inside : ∀ item, base item → item ∈ items)
    (admits_iff : ∀ found, (∀ other ∈ found, other ∈ items) → ∀ item ∈ items,
      (admits found item = true ↔ base item ∧ ∀ other, needs item other → other ∈ found))
    (ordered : ∀ before item after, items = before ++ item :: after → base item →
      ∀ other ∈ items, needs item other → other ∈ before) {item : A} :
    item ∈ collect admits [] items ↔ Least base needs item := by
  constructor
  · have sound : (∀ item ∈ collect admits [] items, item ∈ items) ∧
        ∀ item ∈ collect admits [] items, Least base needs item := by
      apply foldl_rule (P := fun _ found => (∀ item ∈ found, item ∈ items) ∧
        ∀ item ∈ found, Least base needs item) items
      · simp
      · rintro before next after found split ⟨known, least⟩
        have member : next ∈ items := by simp [split]
        split
        · next admitted =>
            obtain ⟨admissible, kept⟩ := (admits_iff found known next member).mp admitted
            refine ⟨?_, ?_⟩ <;> intro other isKept <;>
              rcases List.mem_append.mp isKept with old | new
            · exact known other old
            · rwa [List.mem_singleton.mp new]
            · exact least other old
            · rw [List.mem_singleton.mp new]
              exact .intro admissible fun needed isNeeded => least needed (kept needed isNeeded)
        · exact ⟨known, least⟩
    exact sound.2 item
  · intro derived
    induction derived with
    | @intro item admissible others ih =>
        obtain ⟨before, after, split⟩ := List.append_of_mem (inside item admissible)
        have apart := List.nodup_append.mp (split ▸ nodup)
        have known : ∀ other ∈ collect admits [] before, other ∈ items := by
          intro other member
          rw [split]
          exact List.mem_append_left _ ((mem_or_mem_of_collect member).resolve_left (by simp))
        have kept : ∀ other, needs item other → other ∈ collect admits [] before := by
          intro other isNeeded
          have final := ih other isNeeded
          have other_mem : other ∈ items := (mem_or_mem_of_collect final).resolve_left (by simp)
          have early := ordered before item after split admissible other other_mem isNeeded
          rw [split, collect_append] at final
          refine (mem_or_mem_of_collect final).resolve_right ?_
          intro late
          exact apart.2.2 other early other late rfl
        have admitted := (admits_iff _ known item (by simp [split])).mpr ⟨admissible, kept⟩
        rw [split, collect_append, collect_cons, if_pos admitted]
        exact mem_collect_of_mem (by simp) after

end Collect

section Sweep

variable {A : Type} {uses : A → A → Prop}

def sweep (uses : A → A → Prop) : (A → Prop) → List A → A → Prop
  | present, [] => present
  | present, next :: rest =>
      sweep uses (fun item => present item ∧
        ¬ (item = next ∧ ∀ user, present user → ¬ uses user next)) rest

theorem sweep_of_notMem {present : A → Prop} {tried : List A} {item : A} (untried : item ∉ tried) :
    sweep uses present tried item ↔ present item := by
  induction tried generalizing present with
  | nil => rfl
  | cons next rest ih =>
      obtain ⟨other, inRest⟩ := not_or.mp (mt List.mem_cons.mpr untried)
      rw [sweep, ih inRest]
      simp [other]

theorem present_of_sweep {present : A → Prop} {tried : List A} {item : A}
    (left : sweep uses present tried item) : present item := by
  induction tried generalizing present with
  | nil => exact left
  | cons next rest ih => exact (ih left).1

theorem sweep_removes_iff {present : A → Prop} {tried : List A} (nodup : tried.Nodup)
    (inside : ∀ item ∈ tried, present item) :
    (∀ item ∈ tried, ¬ sweep uses present tried item) ↔
      ∀ before item after, tried = before ++ item :: after →
        ∀ user, present user → uses user item → user ∈ before := by
  induction tried generalizing present with
  | nil => simp
  | cons next rest ih =>
      obtain ⟨fresh, restNodup⟩ := List.nodup_cons.mp nodup
      have restInside : ∀ item ∈ rest, present item ∧
          ¬ (item = next ∧ ∀ user, present user → ¬ uses user next) := by
        intro item member
        refine ⟨inside item (List.mem_cons_of_mem _ member), ?_⟩
        rintro ⟨rfl, -⟩
        exact fresh member
      have nextGone : ¬ sweep uses present (next :: rest) next ↔
          ∀ user, present user → ¬ uses user next := by
        rw [sweep, sweep_of_notMem fresh]
        simp [inside next List.mem_cons_self]
      constructor
      · intro removed before item after split user isPresent isUse
        have unused := nextGone.mp (removed next List.mem_cons_self)
        cases before with
        | nil =>
            obtain ⟨rfl, -⟩ := List.cons.inj split
            exact absurd isUse (unused user isPresent)
        | cons first before =>
            obtain ⟨rfl, inRest⟩ := List.cons.inj split
            by_cases isNext : user = next
            · exact isNext ▸ List.mem_cons_self
            · have later := (ih restNodup restInside).mp
                (fun item member => removed item (List.mem_cons_of_mem _ member))
                before item after inRest user ⟨isPresent, by simp [isNext]⟩ isUse
              exact List.mem_cons_of_mem _ later
      · intro ordered item member
        have unused : ∀ user, present user → ¬ uses user next := fun user isPresent isUse =>
          List.not_mem_nil (ordered [] next rest rfl user isPresent isUse)
        rcases List.mem_cons.mp member with rfl | inRest
        · exact nextGone.mpr unused
        · refine (ih restNodup restInside).mpr ?_ item inRest
          rintro before other after split user ⟨isPresent, kept⟩ isUse
          have earlier := ordered (next :: before) other after (by rw [split]; rfl) user isPresent isUse
          rcases List.mem_cons.mp earlier with rfl | inBefore
          · exact absurd ⟨rfl, unused⟩ kept
          · exact inBefore

end Sweep

end Scan
