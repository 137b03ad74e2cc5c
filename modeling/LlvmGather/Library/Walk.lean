import Mathlib.Logic.Relation
import Mathlib.Tactic

/-!
Walks, reachability and dominance in a flow graph given by a successor function.
A walk records the vertices it has left behind, most recent first.
-/

namespace FlowGraph

variable {V : Type*} (succs : V → List V) (entry : V)

def Edge (source target : V) : Prop := target ∈ succs source

def Reachable (vertex : V) : Prop := Relation.ReflTransGen (Edge succs) entry vertex

inductive Walk : List V → V → Prop
  | start : Walk [] entry
  | step {trail source target} : Walk trail source → target ∈ succs source →
      Walk (source :: trail) target

def Dominates (vertex target : V) : Prop :=
  ∀ trail, Walk succs entry trail target → vertex ∈ target :: trail

def StrictlyDominates (vertex target : V) : Prop :=
  vertex ≠ target ∧ Dominates succs entry vertex target

variable {succs entry}

theorem Walk.reachable {trail : List V} {vertex : V} (walk : Walk succs entry trail vertex) :
    Reachable succs entry vertex := by
  induction walk with
  | start => exact Relation.ReflTransGen.refl
  | step _ edge ih => exact Relation.ReflTransGen.tail ih edge

theorem reachable_iff_walk {vertex : V} :
    Reachable succs entry vertex ↔ ∃ trail, Walk succs entry trail vertex := by
  constructor
  · intro reachable
    induction reachable with
    | refl => exact ⟨[], Walk.start⟩
    | tail _ edge ih =>
        obtain ⟨trail, walk⟩ := ih
        exact ⟨_ :: trail, Walk.step walk edge⟩
  · rintro ⟨trail, walk⟩
    exact walk.reachable

theorem Reachable.step {source target : V} (reachable : Reachable succs entry source)
    (edge : target ∈ succs source) : Reachable succs entry target :=
  Relation.ReflTransGen.tail reachable edge

theorem Walk.cut {trail : List V} {vertex passed : V} (walk : Walk succs entry trail vertex)
    (member : passed ∈ trail) : ∃ recent shorter, trail = recent ++ passed :: shorter ∧
      Walk succs entry shorter passed := by
  induction walk with
  | start => simp at member
  | step previous edge ih =>
      rename_i trail source target
      rcases List.mem_cons.mp member with same | earlier
      · subst passed
        exact ⟨[], trail, rfl, previous⟩
      · obtain ⟨recent, shorter, split, cut⟩ := ih earlier
        exact ⟨source :: recent, shorter, by rw [split]; rfl, cut⟩

theorem Walk.passed_reachable {trail : List V} {vertex passed : V}
    (walk : Walk succs entry trail vertex) (member : passed ∈ trail) :
    Reachable succs entry passed := by
  obtain ⟨_, _, _, cut⟩ := walk.cut member
  exact cut.reachable

theorem Walk.extend {trail recent : List V} {vertex target : V}
    (front : Walk succs entry trail vertex) :
    ∀ {rear : List V}, Walk succs vertex recent target → rear = recent ++ trail →
      Walk succs entry rear target := by
  intro rear walk
  induction walk generalizing rear with
  | start =>
      intro split
      subst split
      exact front
  | step previous edge ih =>
      intro split
      subst split
      exact Walk.step (ih rfl) edge

theorem Walk.after {trail recent shorter : List V} {vertex passed : V}
    (walk : Walk succs entry trail vertex) (split : trail = recent ++ passed :: shorter) :
    Walk succs passed (recent ++ [passed]) vertex := by
  induction walk generalizing recent with
  | start => simp at split
  | step previous edge ih =>
      cases recent with
      | nil =>
          simp only [List.nil_append, List.cons.injEq] at split
          obtain ⟨same, _⟩ := split
          subst same
          exact Walk.step Walk.start edge
      | cons next recent =>
          simp only [List.cons_append, List.cons.injEq] at split
          obtain ⟨same, rest⟩ := split
          subst same
          exact Walk.step (ih rest) edge

theorem Dominates.refl (vertex : V) : Dominates succs entry vertex vertex := by
  intro trail _
  simp

theorem Dominates.trans {first second third : V} (left : Dominates succs entry first second)
    (right : Dominates succs entry second third) : Dominates succs entry first third := by
  intro trail walk
  rcases List.mem_cons.mp (right trail walk) with same | passed
  · subst second
    exact left trail walk
  · obtain ⟨recent, shorter, split, cut⟩ := walk.cut passed
    have member := left shorter cut
    subst split
    simp only [List.mem_cons, List.mem_append] at member ⊢
    tauto

theorem dominates_entry {vertex : V} (dominates : Dominates succs entry vertex entry) :
    vertex = entry := by
  simpa using dominates [] Walk.start

theorem entry_dominates (vertex : V) : Dominates succs entry entry vertex := by
  intro trail walk
  induction walk with
  | start => simp
  | step _ _ ih => exact List.mem_cons_of_mem _ ih

theorem Dominates.reachable {vertex target : V} (dominates : Dominates succs entry vertex target)
    (reachable : Reachable succs entry target) : Reachable succs entry vertex := by
  obtain ⟨trail, walk⟩ := reachable_iff_walk.mp reachable
  rcases List.mem_cons.mp (dominates trail walk) with same | passed
  · subst vertex
    exact reachable
  · exact walk.passed_reachable passed

theorem dominates_of_not_reachable {vertex target : V} (dead : ¬ Reachable succs entry target) :
    Dominates succs entry vertex target :=
  fun trail walk => absurd (reachable_iff_walk.mpr ⟨trail, walk⟩) dead

theorem not_always_revisited {vertex : V} (reachable : Reachable succs entry vertex) :
    ¬ ∀ trail, Walk succs entry trail vertex → vertex ∈ trail := by
  intro revisits
  obtain ⟨trail, walk⟩ := reachable_iff_walk.mp reachable
  generalize lengthEq : trail.length = length
  induction length using Nat.strongRecOn generalizing trail with
  | ind length ih =>
      obtain ⟨recent, shorter, split, cut⟩ := walk.cut (revisits trail walk)
      apply ih shorter.length _ shorter cut rfl
      subst split
      simp only [List.length_append, List.length_cons] at lengthEq
      omega

/-- Two reachable vertices that dominate each other are equal: otherwise every walk to one
of them would have been there before. -/
theorem Dominates.antisymm {left right : V} (reachable : Reachable succs entry left)
    (forth : Dominates succs entry left right) (back : Dominates succs entry right left) :
    left = right := by
  by_contra different
  apply not_always_revisited reachable
  intro trail walk
  have passed := (List.mem_cons.mp (back trail walk)).resolve_left (Ne.symm different)
  obtain ⟨recent, shorter, split, cut⟩ := walk.cut passed
  have again := (List.mem_cons.mp (forth shorter cut)).resolve_left different
  subst split
  exact List.mem_append_right _ (List.mem_cons_of_mem _ again)

theorem StrictlyDominates.predecessor {vertex source target : V}
    (strict : StrictlyDominates succs entry vertex target) (edge : target ∈ succs source) :
    Dominates succs entry vertex source := by
  intro trail walk
  have member := strict.2 (source :: trail) (Walk.step walk edge)
  exact (List.mem_cons.mp member).resolve_left strict.1

theorem StrictlyDominates.trans_left {first second third : V}
    (reachable : Reachable succs entry third)
    (left : StrictlyDominates succs entry first second)
    (right : Dominates succs entry second third) : StrictlyDominates succs entry first third := by
  refine ⟨?_, left.2.trans right⟩
  intro same
  subst third
  exact left.1 (Dominates.antisymm reachable left.2 right)

theorem exists_avoiding_walk {vertex target : V} (avoids : ¬ Dominates succs entry vertex target) :
    ∃ trail, Walk succs entry trail target ∧ vertex ∉ target :: trail := by
  simp only [Dominates, not_forall] at avoids
  obtain ⟨trail, walk, absent⟩ := avoids
  exact ⟨trail, walk, absent⟩

end FlowGraph
