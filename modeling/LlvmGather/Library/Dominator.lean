import LlvmGather.Library.NaturalLoop

/-!
Immediate dominators. The dominators of a reachable vertex form a chain, so that one of
its strict dominators is dominated by all the others.
-/

namespace FlowGraph

variable {V : Type*} (succs : V → List V) (entry : V)

structure ImmediatelyDominates (vertex target : V) : Prop where
  strict : StrictlyDominates succs entry vertex target
  closest : ∀ other, StrictlyDominates succs entry other target →
    Dominates succs entry other vertex

structure DominatorLeaf (vertex : V) : Prop where
  reachable : Reachable succs entry vertex
  leaf : ∀ target, Reachable succs entry target → ¬ StrictlyDominates succs entry vertex target

variable {succs entry}

theorem Walk.detour {first second : V} (apart : ¬ Dominates succs entry first second)
    (apart' : ¬ Dominates succs entry second first) {trail : List V} {target : V}
    (walk : Walk succs entry trail target)
    (passes : first ∈ target :: trail ∨ second ∈ target :: trail) :
    ∃ other, Walk succs entry other target ∧
      (first ∉ target :: other ∨ second ∉ target :: other) := by
  obtain ⟨toSecond, walkSecond, avoidsFirst⟩ := exists_avoiding_walk apart
  obtain ⟨toFirst, walkFirst, avoidsSecond⟩ := exists_avoiding_walk apart'
  -- wherever the walk arrives at one of the two, it can arrive without the other
  have arrives : ∀ vertex, vertex = first ∨ vertex = second →
      ∃ other, Walk succs entry other vertex ∧ (first ∉ vertex :: other ∨ second ∉ vertex :: other) := by
    rintro vertex (rfl | rfl)
    · exact ⟨toFirst, walkFirst, Or.inr avoidsSecond⟩
    · exact ⟨toSecond, walkSecond, Or.inl avoidsFirst⟩
  induction walk with
  | start =>
      apply arrives
      simpa [eq_comm] using passes
  | @step trail source target previous edge ih =>
      by_cases here : target = first ∨ target = second
      · exact arrives target here
      · simp only [not_or] at here
        have earlier : first ∈ source :: trail ∨ second ∈ source :: trail :=
          passes.imp (fun member => (List.mem_cons.mp member).resolve_left (Ne.symm here.1))
            (fun member => (List.mem_cons.mp member).resolve_left (Ne.symm here.2))
        obtain ⟨other, shorter, avoids⟩ := ih earlier
        refine ⟨source :: other, shorter.step edge, ?_⟩
        exact avoids.imp (fun absent => by simpa [Ne.symm here.1] using absent)
          (fun absent => by simpa [Ne.symm here.2] using absent)

theorem Dominates.chain {first second target : V} (reachable : Reachable succs entry target)
    (left : Dominates succs entry first target) (right : Dominates succs entry second target) :
    Dominates succs entry first second ∨ Dominates succs entry second first := by
  by_contra apart
  rw [not_or] at apart
  obtain ⟨trail, walk⟩ := reachable_iff_walk.mp reachable
  obtain ⟨other, detour, avoids⟩ := walk.detour apart.1 apart.2 (Or.inl (left trail walk))
  rcases avoids with avoidsFirst | avoidsSecond
  · exact avoidsFirst (left other detour)
  · exact avoidsSecond (right other detour)

theorem exists_closest {target start : V} (reachable : Reachable succs entry target)
    (candidates : List V) (strict : StrictlyDominates succs entry start target) :
    ∃ closest, StrictlyDominates succs entry closest target ∧
      Dominates succs entry start closest ∧
      ∀ other ∈ candidates, StrictlyDominates succs entry other target →
        Dominates succs entry other closest := by
  induction candidates generalizing start with
  | nil => exact ⟨start, strict, Dominates.refl start, by simp⟩
  | cons next rest ih =>
      by_cases better : StrictlyDominates succs entry next target ∧ Dominates succs entry start next
      · obtain ⟨closest, isStrict, dominated, all⟩ := ih better.1
        refine ⟨closest, isStrict, better.2.trans dominated, ?_⟩
        exact List.forall_mem_cons.mpr ⟨fun _ => dominated, all⟩
      · obtain ⟨closest, isStrict, dominated, all⟩ := ih strict
        refine ⟨closest, isStrict, dominated, List.forall_mem_cons.mpr ⟨fun nextStrict => ?_, all⟩⟩
        rcases Dominates.chain reachable strict.2 nextStrict.2 with behind | before
        · exact absurd ⟨nextStrict, behind⟩ better
        · exact before.trans dominated

theorem exists_immediatelyDominates {target : V} (reachable : Reachable succs entry target)
    (interior : target ≠ entry) : ∃ vertex, ImmediatelyDominates succs entry vertex target := by
  obtain ⟨trail, walk⟩ := reachable_iff_walk.mp reachable
  obtain ⟨closest, strict, _, all⟩ := exists_closest reachable trail
    ⟨Ne.symm interior, entry_dominates target⟩
  refine ⟨closest, strict, fun other otherStrict => all other ?_ otherStrict⟩
  exact (List.mem_cons.mp (otherStrict.2 trail walk)).resolve_left otherStrict.1

theorem ImmediatelyDominates.unique {first second target : V}
    (reachable : Reachable succs entry target) (left : ImmediatelyDominates succs entry first target)
    (right : ImmediatelyDominates succs entry second target) : first = second :=
  Dominates.antisymm (left.strict.2.reachable reachable) (right.closest first left.strict)
    (left.closest second right.strict)

theorem immediatelyDominates_iff {vertex target : V} (reachable : Reachable succs entry target) :
    ImmediatelyDominates succs entry vertex target ↔
      StrictlyDominates succs entry vertex target ∧
      ∀ between, between ≠ vertex →
        ¬ (StrictlyDominates succs entry vertex between ∧
          StrictlyDominates succs entry between target) := by
  constructor
  · rintro ⟨strict, closest⟩
    refine ⟨strict, fun between different ⟨after, before⟩ => different ?_⟩
    exact Dominates.antisymm (before.2.reachable reachable) (closest between before) after.2
  · rintro ⟨strict, nothing⟩
    refine ⟨strict, fun other otherStrict => ?_⟩
    rcases Dominates.chain reachable strict.2 otherStrict.2 with behind | before
    · by_cases same : other = vertex
      · rw [same]
        exact Dominates.refl vertex
      · exact absurd ⟨⟨Ne.symm same, behind⟩, otherStrict⟩ (nothing other same)
    · exact before

/-- The immediate dominator of a block of a loop, other than the header, is in the loop:
all walks pass it between the header and the block. -/
theorem NaturalLoop.immediatelyDominates_mem {blocks : List V} {header block vertex : V}
    (loop : NaturalLoop succs entry blocks header) (member : block ∈ blocks)
    (interior : block ≠ header) (immediate : ImmediatelyDominates succs entry vertex block) :
    vertex ∈ blocks := by
  have reachable := loop.reachable block member
  obtain ⟨trail, walk⟩ := reachable_iff_walk.mp reachable
  obtain ⟨inner, within, extends_⟩ := loop.segment walk member
  by_cases inside : vertex ∈ inner
  · exact within vertex inside
  · have dominatesHeader : Dominates succs entry vertex header := by
      intro front toHeader
      have passed := (List.mem_cons.mp (immediate.strict.2 _ (extends_ front toHeader))).resolve_left
        immediate.strict.1
      rcases List.mem_append.mp passed with onInner | onFront
      · exact absurd onInner inside
      · exact List.mem_cons_of_mem _ onFront
    have headerDominates : Dominates succs entry header vertex :=
      immediate.closest header ⟨Ne.symm interior, loop.dominated block member⟩
    have same : vertex = header := Dominates.antisymm
      (immediate.strict.2.reachable reachable) dominatesHeader headerDominates
    exact same ▸ loop.headerMember

end FlowGraph
