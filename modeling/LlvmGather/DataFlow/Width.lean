import LlvmGather.DataFlow.Extremal

/-!
The sizes of the vectors that `run` returns. A framework that initialises one side of a
block only leaves the other side empty, until a visit takes the meet over its neighbors.
-/

namespace LlvmGather

namespace DataFlow

variable {D : Type} [DecidableEq D] {analysis : DataFlow D} {F : Func} {domain : List D}
  {fuel : Nat} {final : Nat → BlockResult}

theorem size_input_visited (valid : ValidCfg F) (lawful : analysis.Lawful F domain)
    (converged : analysis.converge F domain fuel (analysis.start F domain) = some final)
    {block : Nat} (reachable : F.Reachable block)
    (company : analysis.blockNeighbors F block ≠ []) :
    (analysis.input (final block)).size = domain.length := by
  let Wide (result : Nat → BlockResult) : Prop := Invariant analysis F domain result ∧
    (analysis.input (result block)).size = domain.length
  have visit : ∀ result, Invariant analysis F domain result →
      Wide (Function.update result block (analysis.processBlock F domain result block)) := by
    intro result inv
    refine ⟨inv.update valid lawful reachable, ?_⟩
    simp [DataFlow.processBlock, inv.size_blockInput valid company]
  have keeps : ∀ result visited, F.Reachable visited → Wide result →
      Wide (Function.update result visited (analysis.processBlock F domain result visited)) := by
    intro result visited visitedReachable wide
    by_cases same : visited = block
    · exact same ▸ visit result wide.1
    · refine ⟨wide.1.update valid lawful visitedReachable, ?_⟩
      rw [Function.update_of_ne (Ne.symm same)]
      exact wide.2
  have first : Wide (analysis.sweep F domain (analysis.start F domain)).1 := by
    have inOrder : ∀ {other}, other ∈ analysis.traversalOrder F → F.Reachable other :=
      (mem_traversalOrder valid).mp
    obtain ⟨before, after, split⟩ := List.append_of_mem ((mem_traversalOrder valid).mpr reachable)
    rw [DataFlow.sweep, split, List.foldl_append, List.foldl_cons]
    apply visits_rule (fun other member => inOrder (by simp [split, member])) keeps
    exact visit _ (visits_invariant valid lawful
      (fun other member => inOrder (by simp [split, member])) (Invariant.start valid lawful))
  exact (converge_rule (fun result => sweep_rule valid keeps result) first converged).2

theorem input_kept (valid : ValidCfg F)
    (converged : analysis.converge F domain fuel (analysis.start F domain) = some final)
    {block : Nat} (idle : ¬ (F.Reachable block ∧ analysis.blockNeighbors F block ≠ [])) :
    analysis.input (final block) = analysis.input (analysis.start F domain block) := by
  have keeps : ∀ result visited, F.Reachable visited →
      analysis.input (result block) = analysis.input (analysis.start F domain block) →
      analysis.input (Function.update result visited
        (analysis.processBlock F domain result visited) block) =
          analysis.input (analysis.start F domain block) := by
    intro result visited reachable kept
    by_cases same : block = visited
    · subst same
      have alone : analysis.blockNeighbors F block = [] := by
        by_contra company
        exact idle ⟨reachable, company⟩
      simpa [DataFlow.processBlock, blockInput_alone alone] using kept
    · rwa [Function.update_of_ne same]
  exact converge_rule (fun result => sweep_rule valid keeps result)
    (sweep_rule valid keeps _ rfl) converged

theorem size_input_idle (valid : ValidCfg F) (oneSide : analysis.initialisesBoth = false)
    (converged : analysis.converge F domain fuel (analysis.start F domain) = some final)
    {block : Nat} (inside : block < F.blocks.length)
    (idle : ¬ (F.Reachable block ∧ analysis.blockNeighbors F block ≠ [])) :
    (analysis.input (final block)).size =
      if block ∈ analysis.boundaryBlocks F then domain.length else 0 := by
  rw [input_kept valid converged idle, DataFlow.start, DataFlow.initialResult]
  split
  · simp [DataFlow.boundaryRes, boundaryCond]
  · simp [DataFlow.interiorRes, oneSide, BitVector.empty, BitVector.size]

theorem size_input_iff (valid : ValidCfg F) (lawful : analysis.Lawful F domain)
    (oneSide : analysis.initialisesBoth = false)
    (converged : analysis.converge F domain fuel (analysis.start F domain) = some final)
    {block : Nat} (inside : block < F.blocks.length) :
    ((analysis.input (final block)).size = domain.length ↔
      domain = [] ∨ block ∈ analysis.boundaryBlocks F ∨
        F.Reachable block ∧ analysis.blockNeighbors F block ≠ []) ∧
    (analysis.input (final block)).size ≤ domain.length := by
  by_cases busy : F.Reachable block ∧ analysis.blockNeighbors F block ≠ []
  · have size := size_input_visited valid lawful converged busy.1 busy.2
    exact ⟨iff_of_true size (Or.inr (Or.inr busy)), size.le⟩
  · rw [size_input_idle valid oneSide converged inside busy, or_iff_left busy]
    split
    · next boundary => simp [boundary]
    · next interior => simp [interior, eq_comm]

end DataFlow

end LlvmGather
