import LlvmGather.DataFlow.Domain
import LlvmGather.DataFlow.Termination
import LlvmGather.Ir.Certificate

/-!
The dominance analysis of `dominance.h` and `computeDom`. Its greatest solution is
the strict dominance relation of the flow graph.
-/

namespace LlvmGather

def dominanceAnalysis : DataFlow Nat where
  direction := .forward
  meetOp := .intersection
  initialisesBoth := true
  transferFn _ input _ domainToIndex block := ⟨input.set (indexAt domainToIndex block), ∅⟩

/-- `computeDom`, given the function its loop belongs to. -/
def computeDom (fuel : Nat) (F : Func) : Option (DataFlowResult Nat) :=
  let domain := F.blockIds
  let numElems := domain.length
  let boundaryCond := BitVector.ofSize numElems false
  let initCond := BitVector.ofSize numElems true
  dominanceAnalysis.run fuel F domain boundaryCond initCond

def dominates (X Y : Nat) (dom : DataFlowResult Nat) : Bool :=
  (dom.result Y).inVec.test (indexAt dom.domainToIndex X)

theorem indexAt_blockIds {F : Func} {block : Nat} (bound : block < F.blocks.length) :
    indexAt (indexDomain F.blockIds) block = block := by
  have small : block < (List.range F.blocks.length).length := by simpa using bound
  rw [Func.blockIds, indexAt_of_mem List.nodup_range (List.mem_range.mpr bound)]
  simpa using List.Nodup.idxOf_getElem List.nodup_range block small

theorem dominance_transfer {F : Func} {block index : Nat} {vector : BitVector}
    (bound : block < F.blocks.length) (size : vector.size = F.blockIds.length) :
    (dominanceAnalysis.transfer F F.blockIds block vector).element.test index = true ↔
      index = block ∨ vector.test index = true := by
  have inside : block < vector.size := by simpa [size, Func.blockIds] using bound
  simp [DataFlow.transfer, dominanceAnalysis, BitVector.test_set, indexAt_blockIds bound, inside,
    or_comm]

theorem dominance_lawful (F : Func) : dominanceAnalysis.Lawful F F.blockIds := by
  apply DataFlow.Lawful.of_plain rfl rfl
  · intro block vector
    rfl
  · intro block left right leftFits rightFits subset index found
    have leftSize := leftFits.size rfl
    have rightSize := rightFits.size rfl
    simp only [DataFlow.transfer, dominanceAnalysis, BitVector.test_set, leftSize, rightSize,
      Bool.or_eq_true, decide_eq_true_eq] at found ⊢
    exact found.imp (subset index) id
  · intro block vector fits
    simpa [DataFlow.transfer, dominanceAnalysis] using fits.size rfl

open FlowGraph in
theorem strictlyDominates_iff_preds {F : Func} (valid : ValidCfg F) {vertex block : Nat}
    (reachable : F.Reachable block) (interior : block ≠ F.entry) :
    F.StrictlyDominates vertex block ↔
      ∀ source ∈ F.preds block, F.Reachable source →
        vertex = source ∨ F.StrictlyDominates vertex source := by
  constructor
  · intro strict source member _
    have dominated := StrictlyDominates.predecessor strict ((F.mem_preds _ _).mp member).2
    by_cases same : vertex = source
    · exact Or.inl same
    · exact Or.inr ⟨same, dominated⟩
  · intro all
    have passes : ∀ trail, Walk F.succs F.entry trail block → vertex ∈ trail := by
      intro trail walk
      cases walk with
      | start => exact absurd rfl interior
      | step previous edge =>
          rename_i trail source
          have member : source ∈ F.preds block :=
            (F.mem_preds _ _).mpr ⟨valid.reachable_lt previous.reachable, edge⟩
          rcases all source member previous.reachable with same | strict
          · simp [same]
          · exact strict.2 trail previous
    refine ⟨?_, fun trail walk => List.mem_cons_of_mem _ (passes trail walk)⟩
    rintro rfl
    exact not_always_revisited reachable passes

open Classical in
noncomputable def strictDominators (F : Func) (block : Nat) : BitVector :=
  ⟨(List.range F.blockIds.length).map fun vertex => decide (F.StrictlyDominates vertex block)⟩

theorem size_strictDominators (F : Func) (block : Nat) :
    (strictDominators F block).size = F.blockIds.length := by
  simp [strictDominators, BitVector.size]

theorem test_strictDominators (F : Func) (block vertex : Nat) :
    (strictDominators F block).test vertex = true ↔
      vertex < F.blockIds.length ∧ F.StrictlyDominates vertex block := by
  rw [strictDominators, BitVector.test_map_range]
  simp

theorem strictDominators_equations {F : Func} (valid : ValidCfg F) :
    dominanceAnalysis.Equations F F.blockIds (strictDominators F) fun block =>
      (dominanceAnalysis.transfer F F.blockIds block (strictDominators F block)).element := by
  refine ⟨?_, ?_, ?_, fun _ _ _ => rfl⟩
  · intro block _
    exact DataFlow.fits_of_size (size_strictDominators F block)
  · intro block reachable alone index
    obtain rfl := (DataFlow.neighbors_eq_nil_iff valid rfl reachable).mp alone
    have none : (strictDominators F F.entry).test index ≠ true := by
      intro found
      have strict := ((test_strictDominators F _ index).mp found).2
      exact strict.1 (FlowGraph.dominates_entry strict.2)
    simpa [DataFlow.boundaryCond] using none
  · intro block reachable company index small
    have interior := (DataFlow.neighbors_eq_nil_iff valid rfl reachable).not.mp company
    rw [test_strictDominators, strictlyDominates_iff_preds valid reachable interior]
    simp only [small, true_and]
    apply forall_congr'
    intro source
    apply imp_congr_right
    intro member
    apply imp_congr_right
    intro sourceReachable
    have bound := valid.reachable_lt sourceReachable
    rw [TransferOutput.test_valueFor, dominance_transfer bound (size_strictDominators F source),
      test_strictDominators]
    simp [DataFlow.transfer, dominanceAnalysis, small]

theorem Equations.passes {F : Func} (valid : ValidCfg F) {inputs outputs : Nat → BitVector}
    (solution : dominanceAnalysis.Equations F F.blockIds inputs outputs) {trail : List Nat}
    {block vertex : Nat} (walk : FlowGraph.Walk F.succs F.entry trail block)
    (found : (inputs block).test vertex = true) : vertex ∈ trail := by
  have small := (solution.fits block walk.reachable).within vertex found
  refine solution.walk_rule (P := (vertex ∈ ·)) valid rfl rfl small ?_ walk found
  intro trail source target reachable ih shown
  have bound := valid.reachable_lt reachable
  rw [TransferOutput.test_valueFor,
    dominance_transfer bound ((solution.fits source reachable).size rfl)] at shown
  rcases shown with (same | earlier) | extra
  · simp [same]
  · exact List.mem_cons_of_mem _ (ih earlier)
  · simp [DataFlow.transfer, dominanceAnalysis] at extra

theorem computeDom_total {F : Func} (valid : ValidCfg F) :
    ∃ enough, ∀ fuel, enough ≤ fuel → ∃ dom, computeDom fuel F = some dom :=
  DataFlow.run_total valid (dominance_lawful F)

theorem dominates_iff {F : Func} (valid : ValidCfg F) {fuel X Y : Nat}
    {dom : DataFlowResult Nat} (computed : computeDom fuel F = some dom)
    (block : X < F.blocks.length) (reachable : F.Reachable Y) :
    dominates X Y dom = true ↔ F.StrictlyDominates X Y := by
  obtain ⟨returns, index⟩ := DataFlow.run_eq_some computed
  have solution := DataFlow.converge_equations valid (dominance_lawful F) returns
  have greatest := DataFlow.converge_extremal valid (dominance_lawful F) returns
    (strictDominators_equations valid) reachable
  rw [dominates, index, indexAt_blockIds block]
  constructor
  · intro found
    have passes : ∀ trail, FlowGraph.Walk F.succs F.entry trail Y → X ∈ trail :=
      fun trail walk => Equations.passes valid solution walk found
    refine ⟨?_, fun trail walk => List.mem_cons_of_mem _ (passes trail walk)⟩
    rintro rfl
    exact FlowGraph.not_always_revisited reachable passes
  · intro strict
    apply greatest.1 X
    rw [test_strictDominators]
    exact ⟨by simpa [Func.blockIds] using block, strict⟩

/-- `computeDom` finds exactly the blocks that every path from the entry passes. -/
theorem computeDom_exact {F : Func} (valid : ValidCfg F) {X Y : Nat}
    (block : X < F.blocks.length) (reachable : F.Reachable Y) :
    (∃ enough, ∀ fuel, enough ≤ fuel → ∃ dom, computeDom fuel F = some dom) ∧
    ∀ fuel dom, computeDom fuel F = some dom →
      (dominates X Y dom = true ↔
        X ≠ Y ∧ ∀ trail, FlowGraph.Walk F.succs F.entry trail Y → X ∈ Y :: trail) :=
  ⟨computeDom_total valid, fun _ _ computed => dominates_iff valid computed block reachable⟩

theorem computeDom_exact_sampleLoop :
    (∃ enough, ∀ fuel, enough ≤ fuel → ∃ dom, computeDom fuel sampleLoop = some dom) ∧
    ∀ fuel dom, computeDom fuel sampleLoop = some dom →
      (dominates 1 3 dom = true ↔
        1 ≠ 3 ∧ ∀ trail, FlowGraph.Walk sampleLoop.succs sampleLoop.entry trail 3 → 1 ∈ 3 :: trail) :=
  computeDom_exact sampleLoop_ssa.toValidCfg (by decide) (sampleLoop_reachable 3 (by decide))

end LlvmGather
