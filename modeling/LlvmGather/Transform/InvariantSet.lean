import LlvmGather.Transform.LoopTree

/-!
What one traversal of the dominator tree finds. An instruction is looked at after the
definitions of its operands, so that a single pass collects the least set of invariant
instructions.
-/

namespace LlvmGather

def Loop.UsesInside (L : Loop) (F : Func) (inst operand : Inst) : Prop :=
  (∃ block ∈ L.getBlocks, operand ∈ F.insts block) ∧ Value.inst operand.id ∈ inst.operands

/-- The invariant instructions of these blocks: those that pass the checks and have only
such instructions as operands from inside the loop. -/
def Invariant (F : Func) (L : Loop) (blocks : List Nat) : Inst → Prop :=
  Scan.Least (fun inst => inst.isHoistable = true ∧ ∃ block ∈ blocks, inst ∈ F.insts block)
    (L.UsesInside F)

section Traversal

variable {F : Func} {L : Loop} {idom : AList fun _ : Nat => Nat}

theorem isInvariant_iff (tidy : Tidy F) {found : List Inst}
    (inside : ∀ other ∈ found, ∃ block ∈ L.getBlocks, other ∈ F.insts block) (inst : Inst) :
    LICM.isInvariant F L found inst = true ↔
      inst.isHoistable = true ∧ ∀ operand, L.UsesInside F inst operand → operand ∈ found := by
  rw [LICM.isInvariant, Bool.and_eq_true, List.all_eq_true]
  refine and_congr_right fun _ => ⟨?_, ?_⟩
  · rintro known operand ⟨⟨block, inLoop, member⟩, uses⟩
    have contained : L.contains F operand.id = true :=
      (L.contains_iff F _).mpr ⟨block, inLoop, operand, member, rfl⟩
    obtain ⟨other, isFound, same⟩ : ∃ other ∈ found, other.id = operand.id := by
      simpa [contained] using known (.inst operand.id) uses
    obtain ⟨home, -, otherMember⟩ := inside other isFound
    rwa [← tidy.inst_unique ((F.mem_allInsts other).mpr ⟨home, otherMember⟩)
      ((F.mem_allInsts operand).mpr ⟨block, member⟩) same]
  · intro known op uses
    cases op with
    | inst id =>
        by_cases contained : L.contains F id = true
        · obtain ⟨block, inLoop, operand, member, rfl⟩ := (L.contains_iff F id).mp contained
          have isFound := known operand ⟨⟨block, inLoop, member⟩, uses⟩
          simpa [contained] using ⟨operand, isFound, rfl⟩
        · simp [contained]
    | arg | const => rfl

structure Visits (F : Func) (L : Loop) (order : List Nat) : Prop where
  perm : order.Perm L.getBlocks
  ordered : ∀ before block after, order = before ++ block :: after → block ≠ L.header →
    ∃ parent ∈ before, FlowGraph.ImmediatelyDominates F.succs F.entry parent block

variable {order : List Nat}

open FlowGraph in
theorem Visits.dominators_before (visits : Visits F L order)
    (loop : NaturalLoop F.succs F.entry L.getBlocks L.header) {before after : List Nat}
    {block outer : Nat} (split : order = before ++ block :: after) (inLoop : outer ∈ L.getBlocks)
    (strict : F.StrictlyDominates outer block) : outer ∈ before := by
  generalize lengthEq : before.length = length
  induction length using Nat.strongRecOn generalizing before block after with
  | ind length ih =>
      by_cases isHeader : block = L.header
      · subst isHeader
        have same := Dominates.antisymm (loop.reachable outer inLoop) strict.2
          (loop.dominated outer inLoop)
        exact absurd same strict.1
      · obtain ⟨parent, seen, immediate⟩ := visits.ordered before block after split isHeader
        by_cases isParent : outer = parent
        · rwa [isParent]
        · obtain ⟨front, back, rfl⟩ := List.append_of_mem seen
          have above := ih front.length (by simp [← lengthEq])
            (split.trans (List.append_assoc front (parent :: back) (block :: after)))
            ⟨isParent, immediate.closest outer strict⟩ rfl
          exact List.mem_append_left _ above

/-- In the order of the traversal operands come before the instructions that use them. -/
theorem Visits.operand_before_user (visits : Visits F L order) (ssa : StrictSSA F)
    (natural : L.Natural F) (refuses : Refuses F) {before after : List Inst} {inst operand : Inst}
    (split : order.flatMap F.insts = before ++ inst :: after) (hoistable : inst.isHoistable = true)
    (uses : L.UsesInside F inst operand) : operand ∈ before := by
  obtain ⟨⟨home, inLoop, member⟩, isOperand⟩ := uses
  obtain ⟨earlier, block, later, front, back, blocks, inside, rfl, -⟩ := Scan.flatMap_split split
  have instMember : inst ∈ F.insts block := by simp [inside]
  have reachable := natural.natural.reachable block (visits.perm.mem_iff.mp (by simp [blocks]))
  have notPhi := (refuses inst ((F.mem_allInsts inst).mpr ⟨block, instMember⟩) hoistable).1
  rcases ssa.use_after_definition reachable inside notPhi isOperand member with
    ⟨-, inFront⟩ | strict
  · exact List.mem_append_right _ inFront
  · have visited := visits.dominators_before natural.natural blocks inLoop strict
    exact List.mem_append_left _ (List.mem_flatMap.mpr ⟨home, visited, member⟩)

theorem nodup_flatMap_insts (tidy : Tidy F) {order : List Nat} (nodup : order.Nodup) :
    (order.flatMap F.insts).Nodup := by
  refine List.nodup_flatMap.mpr ⟨fun block _ => List.Nodup.of_map _ (tidy.nodup_insts block), ?_⟩
  refine nodup.imp fun apart inst first second => ?_
  exact apart (tidy.block_unique first second rfl)

theorem Visits.mem_scan (visits : Visits F L order) (ssa : StrictSSA F) (natural : L.Natural F)
    (refuses : Refuses F) (inst : Inst) :
    inst ∈ order.foldl (LICM.scanBlock F L) [] ↔ Invariant F L L.getBlocks inst := by
  have scans : order.foldl (LICM.scanBlock F L) [] =
      Scan.collect (LICM.isInvariant F L) [] (order.flatMap F.insts) :=
    (Scan.collect_flatMap F.insts [] order).symm
  have member_iff : ∀ inst, inst ∈ order.flatMap F.insts ↔
      ∃ block ∈ L.getBlocks, inst ∈ F.insts block := by
    intro inst
    simp only [List.mem_flatMap, visits.perm.mem_iff]
  rw [scans]
  apply Scan.mem_collect_iff_least
  · exact nodup_flatMap_insts ssa.toTidy (visits.perm.nodup_iff.mpr natural.nodup)
  · rintro item ⟨-, inside⟩
    exact (member_iff item).mpr inside
  · intro found known item isItem
    rw [isInvariant_iff ssa.toTidy fun other isFound => (member_iff other).mp (known other isFound)]
    simp [(member_iff item).mp isItem]
  · intro before item after split admissible other _ uses
    exact visits.operand_before_user ssa natural refuses split admissible.1 uses

theorem exists_visits (valid : ValidCfg F) (natural : L.Natural F) {fuel : Nat}
    {dom : DataFlowResult Nat} (computed : computeDom fuel F = some dom)
    (idoms : computeIdom dom = some idom) {steps : Nat} (enough : L.getBlocks.length < steps) :
    ∃ order, Visits F L order ∧
      LICM.traverse F L (getDominanceTree idom L.header L.rest) steps [L.header] [] =
        some (if order.all L.isInnermost then some (order.foldl (LICM.scanBlock F L) [])
          else none) := by
  obtain ⟨order, visits, perm, ordered⟩ := visitOrder_covers valid natural.nodup natural.natural
    computed idoms enough
  exact ⟨order, ⟨perm, ordered⟩, traverse_eq F L _ visits []⟩

theorem Visits.all_iff (visits : Visits F L order) :
    order.all L.isInnermost = true ↔ ∀ block ∈ L.getBlocks, L.isInnermost block = true := by
  simp only [List.all_eq_true, visits.perm.mem_iff]

/-- In a loop without subloops the traversal ends with the least set of invariant
instructions. -/
theorem traverse_least (ssa : StrictSSA F) (natural : L.Natural F) (refuses : Refuses F)
    (direct : ∀ block ∈ L.getBlocks, L.isInnermost block = true) {fuel : Nat}
    {dom : DataFlowResult Nat} (computed : computeDom fuel F = some dom)
    (idoms : computeIdom dom = some idom) {steps : Nat} (enough : L.getBlocks.length < steps) :
    ∃ invStmts, LICM.traverse F L (getDominanceTree idom L.header L.rest) steps
        [(getDominanceTree idom L.header L.rest).root] [] = some (some invStmts) ∧
      (invStmts.map Inst.id).Nodup ∧ ∀ inst, inst ∈ invStmts ↔ Invariant F L L.getBlocks inst := by
  obtain ⟨order, visits, returns⟩ := exists_visits ssa.toValidCfg natural computed idoms enough
  rw [if_pos (visits.all_iff.mpr direct)] at returns
  have ready := traverse_ready ssa.toTidy natural.nodup (Frontier.initial idom)
    ⟨Ready.nil, by simp⟩ returns
  rw [root_getDominanceTree]
  exact ⟨_, returns, ready.distinct, visits.mem_scan ssa natural refuses⟩

end Traversal

theorem traverse_least_sampleNest : ∃ dom idom invStmts,
    computeDom 4 sampleLoop = some dom ∧ computeIdom dom = some idom ∧
    LICM.traverse sampleLoop sampleNest (getDominanceTree idom 1 [2]) 3
      [(getDominanceTree idom 1 [2]).root] [] = some (some invStmts) ∧
    ∀ inst, inst ∈ invStmts ↔ Invariant sampleLoop sampleNest [1, 2] inst := by
  obtain ⟨idom, found⟩ := Option.isSome_iff_exists.mp
    (by decide : ((computeDom 4 sampleLoop).bind computeIdom).isSome = true)
  obtain ⟨dom, computed, idoms⟩ := Option.bind_eq_some_iff.mp found
  obtain ⟨invStmts, returns, -, least⟩ := traverse_least sampleLoop_ssa sampleNest_natural
    sampleSpeculation.refuses (by decide) computed idoms (show sampleNest.getBlocks.length < 3 by decide)
  exact ⟨dom, idom, invStmts, computed, idoms, returns, least⟩

end LlvmGather
