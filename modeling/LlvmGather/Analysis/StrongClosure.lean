import LlvmGather.Analysis.StrongLiveness
import Mathlib.Order.Bounds.Basic

/-!
The transfer function of `DCEAnalysis` on one block, as a function on sets of
instructions: a closure of its input, and what the live phis ask of the blocks before it.
-/

namespace LlvmGather

def instSet (F : Func) (vector : BitVector) : Set Nat :=
  {id | .inst id ∈ dceDomain F ∧ vector.test ((dceDomain F).idxOf (.inst id)) = true}

def neighborSet (F : Func) (output : TransferOutput) (source : Nat) : Set Nat :=
  {id | ∃ extra, output.neighborVals.lookup source = some extra ∧ id ∈ instSet F extra}

def phiOperands (F : Func) (block : Nat) (live : Set Nat) (source : Nat) : Set Nat :=
  {id | ∃ inst ∈ F.insts block, inst.isPhi = true ∧ inst.id ∈ live ∧
    (.inst id, source) ∈ inst.incoming}

structure BlockClosed (F : Func) (block : Nat) (input live : Set Nat) : Prop where
  given : input ⊆ live
  roots : ∀ inst ∈ F.insts block, inst.isAlwaysLive = true → inst.id ∈ live
  operands : ∀ inst ∈ F.insts block, inst.isPhi = false → inst.id ∈ live →
    ∀ id, .inst id ∈ inst.operands → id ∈ live

variable {F : Func} {block : Nat}

theorem BlockClosed.union {left right leftLive rightLive : Set Nat}
    (leftClosed : BlockClosed F block left leftLive)
    (rightClosed : BlockClosed F block right rightLive) :
    BlockClosed F block (left ∪ right) (leftLive ∪ rightLive) where
  given := Set.union_subset_union leftClosed.given rightClosed.given
  roots inst member live := Or.inl (leftClosed.roots inst member live)
  operands inst member plain live id operand :=
    live.imp (fun inLeft => leftClosed.operands inst member plain inLeft id operand)
      fun inRight => rightClosed.operands inst member plain inRight id operand

theorem BlockClosed.weaken {smaller input live : Set Nat} (closed : BlockClosed F block input live)
    (subset : smaller ⊆ input) : BlockClosed F block smaller live :=
  { closed with given := subset.trans closed.given }

theorem instSet_or (F : Func) (left right : BitVector) :
    instSet F (left.or right) = instSet F left ∪ instSet F right := by
  ext id
  simp only [instSet, Set.mem_ofPred_eq, Set.mem_union, BitVector.test_or, Bool.or_eq_true]
  exact and_or_left

theorem phiOperands_union (F : Func) (block : Nat) (left right : Set Nat) (source : Nat) :
    phiOperands F block (left ∪ right) source =
      phiOperands F block left source ∪ phiOperands F block right source := by
  ext id
  constructor
  · rintro ⟨inst, member, phi, live, entry⟩
    exact live.imp (fun inLeft => ⟨inst, member, phi, inLeft, entry⟩)
      fun inRight => ⟨inst, member, phi, inRight, entry⟩
  · rintro (⟨inst, member, phi, live, entry⟩ | ⟨inst, member, phi, live, entry⟩)
    · exact ⟨inst, member, phi, Or.inl live, entry⟩
    · exact ⟨inst, member, phi, Or.inr live, entry⟩

section Transfer

variable (verified : Verified F) {input : BitVector} (size : input.size = (dceDomain F).length)
include verified size

theorem mem_instSet_element (id : Nat) :
    id ∈ instSet F (dceAnalysis.transfer F (dceDomain F) block input).element ↔
      id ∈ instSet F (liveSet F block input) :=
  and_congr_right fun _ => dce_element verified block size _

theorem instSet_element :
    instSet F (dceAnalysis.transfer F (dceDomain F) block input).element =
      instSet F (liveSet F block input) :=
  Set.ext (mem_instSet_element verified size)

theorem liveSet_blockClosed (ordered : DefinitionsFirst F block) :
    BlockClosed F block (instSet F input) (instSet F (liveSet F block input)) where
  given _ member := ⟨member.1, input_subset_liveSet verified block size _ member.2⟩
  roots _ member live :=
    ⟨inst_mem_dceDomain member, alwaysLive_mem_liveSet verified size member live⟩
  operands _ member plain live _ operand :=
    ⟨operand_mem_dceDomain verified member operand,
      liveSet_closed verified ordered size member plain live.2 operand⟩

theorem liveSet_least {live : Set Nat} (closed : BlockClosed F block (instSet F input) live) :
    instSet F (liveSet F block input) ⊆ live := by
  have least := (dceScan_spec verified block size).least fun bit =>
    ∀ id, .inst id ∈ dceDomain F → (dceDomain F).idxOf (.inst id) = bit → id ∈ live
  rintro id ⟨known, found⟩
  refine least ?_ ?_ _ found id known rfl
  · intro bit start id known here
    rcases ((markAlwaysLive_spec block size).2 bit).mp start with
      given | ⟨inst, member, always, same⟩
    · exact closed.given ⟨known, here ▸ given⟩
    · have equal := (List.idxOf_inj known).mp (here.trans same.symm)
      rw [Value.inst.inj equal]
      exact closed.roots inst member always
  · intro inst member plain inside operand uses id known same
    rw [List.mem_reverse] at member
    have equal := (List.idxOf_inj known).mp same
    rw [Value.inst.inj equal]
    exact closed.operands inst member plain (inside inst.id (inst_mem_dceDomain member) rfl)
      operand uses

theorem element_isLeast (ordered : DefinitionsFirst F block) :
    IsLeast {live | BlockClosed F block (instSet F input) live}
      (instSet F (dceAnalysis.transfer F (dceDomain F) block input).element) := by
  rw [instSet_element verified size]
  exact ⟨liveSet_blockClosed verified size ordered, fun _ closed => liveSet_least verified size closed⟩

omit size in
theorem phiOperands_mark_iff (source bit : Nat) :
    (∃ inst ∈ F.insts block, inst.isPhi = true ∧
      (liveSet F block input).test ((dceDomain F).idxOf (.inst inst.id)) = true ∧
      ∃ value, (value, source) ∈ inst.incoming ∧ value.isInst = true ∧
        indexAt (indexDomain (dceDomain F)) value = bit) ↔
      ∃ id ∈ phiOperands F block (instSet F (liveSet F block input)) source,
        .inst id ∈ dceDomain F ∧ (dceDomain F).idxOf (.inst id) = bit := by
  constructor
  · rintro ⟨inst, member, phi, live, value, entry, kind, same⟩
    cases value with
    | inst id =>
        have known := operand_mem_dceDomain verified member (Inst.mem_operands_of_mem_incoming entry)
        rw [indexAt_of_mem (nodup_dceDomain F) known] at same
        exact ⟨id, ⟨inst, member, phi, ⟨inst_mem_dceDomain member, live⟩, entry⟩, known, same⟩
    | arg index => simp [Value.isInst] at kind
    | const id => simp [Value.isInst] at kind
  · rintro ⟨id, ⟨inst, member, phi, live, entry⟩, known, same⟩
    refine ⟨inst, member, phi, live.2, .inst id, entry, rfl, ?_⟩
    rw [indexAt_of_mem (nodup_dceDomain F) known, same]

theorem marked_phiOperands :
    Marked (dceDomain F).length (dceAnalysis.transfer F (dceDomain F) block input).neighborVals
      fun source bit => ∃ id ∈ phiOperands F block
        (instSet F (dceAnalysis.transfer F (dceDomain F) block input).element) source,
          .inst id ∈ dceDomain F ∧ (dceDomain F).idxOf (.inst id) = bit := by
  rw [instSet_element verified size]
  exact (dce_marked verified block size).congr fun source bit =>
    phiOperands_mark_iff verified source bit

omit size in
theorem phiOperands_known {live : Set Nat} {source id : Nat}
    (taken : id ∈ phiOperands F block live source) : .inst id ∈ dceDomain F := by
  obtain ⟨inst, member, -, -, entry⟩ := taken
  exact operand_mem_dceDomain verified member (Inst.mem_operands_of_mem_incoming entry)

theorem neighborSet_eq (source : Nat) :
    neighborSet F (dceAnalysis.transfer F (dceDomain F) block input) source =
      phiOperands F block
        (instSet F (dceAnalysis.transfer F (dceDomain F) block input).element) source := by
  have marked := @marked_phiOperands F block verified input size
  ext id
  constructor
  · rintro ⟨extra, found, known, bit⟩
    obtain ⟨other, taken, -, same⟩ := (((marked.bits source extra found).2 _).mp bit).1
    have equal := (List.idxOf_inj known).mp same.symm
    rw [Value.inst.inj equal]
    exact taken
  · intro taken
    have known := phiOperands_known verified taken
    obtain ⟨extra, found⟩ := Option.isSome_iff_exists.mp
      ((marked.key source).mpr ⟨_, id, taken, known, rfl⟩)
    refine ⟨extra, found, known, ((marked.bits source extra found).2 _).mpr ⟨?_, ?_⟩⟩
    · exact ⟨id, taken, known, rfl⟩
    · exact List.idxOf_lt_length_of_mem known

theorem neighborVals_isSome_iff (source : Nat) :
    ((dceAnalysis.transfer F (dceDomain F) block input).neighborVals.lookup source).isSome ↔
      (neighborSet F (dceAnalysis.transfer F (dceDomain F) block input) source).Nonempty := by
  rw [neighborSet_eq verified size, (marked_phiOperands verified size).key]
  constructor
  · rintro ⟨_, id, taken, -, -⟩
    exact ⟨id, taken⟩
  · rintro ⟨id, taken⟩
    exact ⟨_, id, taken, phiOperands_known verified taken, rfl⟩

end Transfer

theorem instSet_element_or (verified : Verified F) (ordered : DefinitionsFirst F block)
    {left right : BitVector} (leftSize : left.size = (dceDomain F).length)
    (rightSize : right.size = (dceDomain F).length) :
    instSet F (dceAnalysis.transfer F (dceDomain F) block (left.or right)).element =
      instSet F (dceAnalysis.transfer F (dceDomain F) block left).element ∪
        instSet F (dceAnalysis.transfer F (dceDomain F) block right).element := by
  have bothSize : (left.or right).size = (dceDomain F).length := by
    rw [BitVector.size_or, leftSize, rightSize, max_self]
  obtain ⟨leftClosed, leftLeast⟩ := element_isLeast verified leftSize ordered
  obtain ⟨rightClosed, rightLeast⟩ := element_isLeast verified rightSize ordered
  obtain ⟨bothClosed, bothLeast⟩ := element_isLeast verified bothSize ordered
  have split := instSet_or F left right
  apply Set.Subset.antisymm
  · apply bothLeast
    have closed := BlockClosed.union leftClosed rightClosed
    rwa [← split] at closed
  · apply Set.union_subset
    · exact leftLeast (BlockClosed.weaken bothClosed (split ▸ Set.subset_union_left))
    · exact rightLeast (BlockClosed.weaken bothClosed (split ▸ Set.subset_union_right))

/-- The transfer function of a block is the least closed set above its input, it asks of
each block before it what its live phis take from there, and it distributes over unions. -/
theorem dceTransfer_closure (verified : Verified F) (ordered : DefinitionsFirst F block)
    {left right : BitVector} (leftSize : left.size = (dceDomain F).length)
    (rightSize : right.size = (dceDomain F).length) :
    IsLeast {live | BlockClosed F block (instSet F left) live}
      (instSet F (dceAnalysis.transfer F (dceDomain F) block left).element) ∧
    (∀ source,
      neighborSet F (dceAnalysis.transfer F (dceDomain F) block left) source =
        phiOperands F block
          (instSet F (dceAnalysis.transfer F (dceDomain F) block left).element) source ∧
      (((dceAnalysis.transfer F (dceDomain F) block left).neighborVals.lookup source).isSome ↔
        (neighborSet F (dceAnalysis.transfer F (dceDomain F) block left) source).Nonempty)) ∧
    instSet F (dceAnalysis.transfer F (dceDomain F) block (left.or right)).element =
      instSet F (dceAnalysis.transfer F (dceDomain F) block left).element ∪
        instSet F (dceAnalysis.transfer F (dceDomain F) block right).element ∧
    ∀ source,
      neighborSet F (dceAnalysis.transfer F (dceDomain F) block (left.or right)) source =
        neighborSet F (dceAnalysis.transfer F (dceDomain F) block left) source ∪
          neighborSet F (dceAnalysis.transfer F (dceDomain F) block right) source := by
  have bothSize : (left.or right).size = (dceDomain F).length := by
    rw [BitVector.size_or, leftSize, rightSize, max_self]
  have elements := instSet_element_or verified ordered leftSize rightSize
  refine ⟨element_isLeast verified leftSize ordered, fun source =>
    ⟨neighborSet_eq verified leftSize source, neighborVals_isSome_iff verified leftSize source⟩,
    elements, fun source => ?_⟩
  rw [neighborSet_eq verified bothSize, neighborSet_eq verified leftSize,
    neighborSet_eq verified rightSize, elements, phiOperands_union]

theorem dceTransfer_closure_sampleLoop :
    5 ∈ neighborSet sampleLoop (dceAnalysis.transfer sampleLoop (dceDomain sampleLoop) 1
      (BitVector.ofSize 9 false)) 2 := by
  have sizes : (BitVector.ofSize 9 false).size = (dceDomain sampleLoop).length := by decide
  have ordered := definitionsFirst sampleLoop_ssa (sampleLoop_reachable 1 (by decide))
  rw [((dceTransfer_closure sampleLoop_ssa.toVerified ordered sizes sizes).2.1 2).1]
  refine ⟨{ id := 2, name := "i", shape := .phi [(.inst 0, 0), (.inst 5, 2)] }, by decide, rfl, ?_,
    by decide⟩
  exact ⟨by decide, by decide⟩

end LlvmGather
