import LlvmGather.DataFlow.Marking
import LlvmGather.DataFlow.Termination
import LlvmGather.Ir.Certificate

/-!
The strong liveness analysis of `DeadCodeElimination.cpp`. A block is scanned forward
for the instructions that are always live, then backward for their operands. A bit that
is set somewhere travels to every block above, so that it reaches the definition.
-/

namespace LlvmGather

def Value.isInst : Value → Bool
  | .inst _ => true
  | _ => false

/-- Terminators, debug intrinsics, landing pads and side effects are always live. -/
def Inst.isAlwaysLive (inst : Inst) : Bool :=
  inst.isTerminator || inst.isDbgInfo || inst.isLandingPad || inst.mayHaveSideEffects

structure DceScan where
  useSet : BitVector
  defSet : BitVector
  neighborVals : AList fun _ : Nat => BitVector

def markAlwaysLive (domainToIndex : AList fun _ : Value => Nat) (useSet : BitVector)
    (inst : Inst) : BitVector :=
  if inst.isAlwaysLive then
    match domainToIndex.lookup (.inst inst.id) with
    | some valInd => useSet.set valInd
    | none => useSet
  else useSet

def recordOperands (domainToIndex : AList fun _ : Value => Nat) (scan : DceScan) (inst : Inst) :
    DceScan :=
  let domainSize := domainToIndex.entries.length
  match inst.shape with
  | .phi incoming =>
      { scan with
        neighborVals := markIncoming Value.isInst domainSize (indexAt domainToIndex) incoming
          scan.neighborVals }
  | _ =>
      { scan with
        useSet := markOperands Value.isInst (indexAt domainToIndex) inst.operands scan.useSet }

def dceStep (domainToIndex : AList fun _ : Value => Nat) (scan : DceScan) (inst : Inst) : DceScan :=
  match domainToIndex.lookup (.inst inst.id) with
  | some valInd =>
      if scan.useSet.test valInd then
        let used := recordOperands domainToIndex scan inst
        { used with defSet := used.defSet.set valInd }
      else scan
  | none => scan

def dceScan (domainToIndex : AList fun _ : Value => Nat) (input : BitVector) (insts : List Inst) :
    DceScan :=
  let domainSize := domainToIndex.entries.length
  let live := insts.foldl (markAlwaysLive domainToIndex) input
  insts.reverse.foldl (dceStep domainToIndex) ⟨live, BitVector.ofSize domainSize false, ∅⟩

def dceAnalysis : DataFlow Value where
  direction := .backward
  meetOp := .union
  initialisesBoth := true
  transferFn F input _ domainToIndex block :=
    let scan := dceScan domainToIndex input (F.insts block)
    ⟨BitVector.genKill scan.defSet scan.useSet input, scan.neighborVals⟩

def dceDomain (F : Func) : List Value := collectDomain (F.allInsts.map fun inst => .inst inst.id)

def runDce (fuel : Nat) (F : Func) : Option (DataFlowResult Value) :=
  let domain := dceDomain F
  let boundaryCond := BitVector.ofSize domain.length false
  let initCond := BitVector.ofSize domain.length false
  dceAnalysis.run fuel F domain boundaryCond initCond

theorem nodup_dceDomain (F : Func) : (dceDomain F).Nodup := nodup_collectDomain _

theorem mem_dceDomain (F : Func) (value : Value) :
    value ∈ dceDomain F ↔ ∃ inst ∈ F.allInsts, .inst inst.id = value := by
  simp [dceDomain, mem_collectDomain]

theorem inst_mem_dceDomain {F : Func} {block : Nat} {inst : Inst} (member : inst ∈ F.insts block) :
    .inst inst.id ∈ dceDomain F :=
  (mem_dceDomain F _).mpr ⟨inst, (F.mem_allInsts inst).mpr ⟨block, member⟩, rfl⟩

theorem markAlwaysLive_spec {F : Func} (block : Nat) {input : BitVector}
    (size : input.size = (dceDomain F).length) :
    ((F.insts block).foldl (markAlwaysLive (indexDomain (dceDomain F))) input).size =
      (dceDomain F).length ∧
    ∀ bit, ((F.insts block).foldl (markAlwaysLive (indexDomain (dceDomain F))) input).test bit =
        true ↔
      input.test bit = true ∨ ∃ inst ∈ F.insts block, inst.isAlwaysLive = true ∧
        (dceDomain F).idxOf (.inst inst.id) = bit := by
  apply Scan.foldl_rule (P := fun scanned (useSet : BitVector) => useSet.size = (dceDomain F).length ∧
    ∀ bit, useSet.test bit = true ↔ input.test bit = true ∨ ∃ inst ∈ scanned,
      inst.isAlwaysLive = true ∧ (dceDomain F).idxOf (.inst inst.id) = bit) (F.insts block)
  · simpa using size
  · rintro before inst after useSet split ⟨sized, bits⟩
    have member : .inst inst.id ∈ dceDomain F :=
      inst_mem_dceDomain (show inst ∈ F.insts block by simp [split])
    have small := List.idxOf_lt_length_of_mem member
    unfold markAlwaysLive
    rw [lookup_indexDomain (nodup_dceDomain F), if_pos member]
    by_cases live : inst.isAlwaysLive = true
    · rw [if_pos live]
      refine ⟨by simpa using sized, ?_⟩
      intro bit
      rw [BitVector.test_set, Bool.or_eq_true, bits, decide_eq_true_eq, sized]
      simp only [List.mem_append, List.mem_singleton, or_and_right, exists_or, exists_eq_left, live,
        true_and, small, and_true, or_assoc]
      exact or_congr_right (or_congr_right ⟨Eq.symm, Eq.symm⟩)
    · rw [if_neg live]
      refine ⟨sized, ?_⟩
      intro bit
      rw [bits]
      simp [or_and_right, exists_or, live]

theorem recordOperands_phi {domainToIndex : AList fun _ : Value => Nat} {inst : Inst}
    (phi : inst.isPhi = true) (scan : DceScan) :
    recordOperands domainToIndex scan inst = { scan with
      neighborVals := markIncoming Value.isInst domainToIndex.entries.length
        (indexAt domainToIndex) inst.incoming scan.neighborVals } := by
  cases shape : inst.shape <;> simp_all [Inst.isPhi, Inst.incoming, recordOperands]

theorem recordOperands_plain {domainToIndex : AList fun _ : Value => Nat} {inst : Inst}
    (notPhi : inst.isPhi = false) (scan : DceScan) :
    recordOperands domainToIndex scan inst = { scan with
      useSet := markOperands Value.isInst (indexAt domainToIndex) inst.operands scan.useSet } := by
  cases shape : inst.shape <;> simp_all [Inst.isPhi, recordOperands]

structure DceScan.Spec (domain : List Value) (start : BitVector) (scanned : List Inst)
    (scan : DceScan) : Prop where
  useSize : scan.useSet.size = domain.length
  defSize : scan.defSet.size = domain.length
  grows : BitVector.Subset start scan.useSet
  least : ∀ bound : Nat → Prop, (∀ bit, start.test bit = true → bound bit) →
    (∀ inst ∈ scanned, inst.isPhi = false → bound (domain.idxOf (.inst inst.id)) →
      ∀ id, .inst id ∈ inst.operands → bound (domain.idxOf (.inst id))) →
    ∀ bit, scan.useSet.test bit = true → bound bit
  closed : ∀ before inst after, scanned = before ++ inst :: after → inst.isPhi = false →
    (∀ later ∈ after, later.isPhi = false → .inst inst.id ∉ later.operands) →
    scan.useSet.test (domain.idxOf (.inst inst.id)) = true →
    ∀ id, .inst id ∈ inst.operands → scan.useSet.test (domain.idxOf (.inst id)) = true
  marks : Marked domain.length scan.neighborVals fun source bit =>
    ∃ inst ∈ scanned, inst.isPhi = true ∧
      scan.useSet.test (domain.idxOf (.inst inst.id)) = true ∧
      ∃ value, (value, source) ∈ inst.incoming ∧ value.isInst = true ∧
        indexAt (indexDomain domain) value = bit

theorem DceScan.Spec.initial {domain : List Value} {start : BitVector}
    (size : start.size = domain.length) :
    DceScan.Spec domain start [] ⟨start, BitVector.ofSize domain.length false, ∅⟩ where
  useSize := size
  defSize := by simp
  grows := BitVector.Subset.refl _
  least bound inside _ := inside
  closed := by simp
  marks := (Marked.empty domain.length).congr (by simp)

theorem DceScan.Spec.skip {domain : List Value} {start : BitVector} {scanned : List Inst}
    {scan : DceScan} (spec : DceScan.Spec domain start scanned scan) {inst : Inst}
    (dead : scan.useSet.test (domain.idxOf (.inst inst.id)) = false) :
    DceScan.Spec domain start (scanned ++ [inst]) scan where
  useSize := spec.useSize
  defSize := spec.defSize
  grows := spec.grows
  least bound inside steps :=
    spec.least bound inside fun other member => steps other (List.mem_append_left _ member)
  closed before other after split notPhi unused live := by
    rcases Scan.snoc_split split with ⟨_, rfl, _⟩ | ⟨rest, rfl, front⟩
    · rw [dead] at live
      exact absurd live Bool.false_ne_true
    · exact spec.closed before other rest front notPhi
        (fun later member => unused later (by simp [member])) live
  marks := by
    apply spec.marks.congr
    intro source bit
    simp [or_and_right, exists_or, dead]

theorem DceScan.Spec.livePhi {domain : List Value} {start : BitVector} {scanned : List Inst}
    {scan : DceScan} (spec : DceScan.Spec domain start scanned scan) {inst : Inst}
    (phi : inst.isPhi = true)
    (live : scan.useSet.test (domain.idxOf (.inst inst.id)) = true) (valInd : Nat) :
    DceScan.Spec domain start (scanned ++ [inst])
      { scan with
        defSet := scan.defSet.set valInd
        neighborVals := markIncoming Value.isInst domain.length (indexAt (indexDomain domain))
          inst.incoming scan.neighborVals } where
  useSize := spec.useSize
  defSize := by simpa using spec.defSize
  grows := spec.grows
  least bound inside steps :=
    spec.least bound inside fun other member => steps other (List.mem_append_left _ member)
  closed before other after split notPhi unused used := by
    rcases Scan.snoc_split split with ⟨_, rfl, _⟩ | ⟨rest, rfl, front⟩
    · rw [phi] at notPhi
      exact absurd notPhi (by simp)
    · exact spec.closed before other rest front notPhi
        (fun later member => unused later (by simp [member])) used
  marks := by
    apply (spec.marks.incoming Value.isInst _ inst.incoming).congr
    intro source bit
    simp [or_and_right, exists_or, live, phi]

theorem test_markOperands {domain : List Value} (nodup : domain.Nodup) {useSet : BitVector}
    (size : useSet.size = domain.length) {operands : List Value}
    (complete : ∀ id, .inst id ∈ operands → .inst id ∈ domain) (bit : Nat) :
    (markOperands Value.isInst (indexAt (indexDomain domain)) operands useSet).test bit = true ↔
      useSet.test bit = true ∨ ∃ id, .inst id ∈ operands ∧ domain.idxOf (.inst id) = bit := by
  rw [(markOperands_spec Value.isInst (indexAt (indexDomain domain)) operands useSet).2, size]
  apply or_congr_right
  constructor
  · rintro ⟨_, value, operand, kind, same⟩
    cases value with
    | inst id => exact ⟨id, operand, by rw [← same, indexAt_of_mem nodup (complete id operand)]⟩
    | arg index => simp [Value.isInst] at kind
    | const id => simp [Value.isInst] at kind
  · rintro ⟨id, operand, rfl⟩
    exact ⟨List.idxOf_lt_length_of_mem (complete id operand), .inst id, operand, rfl,
      indexAt_of_mem nodup (complete id operand)⟩

theorem DceScan.Spec.livePlain {domain : List Value} (nodup : domain.Nodup) {start : BitVector}
    {scanned : List Inst} {scan : DceScan} (spec : DceScan.Spec domain start scanned scan)
    {inst : Inst} (notPhi : inst.isPhi = false) (noPhis : ∀ other ∈ scanned, other.isPhi = false)
    (live : scan.useSet.test (domain.idxOf (.inst inst.id)) = true)
    (complete : ∀ id, .inst id ∈ inst.operands → .inst id ∈ domain) (valInd : Nat) :
    DceScan.Spec domain start (scanned ++ [inst])
      { scan with
        useSet := markOperands Value.isInst (indexAt (indexDomain domain)) inst.operands scan.useSet
        defSet := scan.defSet.set valInd } := by
  have size := (markOperands_spec Value.isInst (indexAt (indexDomain domain)) inst.operands
    scan.useSet).1
  have bits := test_markOperands nodup spec.useSize complete
  refine ⟨size.trans spec.useSize, by simpa using spec.defSize, ?_, ?_, ?_, ?_⟩
  · intro bit found
    exact (bits bit).mpr (Or.inl (spec.grows bit found))
  · intro bound inside steps bit found
    have old := spec.least bound inside fun other member =>
      steps other (List.mem_append_left _ member)
    rcases (bits bit).mp found with before | ⟨id, operand, rfl⟩
    · exact old bit before
    · exact steps inst (by simp) notPhi (old _ live) id operand
  · intro before other after split otherPlain unused used id operand
    rcases Scan.snoc_split split with ⟨_, rfl, _⟩ | ⟨rest, rfl, front⟩
    · exact (bits _).mpr (Or.inr ⟨id, operand, rfl⟩)
    · rcases (bits _).mp used with usedBefore | ⟨user, userOperand, same⟩
      · exact (bits _).mpr (Or.inl (spec.closed before other rest front otherPlain
          (fun later member => unused later (by simp [member])) usedBefore id operand))
      · have equal := (List.idxOf_inj (complete user userOperand)).mp same
        exact absurd (equal ▸ userOperand) (unused inst (by simp) notPhi)
  · apply spec.marks.congr
    intro source bit
    constructor
    · rintro ⟨other, member, phi, _⟩
      rw [noPhis other member] at phi
      exact absurd phi Bool.false_ne_true
    · rintro ⟨other, member, phi, _⟩
      rcases List.mem_append.mp member with inScanned | last
      · rw [noPhis other inScanned] at phi
        exact absurd phi Bool.false_ne_true
      · rw [List.mem_singleton.mp last, notPhi] at phi
        exact absurd phi Bool.false_ne_true

theorem operand_mem_dceDomain {F : Func} (verified : Verified F) {block : Nat} {inst : Inst}
    (member : inst ∈ F.insts block) {id : Nat} (operand : .inst id ∈ inst.operands) :
    .inst id ∈ dceDomain F := by
  obtain ⟨definition, defined, rfl⟩ :=
    verified.operandsDefined inst ((F.mem_allInsts inst).mpr ⟨block, member⟩) id operand
  exact (mem_dceDomain F _).mpr ⟨definition, defined, rfl⟩

theorem plain_before_plain {F : Func} (verified : Verified F) {block : Nat}
    {before after : List Inst} {inst : Inst}
    (split : (F.insts block).reverse = before ++ inst :: after) (notPhi : inst.isPhi = false) :
    ∀ other ∈ before, other.isPhi = false := by
  obtain ⟨phis, rest, shape, allPhis, allPlain⟩ := verified.phisFirst block
  have forward : phis ++ rest = after.reverse ++ inst :: before.reverse := by
    rw [← shape, ← List.reverse_reverse (F.insts block), split]
    simp
  intro other member
  rcases List.append_eq_append_iff.mp forward with ⟨middle, _, tail⟩ | ⟨middle, front, tail⟩
  · apply allPlain
    rw [tail]
    simp [member]
  · cases middle with
    | nil =>
        apply allPlain
        rw [← List.nil_append rest, ← tail]
        simp [member]
    | cons first middle =>
        simp only [List.cons_append, List.cons.injEq] at tail
        have isPhi := allPhis first (by simp [front])
        rw [← tail.1, notPhi] at isPhi
        exact absurd isPhi Bool.false_ne_true

theorem dceScan_spec {F : Func} (verified : Verified F) (block : Nat) {input : BitVector}
    (size : input.size = (dceDomain F).length) :
    DceScan.Spec (dceDomain F)
      ((F.insts block).foldl (markAlwaysLive (indexDomain (dceDomain F))) input)
      (F.insts block).reverse (dceScan (indexDomain (dceDomain F)) input (F.insts block)) := by
  have nodup := nodup_dceDomain F
  unfold dceScan
  rw [length_indexDomain nodup]
  apply Scan.foldl_rule (F.insts block).reverse
    (DceScan.Spec.initial (markAlwaysLive_spec block size).1)
  intro before inst after scan split spec
  have member : inst ∈ F.insts block := by
    rw [← List.mem_reverse, split]
    simp
  unfold dceStep
  rw [lookup_indexDomain nodup, if_pos (inst_mem_dceDomain member)]
  cases live : scan.useSet.test ((dceDomain F).idxOf (.inst inst.id)) with
  | false => simpa [live] using spec.skip live
  | true =>
      simp only [live, if_true]
      cases phi : inst.isPhi with
      | true =>
          rw [recordOperands_phi phi, length_indexDomain nodup]
          exact spec.livePhi phi live _
      | false =>
          rw [recordOperands_plain phi]
          exact spec.livePlain nodup phi (plain_before_plain verified split phi) live
            (fun id operand => operand_mem_dceDomain verified member operand) _

def liveSet (F : Func) (block : Nat) (input : BitVector) : BitVector :=
  (dceScan (indexDomain (dceDomain F)) input (F.insts block)).useSet

theorem input_subset_liveSet {F : Func} (verified : Verified F) (block : Nat) {input : BitVector}
    (size : input.size = (dceDomain F).length) : BitVector.Subset input (liveSet F block input) :=
  fun bit found => (dceScan_spec verified block size).grows bit
    (((markAlwaysLive_spec block size).2 bit).mpr (Or.inl found))

theorem alwaysLive_mem_liveSet {F : Func} (verified : Verified F) {block : Nat} {input : BitVector}
    (size : input.size = (dceDomain F).length) {inst : Inst} (member : inst ∈ F.insts block)
    (live : inst.isAlwaysLive = true) :
    (liveSet F block input).test ((dceDomain F).idxOf (.inst inst.id)) = true :=
  (dceScan_spec verified block size).grows _
    (((markAlwaysLive_spec block size).2 _).mpr (Or.inr ⟨inst, member, live, rfl⟩))

def DefinitionsFirst (F : Func) (block : Nat) : Prop :=
  ∀ before inst after, F.insts block = before ++ inst :: after → inst.isPhi = false →
    ∀ later ∈ inst :: after, .inst later.id ∉ inst.operands

theorem liveSet_closed {F : Func} (verified : Verified F) {block : Nat}
    (ordered : DefinitionsFirst F block) {input : BitVector}
    (size : input.size = (dceDomain F).length) {inst : Inst} (member : inst ∈ F.insts block)
    (notPhi : inst.isPhi = false)
    (live : (liveSet F block input).test ((dceDomain F).idxOf (.inst inst.id)) = true) {id : Nat}
    (operand : .inst id ∈ inst.operands) :
    (liveSet F block input).test ((dceDomain F).idxOf (.inst id)) = true := by
  obtain ⟨front, back, split⟩ := List.append_of_mem member
  have reversed : (F.insts block).reverse = back.reverse ++ inst :: front.reverse := by
    simp [split]
  apply (dceScan_spec verified block size).closed _ _ _ reversed notPhi _ live id operand
  intro user inFront userPlain uses
  rw [List.mem_reverse] at inFront
  obtain ⟨front', middle, rfl⟩ := List.append_of_mem inFront
  have userSplit : F.insts block = front' ++ user :: (middle ++ inst :: back) := by
    simpa using split
  exact ordered _ _ _ userSplit userPlain inst (by simp) uses

theorem dce_element {F : Func} (verified : Verified F) (block : Nat) {input : BitVector}
    (size : input.size = (dceDomain F).length) (bit : Nat) :
    (dceAnalysis.transfer F (dceDomain F) block input).element.test bit = true ↔
      (liveSet F block input).test bit = true := by
  simp only [DataFlow.transfer, dceAnalysis, BitVector.test_genKill, liveSet]
  constructor
  · rintro (used | ⟨_, _, found⟩)
    · exact used
    · exact input_subset_liveSet verified block size bit found
  · exact Or.inl

theorem dce_marked {F : Func} (verified : Verified F) (block : Nat) {input : BitVector}
    (size : input.size = (dceDomain F).length) :
    Marked (dceDomain F).length
      (dceAnalysis.transfer F (dceDomain F) block input).neighborVals fun source bit =>
        ∃ inst ∈ F.insts block, inst.isPhi = true ∧
          (liveSet F block input).test ((dceDomain F).idxOf (.inst inst.id)) = true ∧
          ∃ value, (value, source) ∈ inst.incoming ∧ value.isInst = true ∧
            indexAt (indexDomain (dceDomain F)) value = bit := by
  apply (dceScan_spec verified block size).marks.congr
  intro source bit
  simp only [List.mem_reverse, liveSet]

theorem dceStep_mono {F : Func} {left right : DceScan} (inst : Inst)
    (sizes : left.useSet.size = right.useSet.size)
    (subset : BitVector.Subset left.useSet right.useSet) :
    (dceStep (indexDomain (dceDomain F)) left inst).useSet.size =
      (dceStep (indexDomain (dceDomain F)) right inst).useSet.size ∧
    BitVector.Subset (dceStep (indexDomain (dceDomain F)) left inst).useSet
      (dceStep (indexDomain (dceDomain F)) right inst).useSet := by
  have records : ∀ scan : DceScan,
      (recordOperands (indexDomain (dceDomain F)) scan inst).useSet.size = scan.useSet.size ∧
      BitVector.Subset scan.useSet (recordOperands (indexDomain (dceDomain F)) scan inst).useSet := by
    intro scan
    cases phi : inst.isPhi with
    | true =>
        rw [recordOperands_phi phi]
        exact ⟨rfl, BitVector.Subset.refl _⟩
    | false =>
        rw [recordOperands_plain phi]
        obtain ⟨size, bits⟩ := markOperands_spec Value.isInst
          (indexAt (indexDomain (dceDomain F))) inst.operands scan.useSet
        exact ⟨size, fun bit found => (bits bit).mpr (Or.inl found)⟩
  unfold dceStep
  cases (indexDomain (dceDomain F)).lookup (.inst inst.id) with
  | none => exact ⟨sizes, subset⟩
  | some valInd =>
      by_cases leftLive : left.useSet.test valInd = true
      · simp only [leftLive, subset valInd leftLive, if_true]
        refine ⟨by simp [(records left).1, (records right).1, sizes], ?_⟩
        cases phi : inst.isPhi with
        | true => simpa [recordOperands_phi phi] using subset
        | false =>
            intro bit
            simp only [recordOperands_plain phi, (markOperands_spec _ _ _ _).2, sizes]
            exact Or.imp (subset bit) id
      · simp only [if_neg leftLive]
        by_cases rightLive : right.useSet.test valInd = true
        · simp only [if_pos rightLive]
          exact ⟨sizes.trans (records right).1.symm, subset.trans (records right).2⟩
        · simp only [if_neg rightLive]
          exact ⟨sizes, subset⟩

theorem liveSet_mono {F : Func} (block : Nat) {left right : BitVector}
    (leftSize : left.size = (dceDomain F).length) (rightSize : right.size = (dceDomain F).length)
    (subset : BitVector.Subset left right) :
    BitVector.Subset (liveSet F block left) (liveSet F block right) := by
  obtain ⟨leftStart, leftBits⟩ := markAlwaysLive_spec block leftSize
  obtain ⟨rightStart, rightBits⟩ := markAlwaysLive_spec block rightSize
  suffices scans : ∀ (insts : List Inst) (left right : DceScan), left.useSet.size = right.useSet.size →
      BitVector.Subset left.useSet right.useSet →
      BitVector.Subset (insts.foldl (dceStep (indexDomain (dceDomain F))) left).useSet
        (insts.foldl (dceStep (indexDomain (dceDomain F))) right).useSet by
    apply scans _ _ _ (leftStart.trans rightStart.symm)
    intro bit found
    exact (rightBits bit).mpr (((leftBits bit).mp found).imp (subset bit) id)
  intro insts
  induction insts with
  | nil => exact fun _ _ _ starts => starts
  | cons inst rest ih =>
      intro left right sizes starts
      obtain ⟨sizes', starts'⟩ := dceStep_mono (F := F) inst sizes starts
      exact ih _ _ sizes' starts'

theorem dce_lawful {F : Func} (verified : Verified F) :
    dceAnalysis.Lawful F (dceDomain F) where
  mono block left right leftFits rightFits subset := by
    have leftSize := leftFits.size rfl
    have rightSize := rightFits.size rfl
    have grows := liveSet_mono block leftSize rightSize subset
    apply (dce_marked verified block leftSize).le (dce_marked verified block rightSize)
    · intro bit found
      rw [dce_element verified block leftSize] at found
      rw [dce_element verified block rightSize]
      exact grows bit found
    · rintro source bit ⟨inst, member, phi, live, entry⟩
      exact ⟨inst, member, phi, grows _ live, entry⟩
  determined block left right leftFits rightFits elements := by
    have leftSize := leftFits.size rfl
    have rightSize := rightFits.size rfl
    have same : ∀ bit, (liveSet F block left).test bit = true ↔
        (liveSet F block right).test bit = true := by
      intro bit
      rw [← dce_element verified block leftSize, ← dce_element verified block rightSize, elements]
    constructor
    · apply (dce_marked verified block leftSize).le (dce_marked verified block rightSize)
      · exact fun bit found => by rwa [← elements]
      · rintro source bit ⟨inst, member, phi, live, entry⟩
        exact ⟨inst, member, phi, (same _).mp live, entry⟩
    · apply (dce_marked verified block rightSize).le (dce_marked verified block leftSize)
      · exact fun bit found => by rwa [elements]
      · rintro source bit ⟨inst, member, phi, live, entry⟩
        exact ⟨inst, member, phi, (same _).mpr live, entry⟩
  sized block vector fits := by
    have size := fits.size rfl
    have spec := dceScan_spec verified block size
    apply (dce_marked verified block size).sized
    simp [DataFlow.transfer, dceAnalysis, spec.defSize, spec.useSize]
  plain meet := by simp [dceAnalysis] at meet
  order := by simp [dceAnalysis]

/-- The least set of instructions that holds everything always live and the instruction
operands of its members. -/
inductive Needed (F : Func) : Nat → Prop
  | alwaysLive {inst : Inst} : inst ∈ F.allInsts → inst.isAlwaysLive = true → Needed F inst.id
  | operand {inst : Inst} {id : Nat} : inst ∈ F.allInsts → Needed F inst.id →
      .inst id ∈ inst.operands → Needed F id

open Classical in
noncomputable def neededVector (F : Func) : BitVector :=
  ⟨(dceDomain F).map fun value => decide (∃ id, value = .inst id ∧ Needed F id)⟩

theorem size_neededVector (F : Func) : (neededVector F).size = (dceDomain F).length := by
  simp [neededVector, BitVector.size]

theorem test_neededVector {F : Func} {id : Nat} (member : .inst id ∈ dceDomain F) :
    (neededVector F).test ((dceDomain F).idxOf (.inst id)) = true ↔ Needed F id := by
  have small := List.idxOf_lt_length_of_mem member
  simp [neededVector, BitVector.test, List.getD_eq_getElem?_getD, small]

theorem liveSet_needed {F : Func} (verified : Verified F) (block : Nat) :
    BitVector.Subset (liveSet F block (neededVector F)) (neededVector F) := by
  have size := size_neededVector F
  apply (dceScan_spec verified block size).least fun bit => (neededVector F).test bit = true
  · intro bit found
    rcases ((markAlwaysLive_spec block size).2 bit).mp found with given | ⟨inst, member, live, rfl⟩
    · exact given
    · rw [test_neededVector (inst_mem_dceDomain member)]
      exact Needed.alwaysLive ((F.mem_allInsts inst).mpr ⟨block, member⟩) live
  · intro inst member _ needed id operand
    rw [List.mem_reverse] at member
    rw [test_neededVector (inst_mem_dceDomain member)] at needed
    rw [test_neededVector (operand_mem_dceDomain verified member operand)]
    exact Needed.operand ((F.mem_allInsts inst).mpr ⟨block, member⟩) needed operand

theorem neededVector_bound {F : Func} (verified : Verified F) :
    dceAnalysis.Bound F (dceDomain F) fun _ => neededVector F where
  fits _ _ := DataFlow.fits_of_size (size_neededVector F)
  boundary _ _ _ := by simp [MeetOp.Towards, dceAnalysis, BitVector.Subset, DataFlow.boundaryCond]
  union _ block _ neighbor _ _ index small shown := by
    have size := size_neededVector F
    rw [(dce_marked verified neighbor size).test_valueFor small,
      dce_element verified neighbor size] at shown
    rcases shown with live | ⟨inst, member, phi, live, value, entry, kind, same⟩
    · exact liveSet_needed verified neighbor index live
    · have needed := liveSet_needed verified neighbor _ live
      rw [test_neededVector (inst_mem_dceDomain member)] at needed
      cases value with
      | inst id =>
          have operand := Inst.mem_operands_of_mem_incoming entry
          have known := operand_mem_dceDomain verified member operand
          rw [indexAt_of_mem (nodup_dceDomain F) known] at same
          rw [← same, test_neededVector known]
          exact Needed.operand ((F.mem_allInsts inst).mpr ⟨neighbor, member⟩) needed operand
      | arg index => simp [Value.isInst] at kind
      | const id => simp [Value.isInst] at kind
  intersection meet := by simp [dceAnalysis] at meet

section Solution

variable {F : Func} {inputs outputs : Nat → BitVector}

theorem test_outputs_iff (verified : Verified F)
    (solution : dceAnalysis.Equations F (dceDomain F) inputs outputs) {block : Nat}
    (reachable : F.Reachable block) (bit : Nat) :
    (outputs block).test bit = true ↔ (liveSet F block (inputs block)).test bit = true := by
  rw [solution.transfer block reachable,
    dce_element verified block ((solution.fits block reachable).size rfl)]

theorem outputs_of_inputs (verified : Verified F)
    (solution : dceAnalysis.Equations F (dceDomain F) inputs outputs) {block : Nat}
    (reachable : F.Reachable block) {bit : Nat} (found : (inputs block).test bit = true) :
    (outputs block).test bit = true := by
  rw [test_outputs_iff verified solution reachable]
  exact input_subset_liveSet verified block ((solution.fits block reachable).size rfl) bit found

theorem bit_travels (verified : Verified F)
    (solution : dceAnalysis.Equations F (dceDomain F) inputs outputs) {trail : List Nat}
    {block : Nat} (walk : FlowGraph.Walk F.succs F.entry trail block) {bit : Nat}
    (small : bit < (dceDomain F).length) (found : (outputs block).test bit = true) :
    ∀ passed ∈ block :: trail, (outputs passed).test bit = true := by
  induction walk with
  | start => simpa using found
  | step previous edge ih =>
      rename_i trail source target
      have sourceReachable : F.Reachable source := previous.reachable
      have reachable : F.Reachable target := sourceReachable.step edge
      have atEnd : (inputs source).test bit = true := by
        apply (solution.meet source sourceReachable (List.ne_nil_of_mem edge) bit small).mpr
        refine ⟨target, edge, reachable, ?_⟩
        rw [TransferOutput.test_valueFor, ← solution.transfer target reachable]
        exact Or.inl found
      have atStart := outputs_of_inputs verified solution sourceReachable atEnd
      intro passed member
      rcases List.mem_cons.mp member with rfl | above
      · exact found
      · exact ih atStart passed above

theorem definitionsFirst (ssa : StrictSSA F) {block : Nat} (reachable : F.Reachable block) :
    DefinitionsFirst F block := by
  intro before user after split userPlain inst listed uses
  obtain ⟨middle, back, place⟩ := List.append_of_mem listed
  have instSplit : F.insts block = (before ++ middle) ++ inst :: back := by
    rw [split, place, List.append_assoc]
  have member : inst ∈ F.insts block := by simp [instSplit]
  rcases ssa.use_after_definition reachable split userPlain uses member with
    ⟨_, earlier⟩ | strict
  · obtain ⟨front, rest, rfl⟩ := List.append_of_mem earlier
    have otherSplit : F.insts block = front ++ inst :: (rest ++ user :: after) := by
      simpa using split
    have twice := (ssa.split_unique instSplit otherSplit rfl).1
    have lengths := congrArg List.length twice
    simp only [List.length_append, List.length_cons] at lengths
    omega
  · exact strict.1 rfl

theorem operand_of_plain (ssa : StrictSSA F)
    (solution : dceAnalysis.Equations F (dceDomain F) inputs outputs) {userBlock : Nat}
    (reachable : F.Reachable userBlock) {user : Inst} (userMember : user ∈ F.insts userBlock)
    (plain : user.isPhi = false)
    (live : (outputs userBlock).test ((dceDomain F).idxOf (.inst user.id)) = true) {block : Nat}
    {inst : Inst} (member : inst ∈ F.insts block) (uses : .inst inst.id ∈ user.operands) :
    (outputs block).test ((dceDomain F).idxOf (.inst inst.id)) = true := by
  have known := operand_mem_dceDomain ssa.toVerified userMember uses
  have atUser : (outputs userBlock).test ((dceDomain F).idxOf (.inst inst.id)) = true := by
    rw [test_outputs_iff ssa.toVerified solution reachable] at live ⊢
    exact liveSet_closed ssa.toVerified (definitionsFirst ssa reachable)
      ((solution.fits userBlock reachable).size rfl) userMember plain live uses
  obtain ⟨front, back, split⟩ := List.append_of_mem userMember
  obtain ⟨trail, walk⟩ := FlowGraph.reachable_iff_walk.mp reachable
  apply bit_travels ssa.toVerified solution walk (List.idxOf_lt_length_of_mem known) atUser
  rcases ssa.use_after_definition reachable split plain uses member with ⟨here, _⟩ | strict
  · simp [here]
  · exact strict.2 trail walk

theorem operand_of_phi (ssa : StrictSSA F)
    (allReachable : ∀ block < F.blocks.length, F.Reachable block)
    (solution : dceAnalysis.Equations F (dceDomain F) inputs outputs) {userBlock : Nat}
    {user : Inst} (userMember : user ∈ F.insts userBlock) (phi : user.isPhi = true)
    (live : (outputs userBlock).test ((dceDomain F).idxOf (.inst user.id)) = true) {block : Nat}
    {inst : Inst} (member : inst ∈ F.insts block) (uses : .inst inst.id ∈ user.operands) :
    (outputs block).test ((dceDomain F).idxOf (.inst inst.id)) = true := by
  have verified := ssa.toVerified
  have reachable := allReachable userBlock (F.lt_length_of_mem_insts userMember)
  have known := operand_mem_dceDomain verified userMember uses
  have small := List.idxOf_lt_length_of_mem known
  have size := (solution.fits userBlock reachable).size rfl
  rw [test_outputs_iff verified solution reachable] at live
  obtain ⟨source, entry⟩ := Inst.exists_incoming_of_isPhi phi uses
  have edge := (ssa.phiIncoming userBlock user userMember phi source).mp ⟨_, entry⟩
  have sourceReachable := allReachable source (F.lt_length_of_mem_succs edge)
  have atEnd : (inputs source).test ((dceDomain F).idxOf (.inst inst.id)) = true := by
    apply (solution.meet source sourceReachable (List.ne_nil_of_mem edge) _ small).mpr
    refine ⟨userBlock, edge, reachable, ?_⟩
    rw [(dce_marked verified userBlock size).test_valueFor small]
    exact Or.inr ⟨user, userMember, phi, live, .inst inst.id, entry, rfl,
      indexAt_of_mem (nodup_dceDomain F) known⟩
  obtain ⟨origin, dominates, definition, defined, sameId⟩ :=
    ssa.phisDominated userBlock reachable user userMember inst.id source entry sourceReachable
  obtain rfl : origin = block := ssa.block_unique defined member sameId
  obtain ⟨trail, walk⟩ := FlowGraph.reachable_iff_walk.mp sourceReachable
  exact bit_travels verified solution walk small
    (outputs_of_inputs verified solution sourceReachable atEnd) origin (dominates trail walk)

theorem needed_of_solution (ssa : StrictSSA F)
    (allReachable : ∀ block < F.blocks.length, F.Reachable block)
    (solution : dceAnalysis.Equations F (dceDomain F) inputs outputs) {id : Nat}
    (needed : Needed F id) {block : Nat} {inst : Inst} (member : inst ∈ F.insts block)
    (same : inst.id = id) :
    (outputs block).test ((dceDomain F).idxOf (.inst id)) = true := by
  induction needed generalizing block inst with
  | @alwaysLive root here live =>
      have reachable := allReachable block (F.lt_length_of_mem_insts member)
      obtain rfl : inst = root :=
        ssa.inst_unique ((F.mem_allInsts _).mpr ⟨block, member⟩) here same
      rw [test_outputs_iff ssa.toVerified solution reachable]
      exact alwaysLive_mem_liveSet ssa.toVerified ((solution.fits block reachable).size rfl) member
        live
  | @operand user id here _ uses ih =>
      subst same
      obtain ⟨userBlock, userMember⟩ := (F.mem_allInsts user).mp here
      have live := ih userMember rfl
      cases phi : user.isPhi with
      | false =>
          have reachable := allReachable userBlock (F.lt_length_of_mem_insts userMember)
          exact operand_of_plain ssa solution reachable userMember phi live member uses
      | true => exact operand_of_phi ssa allReachable solution userMember phi live member uses

end Solution

theorem runDce_total {F : Func} (verified : Verified F) :
    ∃ enough, ∀ fuel, enough ≤ fuel → ∃ output, runDce fuel F = some output :=
  DataFlow.run_total verified.toValidCfg (dce_lawful verified)

theorem dce_in_iff {F : Func} (ssa : StrictSSA F)
    (allReachable : ∀ block < F.blocks.length, F.Reachable block) {fuel : Nat}
    {output : DataFlowResult Value} (returns : runDce fuel F = some output) {block : Nat}
    {inst : Inst} (member : inst ∈ F.insts block) :
    (output.result block).inVec.test (indexAt output.domainToIndex (.inst inst.id)) = true ↔
      Needed F inst.id := by
  have valid := ssa.toValidCfg
  have lawful := dce_lawful ssa.toVerified
  have bound := F.lt_length_of_mem_insts member
  have reachable := allReachable block bound
  have known := inst_mem_dceDomain member
  obtain ⟨converged, index⟩ := DataFlow.run_eq_some returns
  have solution := DataFlow.converge_equations valid lawful converged
  rw [index, indexAt_of_mem (nodup_dceDomain F) known]
  constructor
  · intro found
    have below := DataFlow.converge_bound valid lawful converged
      (neededVector_bound ssa.toVerified) reachable
    have size := (solution.fits block reachable).size rfl
    have live := (dce_element ssa.toVerified block size _).mp
      ((solution.transfer block reachable _).symm.trans found)
    have needed := liveSet_mono block size (size_neededVector F) below _ live
    exact (test_neededVector known).mp (liveSet_needed ssa.toVerified block _ needed)
  · intro needed
    exact needed_of_solution ssa allReachable solution needed member rfl

/-- The bit of an instruction at the start of its block is set exactly if it is needed. -/
theorem strongLiveness_exact {F : Func} (ssa : StrictSSA F)
    (allReachable : ∀ block < F.blocks.length, F.Reachable block) {block : Nat} {inst : Inst}
    (member : inst ∈ F.insts block) :
    (∃ enough, ∀ fuel, enough ≤ fuel → ∃ output, runDce fuel F = some output) ∧
    ∀ fuel output, runDce fuel F = some output →
      ((output.result block).inVec.test (indexAt output.domainToIndex (.inst inst.id)) = true ↔
        Needed F inst.id) :=
  ⟨runDce_total ssa.toVerified, fun _ _ returns => dce_in_iff ssa allReachable returns member⟩

theorem strongLiveness_exact_sampleLoop :
    (∃ enough, ∀ fuel, enough ≤ fuel → ∃ output, runDce fuel sampleLoop = some output) ∧
    ∀ fuel output, runDce fuel sampleLoop = some output →
      ((output.result 1).inVec.test (indexAt output.domainToIndex (.inst 2)) = true ↔
        Needed sampleLoop 2) :=
  have member : ({ id := 2, name := "i", shape := .phi [(.inst 0, 0), (.inst 5, 2)] } : Inst) ∈
      sampleLoop.insts 1 := by decide
  strongLiveness_exact sampleLoop_ssa sampleLoop_reachable member

end LlvmGather
