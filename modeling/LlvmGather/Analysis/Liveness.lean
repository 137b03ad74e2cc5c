import LlvmGather.DataFlow.Marking
import LlvmGather.DataFlow.Termination
import LlvmGather.Ir.Certificate

/-!
The liveness analysis of `liveness.cpp`. The scan of a block is described first; the
least solution is then the set of values that some path still uses, where a phi uses
its operand on the edge from the incoming block.
-/

namespace LlvmGather

def Value.isInstOrArg : Value → Bool
  | .inst _ => true
  | .arg _ => true
  | .const _ => false

structure LivenessScan where
  defSet : BitVector
  useSet : BitVector
  neighborVals : AList fun _ : Nat => BitVector

def recordUses (domainToIndex : AList fun _ : Value => Nat) (scan : LivenessScan) (inst : Inst) :
    LivenessScan :=
  let domainSize := domainToIndex.entries.length
  match inst.shape with
  | .phi incoming =>
      { scan with
        neighborVals := markIncoming Value.isInstOrArg domainSize (indexAt domainToIndex) incoming
          scan.neighborVals }
  | _ =>
      { scan with
        useSet := markOperands
          (fun val => val.isInstOrArg && !scan.defSet.test (indexAt domainToIndex val))
          (indexAt domainToIndex) inst.operands scan.useSet }

def recordDefinition (domainToIndex : AList fun _ : Value => Nat) (scan : LivenessScan)
    (inst : Inst) : LivenessScan :=
  match domainToIndex.lookup (.inst inst.id) with
  | some valInd => { scan with defSet := scan.defSet.set valInd }
  | none => scan

def livenessStep (domainToIndex : AList fun _ : Value => Nat) (scan : LivenessScan) (inst : Inst) :
    LivenessScan :=
  recordDefinition domainToIndex (recordUses domainToIndex scan inst) inst

def livenessScan (domainToIndex : AList fun _ : Value => Nat) (insts : List Inst) : LivenessScan :=
  let domainSize := domainToIndex.entries.length
  insts.foldl (livenessStep domainToIndex)
    ⟨BitVector.ofSize domainSize false, BitVector.ofSize domainSize false, ∅⟩

def livenessAnalysis : DataFlow Value where
  direction := .backward
  meetOp := .union
  initialisesBoth := false
  transferFn F input _ domainToIndex block :=
    let scan := livenessScan domainToIndex (F.insts block)
    ⟨BitVector.genKill scan.defSet scan.useSet input, scan.neighborVals⟩

def livenessDomain (F : Func) : List Value :=
  collectDomain ((F.allInsts.flatMap Inst.operands).filter Value.isInstOrArg)

def runLiveness (fuel : Nat) (F : Func) : Option (DataFlowResult Value) :=
  let domain := livenessDomain F
  let boundaryCond := BitVector.ofSize domain.length false
  let initCond := BitVector.ofSize domain.length false
  livenessAnalysis.run fuel F domain boundaryCond initCond

def Defined (insts : List Inst) (value : Value) : Prop := ∃ inst ∈ insts, Value.inst inst.id = value

/-- Some instruction of the list, not a phi, uses the value before the list defines it. -/
def Exposed (insts : List Inst) (value : Value) : Prop :=
  ∃ before inst after, insts = before ++ inst :: after ∧ inst.isPhi = false ∧
    value ∈ inst.operands ∧ ¬ Defined before value

def PhiUse (F : Func) (block source : Nat) (value : Value) : Prop :=
  ∃ inst ∈ F.insts block, (value, source) ∈ inst.incoming

theorem defined_append (insts : List Inst) (inst : Inst) (value : Value) :
    Defined (insts ++ [inst]) value ↔ Defined insts value ∨ Value.inst inst.id = value := by
  simp [Defined, or_and_right, exists_or]

theorem exposed_append (insts : List Inst) (inst : Inst) (value : Value) :
    Exposed (insts ++ [inst]) value ↔ Exposed insts value ∨
      inst.isPhi = false ∧ value ∈ inst.operands ∧ ¬ Defined insts value := by
  constructor
  · rintro ⟨before, user, after, split, notPhi, operand, unseen⟩
    rcases Scan.snoc_split split with ⟨rfl, rfl, rfl⟩ | ⟨rest, rfl, rfl⟩
    · exact Or.inr ⟨notPhi, operand, unseen⟩
    · exact Or.inl ⟨before, user, rest, rfl, notPhi, operand, unseen⟩
  · rintro (⟨before, user, after, rfl, notPhi, operand, unseen⟩ | ⟨notPhi, operand, unseen⟩)
    · exact ⟨before, user, after ++ [inst], by simp, notPhi, operand, unseen⟩
    · exact ⟨insts, inst, [], rfl, notPhi, operand, unseen⟩

structure LivenessScan.Spec (domain : List Value) (used defined : List Inst) (scan : LivenessScan) :
    Prop where
  defSize : scan.defSet.size = domain.length
  useSize : scan.useSet.size = domain.length
  defs : ∀ value ∈ domain, scan.defSet.test (domain.idxOf value) = true ↔ Defined defined value
  uses : ∀ value ∈ domain, scan.useSet.test (domain.idxOf value) = true ↔ Exposed used value
  marks : Marked domain.length scan.neighborVals fun source bit =>
    ∃ inst ∈ used, ∃ value, (value, source) ∈ inst.incoming ∧ value.isInstOrArg = true ∧
      indexAt (indexDomain domain) value = bit

theorem LivenessScan.Spec.initial (domain : List Value) :
    LivenessScan.Spec domain [] []
      ⟨BitVector.ofSize domain.length false, BitVector.ofSize domain.length false, ∅⟩ where
  defSize := by simp
  useSize := by simp
  defs := by simp [Defined]
  uses := by simp [Exposed]
  marks := (Marked.empty domain.length).congr (by simp)

theorem recordUses_phi {domainToIndex : AList fun _ : Value => Nat} {inst : Inst}
    (phi : inst.isPhi = true) (scan : LivenessScan) :
    recordUses domainToIndex scan inst = { scan with
      neighborVals := markIncoming Value.isInstOrArg domainToIndex.entries.length
        (indexAt domainToIndex) inst.incoming scan.neighborVals } := by
  cases shape : inst.shape <;> simp_all [Inst.isPhi, Inst.incoming, recordUses]

theorem recordUses_plain {domainToIndex : AList fun _ : Value => Nat} {inst : Inst}
    (notPhi : inst.isPhi = false) (scan : LivenessScan) :
    recordUses domainToIndex scan inst = { scan with
      useSet := markOperands
        (fun val => val.isInstOrArg && !scan.defSet.test (indexAt domainToIndex val))
        (indexAt domainToIndex) inst.operands scan.useSet } := by
  cases shape : inst.shape <;> simp_all [Inst.isPhi, recordUses]

theorem LivenessScan.Spec.recordUses {domain : List Value} (nodup : domain.Nodup)
    {insts : List Inst} {scan : LivenessScan} (spec : LivenessScan.Spec domain insts insts scan)
    {inst : Inst} (complete : ∀ value ∈ inst.operands, value.isInstOrArg = true → value ∈ domain)
    (relevant : ∀ value ∈ domain, value.isInstOrArg = true) :
    LivenessScan.Spec domain (insts ++ [inst]) insts (recordUses (indexDomain domain) scan inst) := by
  cases phi : inst.isPhi with
  | true =>
      rw [recordUses_phi phi, length_indexDomain nodup]
      refine ⟨spec.defSize, spec.useSize, spec.defs, ?_, ?_⟩
      · intro value member
        rw [exposed_append, spec.uses value member]
        simp [phi]
      · apply (spec.marks.incoming Value.isInstOrArg _ inst.incoming).congr
        intro source bit
        simp [or_and_right, exists_or]
  | false =>
      rw [recordUses_plain phi]
      obtain ⟨size, bits⟩ := markOperands_spec
        (fun val => val.isInstOrArg && !scan.defSet.test (indexAt (indexDomain domain) val))
        (indexAt (indexDomain domain)) inst.operands scan.useSet
      refine ⟨spec.defSize, size.trans spec.useSize, spec.defs, ?_, ?_⟩
      · intro value member
        have small := List.idxOf_lt_length_of_mem member
        rw [exposed_append, ← spec.uses value member, ← spec.defs value member, bits, spec.useSize]
        apply or_congr_right
        simp only [small, true_and, phi, Bool.and_eq_true, Bool.not_eq_true']
        constructor
        · rintro ⟨operand, used, ⟨kind, unseen⟩, same⟩
          have operandMember := complete operand used kind
          rw [indexAt_of_mem nodup operandMember] at same unseen
          obtain rfl := (List.idxOf_inj operandMember).mp same
          exact ⟨used, by simp [unseen]⟩
        · rintro ⟨used, unseen⟩
          refine ⟨value, used, ⟨relevant value member, ?_⟩, indexAt_of_mem nodup member⟩
          rw [indexAt_of_mem nodup member]
          simpa using unseen
      · apply spec.marks.congr
        intro source bit
        simp [or_and_right, exists_or, Inst.incoming_of_not_isPhi phi]

theorem LivenessScan.Spec.step {domain : List Value} (nodup : domain.Nodup) {insts : List Inst}
    {scan : LivenessScan} (spec : LivenessScan.Spec domain insts insts scan) {inst : Inst}
    (complete : ∀ value ∈ inst.operands, value.isInstOrArg = true → value ∈ domain)
    (relevant : ∀ value ∈ domain, value.isInstOrArg = true) :
    LivenessScan.Spec domain (insts ++ [inst]) (insts ++ [inst])
      (livenessStep (indexDomain domain) scan inst) := by
  have used := spec.recordUses nodup complete relevant
  unfold livenessStep recordDefinition
  rw [lookup_indexDomain nodup]
  by_cases member : Value.inst inst.id ∈ domain
  · simp only [member, if_true]
    refine ⟨by simp [used.defSize], used.useSize, ?_, used.uses, used.marks⟩
    intro value valueMember
    have small := List.idxOf_lt_length_of_mem member
    rw [defined_append, BitVector.test_set, used.defSize, Bool.or_eq_true,
      used.defs value valueMember, decide_eq_true_eq]
    simp [small, List.idxOf_inj valueMember, eq_comm]
  · simp only [member, if_false]
    refine ⟨used.defSize, used.useSize, ?_, used.uses, used.marks⟩
    intro value valueMember
    have different : Value.inst inst.id ≠ value := fun same => member (same ▸ valueMember)
    rw [defined_append, used.defs value valueMember]
    simp [different]

theorem nodup_livenessDomain (F : Func) : (livenessDomain F).Nodup := nodup_collectDomain _

theorem mem_livenessDomain (F : Func) (value : Value) :
    value ∈ livenessDomain F ↔
      (∃ inst ∈ F.allInsts, value ∈ inst.operands) ∧ value.isInstOrArg = true := by
  simp [livenessDomain, mem_collectDomain]

theorem livenessScan_spec (F : Func) (block : Nat) :
    LivenessScan.Spec (livenessDomain F) (F.insts block) (F.insts block)
      (livenessScan (indexDomain (livenessDomain F)) (F.insts block)) := by
  have nodup := nodup_livenessDomain F
  unfold livenessScan
  rw [length_indexDomain nodup]
  apply Scan.foldl_rule (P := fun insts => LivenessScan.Spec _ insts insts) (F.insts block)
    (LivenessScan.Spec.initial _)
  intro before inst after scan split spec
  have here : inst ∈ F.allInsts := (F.mem_allInsts inst).mpr ⟨block, by simp [split]⟩
  apply spec.step nodup
  · intro value operand kind
    exact (mem_livenessDomain F value).mpr ⟨⟨inst, here, operand⟩, kind⟩
  · exact fun value member => ((mem_livenessDomain F value).mp member).2

theorem liveness_marked (F : Func) (block : Nat) (vector : BitVector) :
    Marked (livenessDomain F).length
      (livenessAnalysis.transfer F (livenessDomain F) block vector).neighborVals fun source bit =>
        ∃ inst ∈ F.insts block, ∃ value, (value, source) ∈ inst.incoming ∧
          value.isInstOrArg = true ∧ indexAt (indexDomain (livenessDomain F)) value = bit :=
  (livenessScan_spec F block).marks

theorem liveness_lawful (F : Func) : livenessAnalysis.Lawful F (livenessDomain F) where
  mono block left right _ _ subset := by
    apply (liveness_marked F block left).le (liveness_marked F block right) _ (fun _ _ mark => mark)
    intro index found
    simp only [DataFlow.transfer, livenessAnalysis, BitVector.test_genKill] at found ⊢
    exact found.imp id fun kept => ⟨kept.1, kept.2.1, subset index kept.2.2⟩
  determined block left right _ _ elements := by
    constructor
    · apply (liveness_marked F block left).le (liveness_marked F block right) _ (fun _ _ mark => mark)
      intro index found
      rwa [← elements]
    · apply (liveness_marked F block right).le (liveness_marked F block left) _ (fun _ _ mark => mark)
      intro index found
      rwa [elements]
  sized block vector _ := by
    apply (liveness_marked F block vector).sized
    have spec := livenessScan_spec F block
    simp [DataFlow.transfer, livenessAnalysis, spec.defSize, spec.useSize]
  plain meet := by simp [livenessAnalysis] at meet
  order := by simp [livenessAnalysis]

theorem liveness_transfer (F : Func) {block : Nat} {value : Value} (vector : BitVector)
    (member : value ∈ livenessDomain F) :
    (livenessAnalysis.transfer F (livenessDomain F) block vector).element.test
        ((livenessDomain F).idxOf value) = true ↔
      Exposed (F.insts block) value ∨ ¬ Defined (F.insts block) value ∧
        vector.test ((livenessDomain F).idxOf value) = true := by
  have spec := livenessScan_spec F block
  have small := List.idxOf_lt_length_of_mem member
  simp only [DataFlow.transfer, livenessAnalysis, BitVector.test_genKill, spec.defSize, small,
    true_and, ← Bool.not_eq_true, spec.defs value member, spec.uses value member]

theorem liveness_valueFor (F : Func) {block source : Nat} {value : Value} (vector : BitVector)
    (member : value ∈ livenessDomain F) :
    ((livenessAnalysis.transfer F (livenessDomain F) block vector).valueFor source).test
        ((livenessDomain F).idxOf value) = true ↔
      (Exposed (F.insts block) value ∨ ¬ Defined (F.insts block) value ∧
        vector.test ((livenessDomain F).idxOf value) = true) ∨ PhiUse F block source value := by
  have nodup := nodup_livenessDomain F
  rw [(liveness_marked F block vector).test_valueFor (List.idxOf_lt_length_of_mem member),
    liveness_transfer F vector member]
  apply or_congr_right
  constructor
  · rintro ⟨inst, here, other, entry, kind, same⟩
    have otherMember : other ∈ livenessDomain F := by
      refine (mem_livenessDomain F other).mpr ⟨⟨inst, ?_, ?_⟩, kind⟩
      · exact (F.mem_allInsts inst).mpr ⟨block, here⟩
      · exact Inst.mem_operands_of_mem_incoming entry
    rw [indexAt_of_mem nodup otherMember] at same
    obtain rfl := (List.idxOf_inj otherMember).mp same
    exact ⟨inst, here, entry⟩
  · rintro ⟨inst, here, entry⟩
    exact ⟨inst, here, value, entry, ((mem_livenessDomain F value).mp member).2,
      indexAt_of_mem nodup member⟩

/-- Some path from the end of the block reaches a use of the value without passing a
definition of it: after the blocks of `path`, which do not define it, it is used in
`last`, or by a phi of `last` on the edge that enters this block. -/
def LiveOut (F : Func) (block : Nat) (value : Value) : Prop :=
  ∃ path last, List.IsChain (FlowGraph.Edge F.succs) (block :: path ++ [last]) ∧
    (∀ passed ∈ path, ¬ Defined (F.insts passed) value) ∧
    (Exposed (F.insts last) value ∨ PhiUse F last ((block :: path).getLast (by simp)) value)

theorem liveOut_iff (F : Func) (block : Nat) (value : Value) :
    LiveOut F block value ↔ ∃ next ∈ F.succs block,
      (Exposed (F.insts next) value ∨ ¬ Defined (F.insts next) value ∧ LiveOut F next value) ∨
        PhiUse F next block value := by
  constructor
  · rintro ⟨path, last, chain, clear, used⟩
    cases path with
    | nil =>
        simp only [List.cons_append, List.nil_append, List.isChain_cons_cons] at chain
        exact ⟨last, chain.1, used.imp Or.inl id⟩
    | cons next path =>
        simp only [List.cons_append, List.isChain_cons_cons] at chain
        refine ⟨next, chain.1, Or.inl (Or.inr ⟨clear next List.mem_cons_self, ?_⟩)⟩
        refine ⟨path, last, chain.2, ?_, ?_⟩
        · exact fun passed member => clear passed (List.mem_cons_of_mem _ member)
        · simpa using used
  · rintro ⟨next, edge, (exposed | ⟨clear, path, last, chain, rest, used⟩) | phi⟩
    · exact ⟨[], next, by simpa [FlowGraph.Edge] using edge, by simp, Or.inl exposed⟩
    · refine ⟨next :: path, last, ?_, ?_, ?_⟩
      · simpa [List.isChain_cons_cons] using ⟨edge, chain⟩
      · simpa using ⟨clear, rest⟩
      · simpa using used
    · exact ⟨[], next, by simpa [FlowGraph.Edge] using edge, by simp, Or.inr phi⟩

open Classical in
noncomputable def liveVector (F : Func) (block : Nat) : BitVector :=
  ⟨(livenessDomain F).map fun value => decide (LiveOut F block value)⟩

theorem size_liveVector (F : Func) (block : Nat) :
    (liveVector F block).size = (livenessDomain F).length := by
  simp [liveVector, BitVector.size]

theorem test_liveVector (F : Func) (block : Nat) {value : Value}
    (member : value ∈ livenessDomain F) :
    (liveVector F block).test ((livenessDomain F).idxOf value) = true ↔ LiveOut F block value := by
  have small := List.idxOf_lt_length_of_mem member
  simp [liveVector, BitVector.test, List.getD_eq_getElem?_getD, small]

theorem liveVector_equations {F : Func} :
    livenessAnalysis.Equations F (livenessDomain F) (liveVector F) fun block =>
      (livenessAnalysis.transfer F (livenessDomain F) block (liveVector F block)).element := by
  have nodup := nodup_livenessDomain F
  refine ⟨?_, ?_, ?_, fun _ _ _ => rfl⟩
  · intro block _
    exact DataFlow.fits_of_size (size_liveVector F block)
  · intro block _ alone index
    have none : (liveVector F block).test index ≠ true := by
      intro found
      have small := size_liveVector F block ▸ BitVector.lt_size_of_test found
      obtain ⟨value, member, rfl⟩ := exists_idxOf nodup small
      obtain ⟨next, edge, _⟩ :=
        (liveOut_iff F block value).mp ((test_liveVector F block member).mp found)
      change F.succs block = [] at alone
      simp [alone] at edge
    simpa [DataFlow.boundaryCond] using none
  · intro block reachable _ index small
    obtain ⟨value, member, rfl⟩ := exists_idxOf nodup small
    rw [test_liveVector F block member, liveOut_iff]
    constructor
    · rintro ⟨next, edge, used⟩
      refine ⟨next, edge, FlowGraph.Reachable.step reachable edge, ?_⟩
      rw [liveness_valueFor F _ member, test_liveVector F next member]
      exact used
    · rintro ⟨next, edge, _, shown⟩
      rw [liveness_valueFor F _ member, test_liveVector F next member] at shown
      exact ⟨next, edge, shown⟩

theorem live_of_path {F : Func} {inputs outputs : Nat → BitVector}
    (solution : livenessAnalysis.Equations F (livenessDomain F) inputs outputs) {value : Value}
    (member : value ∈ livenessDomain F) (path : List Nat) {block last : Nat}
    (reachable : F.Reachable block)
    (chain : List.IsChain (FlowGraph.Edge F.succs) (block :: path ++ [last]))
    (clear : ∀ passed ∈ path, ¬ Defined (F.insts passed) value)
    (used : Exposed (F.insts last) value ∨
      PhiUse F last ((block :: path).getLast (by simp)) value) :
    (inputs block).test ((livenessDomain F).idxOf value) = true := by
  have meets : ∀ {block next}, F.Reachable block → next ∈ F.succs block →
      (Exposed (F.insts next) value ∨ ¬ Defined (F.insts next) value ∧
        (inputs next).test ((livenessDomain F).idxOf value) = true) ∨ PhiUse F next block value →
      (inputs block).test ((livenessDomain F).idxOf value) = true := by
    intro block next reachable edge shown
    apply (solution.meet block reachable (List.ne_nil_of_mem edge) _
      (List.idxOf_lt_length_of_mem member)).mpr
    exact ⟨next, edge, FlowGraph.Reachable.step reachable edge,
      (liveness_valueFor F _ member).mpr shown⟩
  induction path generalizing block with
  | nil =>
      simp only [List.cons_append, List.nil_append, List.isChain_cons_cons] at chain
      exact meets reachable chain.1 (used.imp Or.inl id)
  | cons next path ih =>
      simp only [List.cons_append, List.isChain_cons_cons] at chain
      apply meets reachable chain.1
      refine Or.inl (Or.inr ⟨clear next List.mem_cons_self, ?_⟩)
      apply ih (FlowGraph.Reachable.step reachable chain.1) chain.2
      · exact fun passed member => clear passed (List.mem_cons_of_mem _ member)
      · simpa using used

theorem runLiveness_total {F : Func} (valid : ValidCfg F) :
    ∃ enough, ∀ fuel, enough ≤ fuel → ∃ output, runLiveness fuel F = some output :=
  DataFlow.run_total valid (liveness_lawful F)

theorem liveness_out_iff {F : Func} (valid : ValidCfg F) {fuel : Nat}
    {output : DataFlowResult Value} (returns : runLiveness fuel F = some output) {block : Nat}
    (reachable : F.Reachable block) {value : Value} (member : value ∈ livenessDomain F) :
    (output.result block).outVec.test (indexAt output.domainToIndex value) = true ↔
      LiveOut F block value := by
  obtain ⟨converged, index⟩ := DataFlow.run_eq_some returns
  rw [index, indexAt_of_mem (nodup_livenessDomain F) member]
  constructor
  · intro found
    have least := DataFlow.converge_extremal valid (liveness_lawful F) converged
      liveVector_equations reachable
    exact (test_liveVector F block member).mp (least.1 _ found)
  · rintro ⟨path, last, chain, clear, used⟩
    exact live_of_path (DataFlow.converge_equations valid (liveness_lawful F) converged) member
      path reachable chain clear used

/-- A value is in the output of the analysis at the end of a reachable block exactly if
some path from there uses it. -/
theorem liveness_exact {F : Func} (ssa : StrictSSA F) {block : Nat} (reachable : F.Reachable block)
    {value : Value} (member : value ∈ livenessDomain F) :
    (∃ enough, ∀ fuel, enough ≤ fuel → ∃ output, runLiveness fuel F = some output) ∧
    ∀ fuel output, runLiveness fuel F = some output →
      ((output.result block).outVec.test (indexAt output.domainToIndex value) = true ↔
        LiveOut F block value) :=
  ⟨runLiveness_total ssa.toValidCfg,
    fun _ _ returns => liveness_out_iff ssa.toValidCfg returns reachable member⟩

theorem liveness_exact_sampleLoop :
    (∃ enough, ∀ fuel, enough ≤ fuel → ∃ output, runLiveness fuel sampleLoop = some output) ∧
    ∀ fuel output, runLiveness fuel sampleLoop = some output →
      ((output.result 2).outVec.test (indexAt output.domainToIndex (.inst 5)) = true ↔
        LiveOut sampleLoop 2 (.inst 5)) :=
  liveness_exact sampleLoop_ssa (sampleLoop_reachable 2 (by decide)) (by decide)

end LlvmGather
