import LlvmGather.Analysis.Printing

/-!
What the two passes print, against the solutions they have computed. The walk through a
block agrees with the transfer function of the block, and its sets are the sets of the
single program points; it can only start if `run` has left a vector of full size.
-/

namespace LlvmGather

section Live

variable {F : Func} {block : Nat}

/-- The value is used after this point of the block, which has these instructions left,
before it is defined again. -/
def LiveAt (F : Func) (block : Nat) (rest : List Inst) (value : Value) : Prop :=
  Exposed rest value ∨ ¬ Defined rest value ∧ LiveOut F block value

theorem defined_cons (inst : Inst) (rest : List Inst) (value : Value) :
    Defined (inst :: rest) value ↔ Value.inst inst.id = value ∨ Defined rest value := by
  simp [Defined]

theorem exposed_cons (inst : Inst) (rest : List Inst) (value : Value) :
    Exposed (inst :: rest) value ↔ (inst.isPhi = false ∧ value ∈ inst.operands) ∨
      Value.inst inst.id ≠ value ∧ Exposed rest value := by
  constructor
  · rintro ⟨before, user, after, split, plain, operand, unseen⟩
    cases before with
    | nil =>
        obtain ⟨rfl, rfl⟩ := List.cons.inj split
        exact Or.inl ⟨plain, operand⟩
    | cons first before =>
        obtain ⟨rfl, rfl⟩ := List.cons.inj split
        obtain ⟨other, unseen⟩ := not_or.mp (mt (defined_cons inst before value).mpr unseen)
        exact Or.inr ⟨other, before, user, after, rfl, plain, operand, unseen⟩
  · rintro (⟨plain, operand⟩ | ⟨other, before, user, after, rfl, plain, operand, unseen⟩)
    · exact ⟨[], inst, rest, rfl, plain, operand, by simp [Defined]⟩
    · refine ⟨inst :: before, user, after, rfl, plain, operand, ?_⟩
      exact mt (defined_cons inst before value).mp (not_or.mpr ⟨other, unseen⟩)

theorem liveAt_cons (inst : Inst) (rest : List Inst) (value : Value) :
    LiveAt F block (inst :: rest) value ↔ (inst.isPhi = false ∧ value ∈ inst.operands) ∨
      Value.inst inst.id ≠ value ∧ LiveAt F block rest value := by
  simp only [LiveAt, exposed_cons, defined_cons]
  tauto

theorem no_self_use (ssa : StrictSSA F) (reachable : F.Reachable block) {before rest : List Inst}
    {inst : Inst} (split : F.insts block = before ++ inst :: rest) (plain : inst.isPhi = false) :
    Value.inst inst.id ∉ inst.operands := by
  intro operand
  have member : inst ∈ F.insts block := by simp [split]
  rcases ssa.use_after_definition reachable split plain operand member with ⟨-, earlier⟩ | strict
  · have nodup := List.Nodup.of_map _ (ssa.nodup_insts block)
    rw [split] at nodup
    exact (List.nodup_append.mp nodup).2.2 inst earlier inst List.mem_cons_self rfl
  · exact strict.1 rfl

theorem before_liveOut (ssa : StrictSSA F) (reachable : F.Reachable block) (front rest : List Inst)
    (split : F.insts block = front ++ rest) (value : Value) :
    Liveness.before (LiveOut F block) rest value ↔ LiveAt F block rest value := by
  induction rest generalizing front with
  | nil => simp [Liveness.before, LiveAt, Exposed, Defined]
  | cons inst rest ih =>
      have later := ih (front ++ [inst]) (by simp [split])
      have own : inst.isPhi = false ∧ value ∈ inst.operands → Value.inst inst.id ≠ value := by
        rintro ⟨plain, operand⟩ rfl
        exact no_self_use ssa reachable split plain operand
      rw [Liveness.before, later, liveAt_cons, ne_comm]
      tauto

theorem listing_congr {domain : List Value} {left right : List Inst → Value → Prop}
    (front rest : List Inst) (split : F.insts block = front ++ rest)
    (same : ∀ front rest, F.insts block = front ++ rest → ∀ value, left rest value ↔ right rest value) :
    Liveness.listing domain left rest = Liveness.listing domain right rest := by
  induction rest generalizing front with
  | nil =>
      have here : left [] = right [] := funext fun value => propext (same front [] split value)
      rw [Liveness.listing, Liveness.listing, here]
  | cons inst rest ih =>
      have here : left (inst :: rest) = right (inst :: rest) :=
        funext fun value => propext (same front (inst :: rest) split value)
      rw [Liveness.listing, Liveness.listing, here, ih (front ++ [inst]) (by simp [split])]

/-- The backward walk ends at the `in` vector, and prints the live values before each
instruction, exactly if it starts with a vector of full size: unless nothing is in the domain,
the block must return or have a successor. -/
theorem liveness_printed_iff (ssa : StrictSSA F) (reachable : F.Reachable block) {fuel : Nat}
    {output : DataFlowResult Value} (returns : runLiveness fuel F = some output) :
    Liveness.printBlock (livenessDomain F) output F block =
        some ((output.result block).inVec,
          .ruler :: Liveness.listing (livenessDomain F) (LiveAt F block) (F.insts block)) ↔
      livenessDomain F = [] ∨
      (∃ last, F.getTerminator block = some last ∧ last.isReturn = true) ∨ F.succs block ≠ [] := by
  have valid := ssa.toValidCfg
  obtain ⟨size_iff, bound⟩ := size_live_iff valid returns (valid.reachable_lt reachable)
  rw [and_iff_right reachable] at size_iff
  rw [← size_iff]
  constructor
  · intro printed
    by_contra different
    rw [Liveness.printBlock_narrow (by omega)] at printed
    simp at printed
  · intro size
    obtain ⟨converged, index⟩ := DataFlow.run_eq_some returns
    have settled := (DataFlow.converge_settled valid (liveness_lawful F)
      (DataFlow.Invariant.start valid (liveness_lawful F)) converged).2 block reachable
    have atEnd : Represents (livenessDomain F) (output.result block).outVec (LiveOut F block) := by
      refine ⟨size, fun value member => ?_⟩
      rw [← liveness_out_iff valid returns reachable member, index,
        indexAt_of_mem (nodup_livenessDomain F) member]
    obtain ⟨final, finalSet, printed⟩ := Liveness.printBlock_eq F index atEnd
    have agree := before_liveOut ssa reachable
    have atStart : Represents (livenessDomain F) (output.result block).inVec
        (Liveness.before (LiveOut F block) (F.insts block)) := by
      have transferred : (output.result block).inVec =
          (livenessAnalysis.transfer F (livenessDomain F) block (output.result block).outVec).element :=
        settled.output.trans (congrArg TransferOutput.element settled.transferred)
      have spec := livenessScan_spec F block
      refine ⟨?_, fun value member => ?_⟩
      · rw [transferred]
        simp [DataFlow.transfer, livenessAnalysis, spec.defSize, spec.useSize]
      · rw [transferred, liveness_transfer F _ member, atEnd.bits value member,
          agree [] (F.insts block) rfl]
        rfl
    rw [printed, finalSet.unique (nodup_livenessDomain F) atStart,
      listing_congr [] (F.insts block) rfl agree]

theorem liveness_printed_iff_sampleLoop : ∃ output, runLiveness 8 sampleLoop = some output ∧
    Liveness.printBlock (livenessDomain sampleLoop) output sampleLoop 2 =
      some ((output.result 2).inVec, .ruler :: Liveness.listing (livenessDomain sampleLoop)
        (LiveAt sampleLoop 2) (sampleLoop.insts 2)) := by
  obtain ⟨output, returns⟩ := Option.isSome_iff_exists.mp
    (by decide : (runLiveness 8 sampleLoop).isSome = true)
  have reachable := sampleLoop_reachable 2 (by decide)
  exact ⟨output, returns, (liveness_printed_iff sampleLoop_ssa reachable returns).mpr
    (Or.inr (Or.inr (by decide)))⟩

def sampleStuck : Func where
  argNames := ["n"]
  blocks :=
    [⟨[{ id := 0, name := "x", shape := .binary .Add (.arg 0) (.arg 0)
         isSafeToSpeculativelyExecute := true },
       { id := 1, name := "", shape := .terminator false [] [] }]⟩,
     ⟨[{ id := 2, name := "", shape := .terminator true [] [] }]⟩]

theorem sampleStuck_ssa : StrictSSA sampleStuck :=
  checkSsa_sound (show sampleStuck.checkSsa (fun _ => []) = true by decide +kernel)

/-- The walk through the first block fails, although the block is reachable. -/
theorem liveness_not_printed : StrictSSA sampleStuck ∧ sampleStuck.Reachable 0 ∧
    ∃ output, runLiveness 8 sampleStuck = some output ∧
      Liveness.printBlock (livenessDomain sampleStuck) output sampleStuck 0 = none := by
  have stuck : ∃ output ∈ runLiveness 8 sampleStuck,
      Liveness.printBlock (livenessDomain sampleStuck) output sampleStuck 0 = none := by
    decide
  exact ⟨sampleStuck_ssa, sampleStuck.entry_reachable, stuck⟩

end Live

section Agreement

variable {F : Func} {fuel block : Nat} {live : DataFlowResult Value}
  {available : DataFlowResult Expression}

/-- The forward walk computes the transfer function of the block, for every input; in a
reachable block it therefore gets from the `in` vector to the `out` vector. -/
theorem available_printed (F : Func) (block : Nat) :
    (∀ input : BitVector, input.size = (availableDomain F).length →
      ∃ lines, AvailableExpressions.printBlock F (availableDomain F) input block =
        some ((availableAnalysis.transfer F (availableDomain F) block input).element, lines)) ∧
    ∀ fuel available, ValidCfg F → F.Reachable block → runAvailable fuel F = some available →
      ∃ lines, AvailableExpressions.printBlock F (availableDomain F)
          (available.result block).inVec block =
        some ((available.result block).outVec, lines) := by
  constructor
  · intro input size
    exact AvailableExpressions.printBlock_eq F block size
  · intro fuel available valid reachable returns
    obtain ⟨size_iff, -⟩ := size_available_iff valid returns (valid.reachable_lt reachable)
    obtain ⟨converged, -⟩ := DataFlow.run_eq_some returns
    have settled := (DataFlow.converge_settled valid (available_lawful F)
      (DataFlow.Invariant.start valid (available_lawful F)) converged).2 block reachable
    have transferred : (available.result block).outVec = (availableAnalysis.transfer F
        (availableDomain F) block (available.result block).inVec).element :=
      settled.output.trans (congrArg TransferOutput.element settled.transferred)
    rw [transferred]
    exact AvailableExpressions.printBlock_eq F block (size_iff.mpr (Or.inr reachable))

theorem available_printed_sampleLoop : ∃ available,
    runAvailable 8 sampleLoop = some available ∧
    ∃ lines, AvailableExpressions.printBlock sampleLoop (availableDomain sampleLoop)
        (available.result 2).inVec 2 = some ((available.result 2).outVec, lines) := by
  obtain ⟨available, returns⟩ := Option.isSome_iff_exists.mp
    (by decide : (runAvailable 8 sampleLoop).isSome = true)
  exact ⟨available, returns, (available_printed sampleLoop 2).2 8 available
    sampleLoop_ssa.toValidCfg (sampleLoop_reachable 2 (by decide)) returns⟩

/-- The vectors that are read back have full size, and then every access of the printing is
in range, exactly for these blocks: for liveness those that return, or are visited and have
a successor; for available expressions the reachable ones. -/
theorem printed_widths_iff (verified : Verified F) (solvedLive : runLiveness fuel F = some live)
    (solvedAvailable : runAvailable fuel F = some available) (inside : block < F.blocks.length) :
    ((live.result block).outVec.size = (livenessDomain F).length ↔
      livenessDomain F = [] ∨
      (∃ last, F.getTerminator block = some last ∧ last.isReturn = true) ∨
      F.Reachable block ∧ F.succs block ≠ []) ∧
    ((available.result block).inVec.size = (availableDomain F).length ↔
      availableDomain F = [] ∨ F.Reachable block) ∧
    ((Liveness.printBlock (livenessDomain F) live F block).isSome = true ↔
      (live.result block).outVec.size = (livenessDomain F).length) ∧
    ((AvailableExpressions.printBlock F (availableDomain F) (available.result block).inVec
        block).isSome = true ↔
      (available.result block).inVec.size = (availableDomain F).length) := by
  have valid := verified.toValidCfg
  obtain ⟨live_iff, liveBound⟩ := size_live_iff valid solvedLive inside
  obtain ⟨available_iff, availableBound⟩ := size_available_iff valid solvedAvailable inside
  refine ⟨live_iff, available_iff, ⟨fun comesThrough => ?_, fun size => ?_⟩,
    ⟨fun comesThrough => ?_, fun size => ?_⟩⟩
  · by_contra different
    rw [Liveness.printBlock_narrow (by omega)] at comesThrough
    simp at comesThrough
  · obtain ⟨final, -, printed⟩ := Liveness.printBlock_eq F (DataFlow.run_eq_some solvedLive).2
      (represents_self size)
    simp [printed]
  · by_contra different
    rw [AvailableExpressions.printBlock_narrow (by omega)] at comesThrough
    simp at comesThrough
  · obtain ⟨lines, printed⟩ := AvailableExpressions.printBlock_eq F block size
    simp [printed]

theorem printed_widths_iff_sampleLoop : ∃ live available,
    runLiveness 8 sampleLoop = some live ∧ runAvailable 8 sampleLoop = some available ∧
    (live.result 2).outVec.size = (livenessDomain sampleLoop).length ∧
    (available.result 2).inVec.size = (availableDomain sampleLoop).length := by
  obtain ⟨live, solvedLive⟩ := Option.isSome_iff_exists.mp
    (by decide : (runLiveness 8 sampleLoop).isSome = true)
  obtain ⟨available, solvedAvailable⟩ := Option.isSome_iff_exists.mp
    (by decide : (runAvailable 8 sampleLoop).isSome = true)
  have reachable := sampleLoop_reachable 2 (by decide)
  obtain ⟨live_iff, available_iff, -⟩ := printed_widths_iff sampleLoop_ssa.toVerified solvedLive
    solvedAvailable (by decide : 2 < sampleLoop.blocks.length)
  exact ⟨live, available, solvedLive, solvedAvailable,
    live_iff.mpr (Or.inr (Or.inr ⟨reachable, by decide⟩)), available_iff.mpr (Or.inr reachable)⟩

/-- Liveness leaves the first block without a vector, available expressions the second. -/
theorem printed_narrow : Verified sampleStuck ∧
    (∃ live, runLiveness 8 sampleStuck = some live ∧
      (live.result 0).outVec.size ≠ (livenessDomain sampleStuck).length) ∧
    ∃ available, runAvailable 8 sampleStuck = some available ∧
      (available.result 1).inVec.size ≠ (availableDomain sampleStuck).length := by
  have liveNarrow : ∃ live ∈ runLiveness 8 sampleStuck,
      (live.result 0).outVec.size ≠ (livenessDomain sampleStuck).length := by decide
  have availableNarrow : ∃ available ∈ runAvailable 8 sampleStuck,
      (available.result 1).inVec.size ≠ (availableDomain sampleStuck).length := by decide
  exact ⟨sampleStuck_ssa.toVerified, liveNarrow, availableNarrow⟩

end Agreement

end LlvmGather
