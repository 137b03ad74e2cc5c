import LlvmGather.DataFlow.Extremal
import Mathlib.Algebra.Order.BigOperators.Group.List

/-!
The convergence loop stops. Every visit moves the result of its block in the direction
of the iteration, so a sweep that reports a change shortens the total distance that is
left, which is counted in bits and in neighbor values.
-/

namespace LlvmGather

def TransferOutput.weight (bound : Nat) (output : TransferOutput) : Nat :=
  ((Finset.range bound).filter fun index => output.element.test index = true).card +
    output.neighborVals.entries.length

theorem TransferOutput.Le.weight {left right : TransferOutput} (le : left.Le right) (bound : Nat) :
    left.weight bound ≤ right.weight bound := by
  apply Nat.add_le_add _ le.length
  apply Finset.card_le_card
  intro index member
  simp only [Finset.mem_filter] at member ⊢
  exact ⟨member.1, le.element index member.2⟩

theorem TransferOutput.Le.weight_lt {left right : TransferOutput} (le : left.Le right)
    {bound : Nat} (sized : right.Sized bound)
    (differ : (∃ index, left.element.test index ≠ right.element.test index) ∨
      left.neighborVals.entries.length ≠ right.neighborVals.entries.length) :
    left.weight bound < right.weight bound := by
  rcases differ with ⟨index, bits⟩ | lengths
  · apply Nat.add_lt_add_of_lt_of_le _ le.length
    have gained : left.element.test index = false ∧ right.element.test index = true := by
      have grows := le.element index
      cases atLeft : left.element.test index <;> cases atRight : right.element.test index <;>
        simp_all
    have small := sized.lt_of_element gained.2
    apply Finset.card_lt_card
    refine (Finset.ssubset_iff_of_subset ?_).mpr ⟨index, ?_, ?_⟩
    · intro other member
      simp only [Finset.mem_filter] at member ⊢
      exact ⟨member.1, le.element other member.2⟩
    · simp [small, gained.2]
    · simp [gained.1]
  · apply Nat.add_lt_add_of_le_of_lt _ (Nat.lt_of_le_of_ne le.length lengths)
    apply Finset.card_le_card
    intro other member
    simp only [Finset.mem_filter] at member ⊢
    exact ⟨member.1, le.element other member.2⟩

namespace DataFlow

variable {D : Type} {analysis : DataFlow D} {F : Func} {domain : List D}

theorem changed_iff (old new : BlockResult) : analysis.changed old new = true ↔
    (∃ index, (analysis.output old).test index ≠ (analysis.output new).test index) ∨
    old.transferOutput.neighborVals.entries.length ≠
      new.transferOutput.neighborVals.entries.length := by
  simp only [DataFlow.changed, Bool.or_eq_true, Bool.not_eq_true', decide_eq_true_eq,
    ← Bool.not_eq_true, BitVector.same_iff, not_forall]
  constructor
  · rintro (⟨index, differs⟩ | lengths)
    · exact Or.inl ⟨index, Ne.symm differs⟩
    · exact Or.inr (Ne.symm lengths)
  · rintro (⟨index, differs⟩ | lengths)
    · exact Or.inl ⟨index, Ne.symm differs⟩
    · exact Or.inr (Ne.symm lengths)

variable [DecidableEq D]

def limit (analysis : DataFlow D) (F : Func) (domain : List D) (block : Nat) : Nat :=
  (analysis.transfer F domain block (BitVector.ofSize domain.length true)).weight domain.length

def distance (analysis : DataFlow D) (F : Func) (domain : List D) (block : Nat)
    (output : TransferOutput) : Nat :=
  match analysis.meetOp with
  | .union => analysis.limit F domain block - output.weight domain.length
  | .intersection => output.weight domain.length

def potential (analysis : DataFlow D) (F : Func) (domain : List D)
    (result : Nat → BlockResult) : Nat :=
  ((analysis.traversalOrder F).map fun block =>
    analysis.distance F domain block (result block).transferOutput).sum

theorem weight_transfer_le (lawful : analysis.Lawful F domain) (block : Nat) {vector : BitVector}
    (fits : analysis.Fits domain vector) :
    (analysis.transfer F domain block vector).weight domain.length ≤
      analysis.limit F domain block := by
  apply TransferOutput.Le.weight
  apply lawful.mono _ _ _ fits (fits_of_size (by simp))
  intro index found
  simp [fits.within index found]

theorem Improving.distance (valid : ValidCfg F) (lawful : analysis.Lawful F domain) {result : Nat → BlockResult}
    (improving : Improving analysis F domain result) {block : Nat}
    (reachable : F.Reachable block) :
    analysis.distance F domain block
        (analysis.processBlock F domain result block).transferOutput ≤
      analysis.distance F domain block (result block).transferOutput ∧
    (analysis.changed (result block) (analysis.processBlock F domain result block) = true →
      analysis.distance F domain block
          (analysis.processBlock F domain result block).transferOutput <
        analysis.distance F domain block (result block).transferOutput) := by
  have moves := improving.moves block reachable
  have newInv := improving.inv.update valid lawful reachable
  have bound := valid.reachable_lt reachable
  have newSized := newInv.sized block bound
  have newOutputs := newInv.outputs block
  simp only [Function.update_self] at newSized newOutputs
  have differ : analysis.changed (result block) (analysis.processBlock F domain result block) =
      true → _ := (changed_iff _ _).mp
  simp only [improving.inv.outputs, newOutputs] at differ
  have bounded := weight_transfer_le lawful block (improving.inv.blockInput_fits valid reachable)
  rw [← processBlock_transferOutput] at bounded
  unfold DataFlow.distance
  cases meet : analysis.meetOp with
  | union =>
      rw [meet] at moves
      have grows := TransferOutput.Le.weight moves domain.length
      refine ⟨by simp only; omega, ?_⟩
      intro changed
      have strict := TransferOutput.Le.weight_lt moves newSized (differ changed)
      simp only
      omega
  | intersection =>
      rw [meet] at moves
      refine ⟨TransferOutput.Le.weight moves domain.length, ?_⟩
      intro changed
      apply TransferOutput.Le.weight_lt moves (improving.inv.sized block bound)
      rcases differ changed with ⟨index, bits⟩ | lengths
      · exact Or.inl ⟨index, Ne.symm bits⟩
      · exact Or.inr (Ne.symm lengths)

theorem Improving.potential (valid : ValidCfg F) (lawful : analysis.Lawful F domain)
    {result : Nat → BlockResult} (improving : Improving analysis F domain result) {block : Nat}
    (reachable : F.Reachable block) :
    analysis.potential F domain
        (Function.update result block (analysis.processBlock F domain result block)) ≤
      analysis.potential F domain result ∧
    (analysis.changed (result block) (analysis.processBlock F domain result block) = true →
      analysis.potential F domain
          (Function.update result block (analysis.processBlock F domain result block)) <
        analysis.potential F domain result) := by
  obtain ⟨shorter, strict⟩ := improving.distance valid lawful reachable
  have pointwise : ∀ other ∈ analysis.traversalOrder F,
      analysis.distance F domain other (Function.update result block
        (analysis.processBlock F domain result block) other).transferOutput ≤
      analysis.distance F domain other (result other).transferOutput := by
    intro other _
    by_cases same : other = block
    · subst same
      simpa using shorter
    · simp [same]
  refine ⟨List.sum_le_sum pointwise, ?_⟩
  intro changed
  refine List.sum_lt_sum _ _ pointwise ⟨block, (mem_traversalOrder valid).mpr reachable, ?_⟩
  simpa using strict changed

theorem visits_potential (valid : ValidCfg F) (lawful : analysis.Lawful F domain)
    {blocks : List Nat} (reachable : ∀ block ∈ blocks, F.Reachable block)
    (state : (Nat → BlockResult) × Bool) (improving : Improving analysis F domain state.1) :
    analysis.potential F domain (blocks.foldl (analysis.visit F domain) state).1 ≤
      analysis.potential F domain state.1 ∧
    ((blocks.foldl (analysis.visit F domain) state).2 = false → state.2 = false ∨
      analysis.potential F domain (blocks.foldl (analysis.visit F domain) state).1 <
        analysis.potential F domain state.1) := by
  induction blocks generalizing state with
  | nil => exact ⟨Nat.le_refl _, Or.inl⟩
  | cons next rest ih =>
      rw [List.foldl_cons]
      have nextReachable := reachable next List.mem_cons_self
      obtain ⟨first, firstStrict⟩ := improving.potential valid lawful nextReachable
      obtain ⟨later, laterStrict⟩ := ih
        (fun block member => reachable block (List.mem_cons_of_mem _ member))
        (analysis.visit F domain state next) (improving.update valid lawful nextReachable)
      refine ⟨Nat.le_trans later first, ?_⟩
      intro unfinished
      rcases laterStrict unfinished with flag | progress
      · simp only [DataFlow.visit, Bool.and_eq_false_iff, Bool.not_eq_false'] at flag
        rcases flag with before | changed
        · exact Or.inl before
        · exact Or.inr (Nat.lt_of_le_of_lt later (firstStrict changed))
      · exact Or.inr (Nat.lt_of_lt_of_le progress first)

theorem Improving.sweep (valid : ValidCfg F) (lawful : analysis.Lawful F domain)
    {result : Nat → BlockResult} (improving : Improving analysis F domain result) :
    Improving analysis F domain (analysis.sweep F domain result).1 :=
  sweep_rule valid (fun _ _ reachable holds => holds.update valid lawful reachable) result improving

theorem Improving.sweep_progress (valid : ValidCfg F) (lawful : analysis.Lawful F domain)
    {result : Nat → BlockResult} (improving : Improving analysis F domain result)
    (unfinished : (analysis.sweep F domain result).2 = false) :
    analysis.potential F domain (analysis.sweep F domain result).1 <
      analysis.potential F domain result := by
  have progress := (visits_potential valid lawful
    (fun _ => (mem_traversalOrder valid).mp) (result, true) improving).2 unfinished
  exact progress.resolve_left (by simp)

theorem Improving.converges (valid : ValidCfg F) (lawful : analysis.Lawful F domain)
    {fuel : Nat} {result : Nat → BlockResult} (improving : Improving analysis F domain result)
    (enough : analysis.potential F domain result < fuel) :
    ∃ final, analysis.converge F domain fuel result = some final := by
  induction fuel generalizing result with
  | zero => omega
  | succ fuel ih =>
      rw [DataFlow.converge]
      split
      · exact ⟨_, rfl⟩
      · rename_i unfinished
        have shrinks := improving.sweep_progress valid lawful (by simpa using unfinished)
        exact ih (improving.sweep valid lawful) (by omega)

theorem converge_total (valid : ValidCfg F) (lawful : analysis.Lawful F domain) :
    ∃ enough, ∀ fuel, enough ≤ fuel →
      ∃ final, analysis.converge F domain fuel (analysis.start F domain) = some final := by
  have step : ∀ result block, F.Reachable block → Improving analysis F domain result →
      Improving analysis F domain
        (Function.update result block (analysis.processBlock F domain result block)) :=
    fun _ _ reachable holds => holds.update valid lawful reachable
  have improving := sweep_start valid step (Improving.prepared valid lawful)
  refine ⟨analysis.potential F domain
    (analysis.sweep F domain (analysis.start F domain)).1 + 2, ?_⟩
  intro fuel enough
  obtain ⟨fuel, rfl⟩ : ∃ rest, fuel = rest + 1 := ⟨fuel - 1, by omega⟩
  rw [DataFlow.converge]
  split
  · exact ⟨_, rfl⟩
  · exact improving.converges valid lawful (by omega)

def iterate (analysis : DataFlow D) (F : Func) (domain : List D) (count : Nat)
    (result : Nat → BlockResult) : Nat → BlockResult :=
  (fun result => (analysis.sweep F domain result).1)^[count] result

/-- The loop reaches an iteration that changes no output vector and no number of
neighbor values, and takes note of it. -/
def Terminates (analysis : DataFlow D) (F : Func) (domain : List D)
    (boundaryCond initCond : BitVector) : Prop :=
  ∃ count, ∃ before, before =
      analysis.iterate F domain count (analysis.initialResult F boundaryCond initCond) ∧
    (analysis.sweep F domain before).2 = true ∧
    ∀ block,
      (analysis.output ((analysis.sweep F domain before).1 block)).same
        (analysis.output (before block)) = true ∧
      ((analysis.sweep F domain before).1 block).transferOutput.neighborVals.entries.length =
        (before block).transferOutput.neighborVals.entries.length

theorem visits_unchanged {blocks : List Nat} (nodup : blocks.Nodup)
    (state : (Nat → BlockResult) × Bool)
    (finished : (blocks.foldl (analysis.visit F domain) state).2 = true) :
    state.2 = true ∧ ∀ block,
      ((blocks.foldl (analysis.visit F domain) state).1 block = state.1 block ∨
        analysis.changed (state.1 block) ((blocks.foldl (analysis.visit F domain) state).1 block) =
          false) ∧
      (block ∉ blocks → (blocks.foldl (analysis.visit F domain) state).1 block = state.1 block) := by
  induction blocks generalizing state with
  | nil => exact ⟨finished, fun block => ⟨Or.inl rfl, fun _ => rfl⟩⟩
  | cons next rest ih =>
      rw [List.foldl_cons] at finished ⊢
      obtain ⟨fresh, nodupRest⟩ := List.nodup_cons.mp nodup
      obtain ⟨flag, later⟩ := ih nodupRest _ finished
      simp only [DataFlow.visit, Bool.and_eq_true, Bool.not_eq_true'] at flag
      refine ⟨flag.1, fun block => ?_⟩
      by_cases same : block = next
      · subst same
        rw [(later block).2 fresh]
        refine ⟨Or.inr ?_, fun absent => absurd List.mem_cons_self absent⟩
        simpa [DataFlow.visit] using flag.2
      · have kept : (analysis.visit F domain state next).1 block = state.1 block := by
          simp [DataFlow.visit, same]
        rw [← kept]
        exact ⟨(later block).1, fun absent =>
          (later block).2 fun inRest => absent (List.mem_cons_of_mem _ inRest)⟩

theorem sweep_unchanged (valid : ValidCfg F) {result : Nat → BlockResult}
    (finished : (analysis.sweep F domain result).2 = true) (block : Nat) :
    (analysis.output ((analysis.sweep F domain result).1 block)).same
        (analysis.output (result block)) = true ∧
      ((analysis.sweep F domain result).1 block).transferOutput.neighborVals.entries.length =
        (result block).transferOutput.neighborVals.entries.length := by
  rcases ((visits_unchanged (nodup_traversalOrder valid) (result, true) finished).2 block).1 with
    same | unchanged
  · rw [DataFlow.sweep, same]
    exact ⟨(BitVector.same_iff _ _).mpr fun _ => rfl, rfl⟩
  · simpa [DataFlow.changed, DataFlow.sweep] using unchanged

theorem converge_iterate {fuel : Nat} {result final : Nat → BlockResult}
    (returns : analysis.converge F domain fuel result = some final) :
    ∃ count, (analysis.sweep F domain (analysis.iterate F domain count result)).2 = true := by
  have next : ∀ other, (∃ count, other = analysis.iterate F domain count result) →
      ∃ count, (analysis.sweep F domain other).1 = analysis.iterate F domain count result := by
    rintro _ ⟨count, rfl⟩
    refine ⟨count + 1, ?_⟩
    rw [iterate, iterate, Function.iterate_succ_apply']
  obtain ⟨_, ⟨count, rfl⟩, swept⟩ := converge_last next ⟨0, rfl⟩ returns
  exact ⟨count, congrArg Prod.snd swept⟩

theorem terminates (valid : ValidCfg F) (lawful : analysis.Lawful F domain) :
    analysis.Terminates F domain (boundaryCond domain) (analysis.initCond domain) := by
  obtain ⟨enough, total⟩ := converge_total valid lawful
  obtain ⟨final, returns⟩ := total enough (Nat.le_refl _)
  obtain ⟨count, finished⟩ := converge_iterate returns
  exact ⟨count, _, rfl, finished, sweep_unchanged valid finished⟩

theorem run_total (valid : ValidCfg F) (lawful : analysis.Lawful F domain) :
    ∃ enough, ∀ fuel, enough ≤ fuel →
      ∃ output, analysis.run fuel F domain (boundaryCond domain) (analysis.initCond domain) =
        some output := by
  obtain ⟨enough, total⟩ := converge_total valid lawful
  refine ⟨enough, ?_⟩
  intro fuel bound
  obtain ⟨final, found⟩ := total fuel bound
  exact ⟨_, Option.map_eq_some_iff.mpr ⟨final, found, rfl⟩⟩

end DataFlow

end LlvmGather
