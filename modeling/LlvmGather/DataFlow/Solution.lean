import LlvmGather.DataFlow.Core

/-!
A sweep that reports convergence leaves every reachable block in balance with its
neighbors, although it only looks at output vectors and at the number of neighbor
values. The order on transfer outputs and what the analyses must provide for this
are stated first.
-/

namespace LlvmGather

open BitVector (Subset)

theorem applyMeetOp_union (inputs : List BitVector) (index : Nat) :
    (applyMeetOp .union inputs).test index = true ↔ ∃ input ∈ inputs, input.test index = true := by
  cases inputs with
  | nil => simp [applyMeetOp]
  | cons first rest =>
      simp only [applyMeetOp]
      induction rest generalizing first with
      | nil => simp
      | cons second rest ih =>
          rw [List.foldl_cons, ih]
          simp only [List.mem_cons, exists_eq_or_imp, BitVector.test_or, Bool.or_eq_true]
          tauto

theorem applyMeetOp_intersection {inputs : List BitVector} (nonempty : inputs ≠ [])
    (index : Nat) :
    (applyMeetOp .intersection inputs).test index = true ↔
      ∀ input ∈ inputs, input.test index = true := by
  cases inputs with
  | nil => exact absurd rfl nonempty
  | cons first rest =>
      clear nonempty
      simp only [applyMeetOp]
      induction rest generalizing first with
      | nil => simp
      | cons second rest ih =>
          rw [List.foldl_cons, ih]
          simp only [List.mem_cons, forall_eq_or_imp, BitVector.test_and, Bool.and_eq_true]
          tauto

structure TransferOutput.Le (left right : TransferOutput) : Prop where
  element : Subset left.element right.element
  neighborVals : ∀ block extra, left.neighborVals.lookup block = some extra →
    ∃ extra', right.neighborVals.lookup block = some extra' ∧ Subset extra extra'

theorem TransferOutput.Le.refl (output : TransferOutput) : output.Le output :=
  ⟨Subset.refl _, fun _ extra found => ⟨extra, found, Subset.refl _⟩⟩

theorem TransferOutput.Le.trans {first second third : TransferOutput} (left : first.Le second)
    (right : second.Le third) : first.Le third := by
  refine ⟨left.element.trans right.element, ?_⟩
  intro block extra found
  obtain ⟨extra', found', grows⟩ := left.neighborVals block extra found
  obtain ⟨extra'', found'', grows'⟩ := right.neighborVals block extra' found'
  exact ⟨extra'', found'', grows.trans grows'⟩

theorem TransferOutput.test_valueFor (output : TransferOutput) (block index : Nat) :
    (output.valueFor block).test index = true ↔ output.element.test index = true ∨
      ∃ extra, output.neighborVals.lookup block = some extra ∧ extra.test index = true := by
  unfold TransferOutput.valueFor
  split
  · rename_i extra found
    simp [found]
  · rename_i missing
    simp [missing]

theorem TransferOutput.Le.valueFor {left right : TransferOutput} (le : left.Le right)
    (block : Nat) : Subset (left.valueFor block) (right.valueFor block) := by
  intro index found
  rw [TransferOutput.test_valueFor] at found ⊢
  rcases found with inElement | ⟨extra, lookup, inExtra⟩
  · exact Or.inl (le.element index inElement)
  · obtain ⟨extra', lookup', grows⟩ := le.neighborVals block extra lookup
    exact Or.inr ⟨extra', lookup', grows index inExtra⟩

theorem TransferOutput.Le.length {left right : TransferOutput} (le : left.Le right) :
    left.neighborVals.entries.length ≤ right.neighborVals.entries.length := by
  have keys : left.neighborVals.keys ⊆ right.neighborVals.keys := by
    intro block member
    obtain ⟨extra, found⟩ := Option.isSome_iff_exists.mp
      (AList.lookup_isSome.mpr (AList.mem_keys.mpr member))
    obtain ⟨extra', found', _⟩ := le.neighborVals block extra found
    exact AList.mem_keys.mp (AList.lookup_isSome.mp (by simp [found']))
  have lengths := (left.neighborVals.keys_nodup.subperm keys).length_le
  simpa [AList.keys, List.keys] using lengths

def TransferOutput.Similar (left right : TransferOutput) : Prop := left.Le right ∧ right.Le left

theorem TransferOutput.Similar.test_valueFor {left right : TransferOutput}
    (similar : left.Similar right) (block index : Nat) :
    (left.valueFor block).test index = (right.valueFor block).test index :=
  Bool.eq_iff_iff.mpr ⟨similar.1.valueFor block index, similar.2.valueFor block index⟩

theorem TransferOutput.Similar.refl (output : TransferOutput) : output.Similar output :=
  ⟨TransferOutput.Le.refl _, TransferOutput.Le.refl _⟩

theorem TransferOutput.Similar.trans {first second third : TransferOutput}
    (left : first.Similar second) (right : second.Similar third) : first.Similar third :=
  ⟨left.1.trans right.1, right.2.trans left.2⟩

theorem TransferOutput.similar_of_empty {left right : TransferOutput}
    (elements : ∀ index, left.element.test index = right.element.test index)
    (leftEmpty : left.neighborVals = ∅) (rightEmpty : right.neighborVals = ∅) :
    left.Similar right := by
  constructor
  · refine ⟨fun index found => by rw [← elements]; exact found, ?_⟩
    intro block extra found
    simp [leftEmpty] at found
  · refine ⟨fun index found => by rw [elements]; exact found, ?_⟩
    intro block extra found
    simp [rightEmpty] at found

def TransferOutput.Sized (size : Nat) (output : TransferOutput) : Prop :=
  ∀ block, (output.valueFor block).size = size

theorem TransferOutput.Sized.lt_of_element {size index : Nat} {output : TransferOutput}
    (sized : output.Sized size) (found : output.element.test index = true) : index < size := by
  rw [← sized 0]
  exact BitVector.lt_size_of_test ((output.test_valueFor 0 index).mpr (Or.inl found))

namespace DataFlow

variable {D : Type}

def boundaryCond (domain : List D) : BitVector := BitVector.ofSize domain.length false

def initCond (analysis : DataFlow D) (domain : List D) : BitVector :=
  BitVector.ofSize domain.length (analysis.meetOp = .intersection)

def start (analysis : DataFlow D) (F : Func) (domain : List D) : Nat → BlockResult :=
  analysis.initialResult F (boundaryCond domain) (analysis.initCond domain)

structure Fits (analysis : DataFlow D) (domain : List D) (vector : BitVector) : Prop where
  within : ∀ index, vector.test index = true → index < domain.length
  size : analysis.initialisesBoth = true → vector.size = domain.length

theorem fits_of_size {analysis : DataFlow D} {domain : List D} {vector : BitVector}
    (size : vector.size = domain.length) : analysis.Fits domain vector :=
  ⟨fun _ found => size ▸ BitVector.lt_size_of_test found, fun _ => size⟩

section Sides

variable (analysis : DataFlow D)

@[simp] theorem input_ofSides (input output : BitVector) (transferOutput : TransferOutput) :
    analysis.input (BlockResult.ofSides analysis.direction input output transferOutput) = input := by
  cases side : analysis.direction <;> simp [DataFlow.input, BlockResult.ofSides, side]

@[simp] theorem output_ofSides (input output : BitVector) (transferOutput : TransferOutput) :
    analysis.output (BlockResult.ofSides analysis.direction input output transferOutput) =
      output := by
  cases side : analysis.direction <;> simp [DataFlow.output, BlockResult.ofSides, side]

end Sides

@[simp] theorem transferOutput_ofSides (direction : Direction) (input output : BitVector)
    (transferOutput : TransferOutput) :
    (BlockResult.ofSides direction input output transferOutput).transferOutput =
      transferOutput := by
  cases direction <;> rfl

variable {analysis : DataFlow D} {F : Func} {domain : List D}

theorem neighbors_ne_nil (valid : ValidCfg F) (side : analysis.direction = .forward)
    {block : Nat} (reachable : F.Reachable block) (interior : block ≠ F.entry) :
    analysis.blockNeighbors F block ≠ [] := by
  cases reachable with
  | refl => exact absurd rfl interior
  | tail previous edge =>
      rename_i source
      have member : source ∈ F.preds block :=
        (F.mem_preds block source).mpr ⟨valid.reachable_lt previous, edge⟩
      simp only [DataFlow.blockNeighbors, side]
      exact List.ne_nil_of_mem member

theorem neighbors_eq_nil_iff (valid : ValidCfg F) (side : analysis.direction = .forward)
    {block : Nat} (reachable : F.Reachable block) :
    analysis.blockNeighbors F block = [] ↔ block = F.entry := by
  constructor
  · intro alone
    by_contra interior
    exact neighbors_ne_nil valid side reachable interior alone
  · rintro rfl
    simpa only [DataFlow.blockNeighbors, side] using valid.preds_entry

theorem start_transferOutput (analysis : DataFlow D) (F : Func) (domain : List D) (block : Nat) :
    (analysis.start F domain block).transferOutput.neighborVals = ∅ ∧
    ∀ index, (analysis.start F domain block).transferOutput.element.test index = true →
      analysis.meetOp = .intersection := by
  unfold DataFlow.start DataFlow.initialResult
  split
  · simp [DataFlow.boundaryRes, boundaryCond]
  · split
    · simp [DataFlow.interiorRes, DataFlow.initCond]
    · simp [BlockResult.empty, TransferOutput.empty]

theorem start_sized (analysis : DataFlow D) (F : Func) (domain : List D) {block : Nat}
    (bound : block < F.blocks.length) :
    (analysis.start F domain block).transferOutput.Sized domain.length := by
  intro neighbor
  simp only [TransferOutput.valueFor, (start_transferOutput analysis F domain block).1,
    AList.lookup_empty]
  unfold DataFlow.start DataFlow.initialResult
  split
  · simp [DataFlow.boundaryRes, boundaryCond]
  · simp [DataFlow.interiorRes, DataFlow.initCond]

theorem blockInput_alone {result : Nat → BlockResult} {block : Nat}
    (alone : analysis.blockNeighbors F block = []) :
    analysis.blockInput F result block = analysis.input (result block) := by
  simp [DataFlow.blockInput, DataFlow.meetInputs, alone]

theorem blockInput_company {result : Nat → BlockResult} {block : Nat}
    (company : analysis.blockNeighbors F block ≠ []) :
    analysis.meetInputs F result block ≠ [] ∧ analysis.blockInput F result block =
      applyMeetOp analysis.meetOp (analysis.meetInputs F result block) := by
  have nonempty : analysis.meetInputs F result block ≠ [] := by
    simpa [DataFlow.meetInputs] using company
  refine ⟨nonempty, ?_⟩
  unfold DataFlow.blockInput
  split
  · rename_i empty
    exact absurd empty nonempty
  · rfl

theorem blockInput_union (union : analysis.meetOp = .union) {result : Nat → BlockResult}
    {block : Nat} (company : analysis.blockNeighbors F block ≠ []) (index : Nat) :
    (analysis.blockInput F result block).test index = true ↔
      ∃ neighbor ∈ analysis.blockNeighbors F block,
        ((result neighbor).transferOutput.valueFor block).test index = true := by
  rw [(blockInput_company company).2, union, applyMeetOp_union]
  simp [DataFlow.meetInputs]

theorem blockInput_intersection (intersection : analysis.meetOp = .intersection)
    {result : Nat → BlockResult} {block : Nat}
    (company : analysis.blockNeighbors F block ≠ []) (index : Nat) :
    (analysis.blockInput F result block).test index = true ↔
      ∀ neighbor ∈ analysis.blockNeighbors F block,
        ((result neighbor).transferOutput.valueFor block).test index = true := by
  obtain ⟨nonempty, meets⟩ := blockInput_company company
  rw [meets, intersection, applyMeetOp_intersection nonempty]
  simp [DataFlow.meetInputs]

theorem blockInput_congr {left right : Nat → BlockResult} {block : Nat}
    (company : analysis.blockNeighbors F block ≠ [])
    (same : ∀ neighbor ∈ analysis.blockNeighbors F block, ∀ index,
      ((left neighbor).transferOutput.valueFor block).test index =
        ((right neighbor).transferOutput.valueFor block).test index) (index : Nat) :
    (analysis.blockInput F left block).test index =
      (analysis.blockInput F right block).test index := by
  apply Bool.eq_iff_iff.mpr
  cases meet : analysis.meetOp with
  | union =>
      rw [blockInput_union meet company, blockInput_union meet company]
      constructor
      · rintro ⟨neighbor, member, found⟩
        exact ⟨neighbor, member, by rwa [← same neighbor member]⟩
      · rintro ⟨neighbor, member, found⟩
        exact ⟨neighbor, member, by rwa [same neighbor member]⟩
  | intersection =>
      rw [blockInput_intersection meet company, blockInput_intersection meet company]
      constructor
      · intro all neighbor member
        rw [← same neighbor member]
        exact all neighbor member
      · intro all neighbor member
        rw [same neighbor member]
        exact all neighbor member

variable [DecidableEq D]

/-- What the framework relies on in an analysis. The number of neighbor values may
stand for their contents because the element determines them. -/
structure Lawful (analysis : DataFlow D) (F : Func) (domain : List D) : Prop where
  mono : ∀ block left right, analysis.Fits domain left → analysis.Fits domain right →
    Subset left right → (analysis.transfer F domain block left).Le (analysis.transfer F domain block right)
  determined : ∀ block left right, analysis.Fits domain left → analysis.Fits domain right →
    (∀ index, (analysis.transfer F domain block left).element.test index =
      (analysis.transfer F domain block right).element.test index) →
    (analysis.transfer F domain block left).Similar (analysis.transfer F domain block right)
  sized : ∀ block vector, analysis.Fits domain vector →
    (analysis.transfer F domain block vector).Sized domain.length
  plain : analysis.meetOp = .intersection → ∀ block vector,
    (analysis.transfer F domain block vector).neighborVals = ∅
  order : analysis.meetOp = .intersection ↔ analysis.direction = .forward

theorem Lawful.of_plain {analysis : DataFlow D} {F : Func} {domain : List D}
    (forward : analysis.direction = .forward) (intersection : analysis.meetOp = .intersection)
    (plain : ∀ block vector, (analysis.transfer F domain block vector).neighborVals = ∅)
    (mono : ∀ block left right, analysis.Fits domain left → analysis.Fits domain right →
      Subset left right → Subset (analysis.transfer F domain block left).element
        (analysis.transfer F domain block right).element)
    (size : ∀ block vector, analysis.Fits domain vector →
      (analysis.transfer F domain block vector).element.size = domain.length) :
    analysis.Lawful F domain where
  mono block left right leftFits rightFits subset :=
    ⟨mono block left right leftFits rightFits subset, by simp [plain]⟩
  determined block left right _ _ elements :=
    TransferOutput.similar_of_empty elements (plain block left) (plain block right)
  sized block vector fits neighbor := by
    simp [TransferOutput.valueFor, plain, size block vector fits]
  plain _ := plain
  order := by simp [forward, intersection]

structure Invariant (analysis : DataFlow D) (F : Func) (domain : List D)
    (result : Nat → BlockResult) : Prop where
  outputs : ∀ block index, (analysis.output (result block)).test index =
    (result block).transferOutput.element.test index
  bare : ∀ block, F.Reachable block → analysis.blockNeighbors F block = [] →
    analysis.Fits domain (analysis.input (result block)) ∧
    ∀ index, (analysis.input (result block)).test index = false
  untouched : ∀ block, ¬ F.Reachable block → result block = analysis.start F domain block
  produced : ∀ block, (result block).transferOutput.neighborVals = ∅ ∨
    ∃ vector, analysis.Fits domain vector ∧
      (result block).transferOutput = analysis.transfer F domain block vector
  sized : ∀ block < F.blocks.length, (result block).transferOutput.Sized domain.length

theorem Invariant.start (valid : ValidCfg F) (lawful : analysis.Lawful F domain) :
    Invariant analysis F domain (analysis.start F domain) := by
  refine ⟨?_, ?_, fun _ _ => rfl, ?_, ?_⟩
  · intro block index
    unfold DataFlow.start DataFlow.initialResult
    split
    · simp [DataFlow.boundaryRes, boundaryCond]
    · split
      · simp [DataFlow.interiorRes]
      · cases side : analysis.direction <;>
          simp [DataFlow.output, BlockResult.empty, TransferOutput.empty, side]
  · intro block reachable alone
    cases side : analysis.direction with
    | forward =>
        have isEntry : block = F.entry := by
          by_contra interior
          exact neighbors_ne_nil valid side reachable interior alone
        have boundary : block ∈ analysis.boundaryBlocks F := by
          simp [DataFlow.boundaryBlocks, side, isEntry]
        have given : analysis.input (analysis.start F domain block) = boundaryCond domain := by
          simp [DataFlow.start, DataFlow.initialResult, boundary, DataFlow.boundaryRes]
        rw [given]
        exact ⟨fits_of_size (by simp [boundaryCond]), by simp [boundaryCond]⟩
    | backward =>
        have union : analysis.meetOp ≠ .intersection := by
          intro isMeet
          simpa [side] using lawful.order.mp isMeet
        have bound := valid.reachable_lt reachable
        unfold DataFlow.start DataFlow.initialResult
        split
        · simp only [DataFlow.boundaryRes, input_ofSides]
          exact ⟨fits_of_size (by simp [boundaryCond]), by simp [boundaryCond]⟩
        · simp only [DataFlow.interiorRes, input_ofSides]
          split
          · exact ⟨fits_of_size (by simp [DataFlow.initCond]), by simp [DataFlow.initCond, union]⟩
          · rename_i oneSide
            exact ⟨⟨by simp, fun both => absurd both oneSide⟩, by simp⟩
  · intro block
    exact Or.inl (start_transferOutput analysis F domain block).1
  · intro block bound
    exact start_sized analysis F domain bound

theorem size_applyMeetOp (meetOp : MeetOp) {size : Nat} {inputs : List BitVector}
    (nonempty : inputs ≠ []) (sized : ∀ input ∈ inputs, input.size = size) :
    (applyMeetOp meetOp inputs).size = size := by
  cases inputs with
  | nil => exact absurd rfl nonempty
  | cons first rest =>
      clear nonempty
      simp only [applyMeetOp]
      induction rest generalizing first with
      | nil => simpa using sized
      | cons second rest ih =>
          rw [List.foldl_cons]
          apply ih
          simp only [List.mem_cons, forall_eq_or_imp] at sized ⊢
          refine ⟨?_, sized.2.2⟩
          cases meetOp <;> simp [sized.1, sized.2.1]

omit [DecidableEq D] in
theorem neighbor_lt (valid : ValidCfg F) {block neighbor : Nat}
    (member : neighbor ∈ analysis.blockNeighbors F block) : neighbor < F.blocks.length := by
  cases side : analysis.direction with
  | forward =>
      simp only [DataFlow.blockNeighbors, side] at member
      exact ((F.mem_preds _ _).mp member).1
  | backward =>
      simp only [DataFlow.blockNeighbors, side] at member
      exact valid.targetsInside _ _ member

theorem Invariant.size_blockInput (valid : ValidCfg F) {result : Nat → BlockResult}
    (inv : Invariant analysis F domain result) {block : Nat}
    (company : analysis.blockNeighbors F block ≠ []) :
    (analysis.blockInput F result block).size = domain.length := by
  obtain ⟨nonempty, meets⟩ := blockInput_company company
  rw [meets]
  apply size_applyMeetOp _ nonempty
  intro input member
  obtain ⟨neighbor, neighborMember, rfl⟩ := List.mem_map.mp member
  exact inv.sized neighbor (neighbor_lt valid neighborMember) block

theorem Invariant.blockInput_fits (valid : ValidCfg F) {result : Nat → BlockResult}
    (inv : Invariant analysis F domain result) {block : Nat} (reachable : F.Reachable block) :
    analysis.Fits domain (analysis.blockInput F result block) := by
  by_cases alone : analysis.blockNeighbors F block = []
  · rw [blockInput_alone alone]
    exact (inv.bare block reachable alone).1
  · exact fits_of_size (inv.size_blockInput valid alone)

theorem Invariant.update (valid : ValidCfg F) (lawful : analysis.Lawful F domain) {result : Nat → BlockResult}
    (inv : Invariant analysis F domain result) {block : Nat} (reachable : F.Reachable block) :
    Invariant analysis F domain
      (Function.update result block (analysis.processBlock F domain result block)) := by
  refine ⟨?_, ?_, ?_, ?_, ?_⟩
  · intro other index
    by_cases same : other = block
    · subst other
      simp [DataFlow.processBlock]
    · simpa [same] using inv.outputs other index
  · intro other otherReachable alone
    by_cases same : other = block
    · subst other
      simpa [DataFlow.processBlock, blockInput_alone alone] using
        inv.bare block otherReachable alone
    · simpa [same] using inv.bare other otherReachable alone
  · intro other unreachable
    have different : other ≠ block := fun same => unreachable (same ▸ reachable)
    simpa [different] using inv.untouched other unreachable
  · intro other
    by_cases same : other = block
    · subst other
      exact Or.inr ⟨analysis.blockInput F result block, inv.blockInput_fits valid reachable,
        by simp [DataFlow.processBlock]⟩
    · simpa [same] using inv.produced other
  · intro other bound
    by_cases same : other = block
    · subst other
      simpa [DataFlow.processBlock] using
        lawful.sized block _ (inv.blockInput_fits valid reachable)
    · simpa [same] using inv.sized other bound

theorem Invariant.similar_of_unchanged (valid : ValidCfg F)
    (lawful : analysis.Lawful F domain) {result : Nat → BlockResult}
    (inv : Invariant analysis F domain result) {block : Nat} (reachable : F.Reachable block)
    (unchanged : analysis.changed (result block) (analysis.processBlock F domain result block) =
      false) :
    (analysis.processBlock F domain result block).transferOutput.Similar
      (result block).transferOutput := by
  simp only [DataFlow.changed, Bool.or_eq_false_iff, Bool.not_eq_false', decide_eq_false_iff_not,
    not_not, BitVector.same_iff] at unchanged
  obtain ⟨vectors, lengths⟩ := unchanged
  have elements : ∀ index,
      (analysis.processBlock F domain result block).transferOutput.element.test index =
        (result block).transferOutput.element.test index := by
    intro index
    rw [← inv.outputs block index, ← vectors index]
    simp [DataFlow.processBlock]
  rcases inv.produced block with fresh | ⟨vector, fits, produced⟩
  · have empty : (analysis.processBlock F domain result block).transferOutput.neighborVals = ∅ := by
      rw [fresh] at lengths
      exact AList.ext (List.length_eq_zero_iff.mp (by simpa using lengths))
    exact TransferOutput.similar_of_empty elements empty fresh
  · rw [produced] at elements ⊢
    simp only [DataFlow.processBlock, transferOutput_ofSides] at elements ⊢
    exact lawful.determined block _ _ (inv.blockInput_fits valid reachable) fits elements

structure Settled (analysis : DataFlow D) (F : Func) (domain : List D)
    (result : Nat → BlockResult) (block : Nat) : Prop where
  fits : analysis.Fits domain (analysis.input (result block))
  input : ∀ index, (analysis.input (result block)).test index =
    (analysis.blockInput F result block).test index
  output : analysis.output (result block) = (result block).transferOutput.element
  transferred : (result block).transferOutput =
    analysis.transfer F domain block (analysis.input (result block))

theorem settled_of_visited (valid : ValidCfg F) {before after : Nat → BlockResult}
    (inv : Invariant analysis F domain before) {block : Nat} (reachable : F.Reachable block)
    (visited : after block = analysis.processBlock F domain before block)
    (similar : ∀ other, (after other).transferOutput.Similar (before other).transferOutput) :
    Settled analysis F domain after block := by
  have given : analysis.input (after block) = analysis.blockInput F before block := by
    simp [visited, DataFlow.processBlock]
  refine ⟨?_, ?_, ?_, ?_⟩
  · rw [given]
    exact inv.blockInput_fits valid reachable
  · intro index
    by_cases alone : analysis.blockNeighbors F block = []
    · rw [blockInput_alone alone]
    · rw [given]
      apply blockInput_congr alone
      intro neighbor _ index
      exact ((similar neighbor).test_valueFor block index).symm
  · simp [visited, DataFlow.processBlock]
  · simp [visited, DataFlow.processBlock]

theorem visits_settle (valid : ValidCfg F) (lawful : analysis.Lawful F domain) {blocks : List Nat}
    (reachable : ∀ block ∈ blocks, F.Reachable block) (nodup : blocks.Nodup)
    (state : (Nat → BlockResult) × Bool) (inv : Invariant analysis F domain state.1)
    (converged : (blocks.foldl (analysis.visit F domain) state).2 = true) :
    state.2 = true ∧
    (∀ block, ((blocks.foldl (analysis.visit F domain) state).1 block).transferOutput.Similar
      (state.1 block).transferOutput) ∧
    (∀ block ∉ blocks,
      (blocks.foldl (analysis.visit F domain) state).1 block = state.1 block) ∧
    ∀ block ∈ blocks,
      Settled analysis F domain (blocks.foldl (analysis.visit F domain) state).1 block := by
  induction blocks generalizing state with
  | nil => simpa using ⟨converged, fun block => TransferOutput.Similar.refl _⟩
  | cons next rest ih =>
      rw [List.foldl_cons] at converged ⊢
      have nextReachable := reachable next List.mem_cons_self
      obtain ⟨fresh, restNodup⟩ := List.nodup_cons.mp nodup
      obtain ⟨flag, similar, kept, settled⟩ := ih
        (fun block member => reachable block (List.mem_cons_of_mem _ member)) restNodup
        _ (inv.update valid lawful nextReachable) converged
      simp only [DataFlow.visit, Bool.and_eq_true, Bool.not_eq_true'] at flag
      have visited : ∀ block, ((analysis.visit F domain state next).1 block).transferOutput.Similar
          (state.1 block).transferOutput := by
        intro block
        by_cases same : block = next
        · subst same
          simpa [DataFlow.visit] using inv.similar_of_unchanged valid lawful nextReachable flag.2
        · simpa [DataFlow.visit, same] using TransferOutput.Similar.refl _
      have overall := fun block => (similar block).trans (visited block)
      refine ⟨flag.1, overall, ?_, ?_⟩
      · intro block outside
        simp only [List.mem_cons, not_or] at outside
        rw [kept block outside.2]
        simp [DataFlow.visit, outside.1]
      · intro block member
        rcases List.mem_cons.mp member with same | inRest
        · subst same
          apply settled_of_visited valid inv nextReachable _ overall
          rw [kept block fresh]
          simp [DataFlow.visit]
        · exact settled block inRest

theorem visits_invariant (valid : ValidCfg F) (lawful : analysis.Lawful F domain) {blocks : List Nat}
    (reachable : ∀ block ∈ blocks, F.Reachable block) {state : (Nat → BlockResult) × Bool}
    (inv : Invariant analysis F domain state.1) :
    Invariant analysis F domain (blocks.foldl (analysis.visit F domain) state).1 := by
  induction blocks generalizing state with
  | nil => exact inv
  | cons next rest ih =>
      rw [List.foldl_cons]
      exact ih (fun block member => reachable block (List.mem_cons_of_mem _ member))
        (inv.update valid lawful (reachable next List.mem_cons_self))

omit [DecidableEq D] in
theorem mem_traversalOrder (valid : ValidCfg F) {block : Nat} :
    block ∈ analysis.traversalOrder F ↔ F.Reachable block := by
  have order : block ∈ F.postOrder ↔ F.Reachable block := valid.isPostOrder.mem_iff block
  cases side : analysis.direction <;> simpa [DataFlow.traversalOrder, side] using order

omit [DecidableEq D] in
theorem nodup_traversalOrder (valid : ValidCfg F) : (analysis.traversalOrder F).Nodup := by
  have order := valid.isPostOrder.nodup
  cases side : analysis.direction <;> simpa [DataFlow.traversalOrder, side] using order

theorem Invariant.sweep (valid : ValidCfg F) (lawful : analysis.Lawful F domain)
    {result : Nat → BlockResult} (inv : Invariant analysis F domain result) :
    Invariant analysis F domain (analysis.sweep F domain result).1 :=
  visits_invariant valid lawful (fun _ => (mem_traversalOrder valid).mp) inv

theorem converge_last {P : (Nat → BlockResult) → Prop}
    (next : ∀ result, P result → P (analysis.sweep F domain result).1) {fuel : Nat}
    {result final : Nat → BlockResult} (first : P result)
    (returns : analysis.converge F domain fuel result = some final) :
    ∃ last, P last ∧ analysis.sweep F domain last = (final, true) := by
  induction fuel generalizing result with
  | zero => simp [DataFlow.converge] at returns
  | succ fuel ih =>
      rw [DataFlow.converge] at returns
      split at returns
      · rename_i flag
        exact ⟨result, first, Prod.ext (Option.some.inj returns) flag⟩
      · exact ih (next _ first) returns

theorem converge_settled (valid : ValidCfg F) (lawful : analysis.Lawful F domain) {fuel : Nat}
    {result final : Nat → BlockResult} (inv : Invariant analysis F domain result)
    (returns : analysis.converge F domain fuel result = some final) :
    Invariant analysis F domain final ∧
    ∀ block, F.Reachable block → Settled analysis F domain final block := by
  obtain ⟨last, lastInv, swept⟩ :=
    converge_last (fun _ before => before.sweep valid lawful) inv returns
  have keeps := lastInv.sweep valid lawful
  have settles := visits_settle valid lawful (fun _ => (mem_traversalOrder valid).mp)
    (nodup_traversalOrder valid) (last, true) lastInv (congrArg Prod.snd swept)
  rw [swept] at keeps
  refine ⟨keeps, ?_⟩
  intro block reachable
  have settled := settles.2.2.2 block ((mem_traversalOrder valid).mpr reachable)
  change Settled analysis F domain (analysis.sweep F domain last).1 block at settled
  rwa [swept] at settled

end DataFlow

end LlvmGather
