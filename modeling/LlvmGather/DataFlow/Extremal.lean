import LlvmGather.DataFlow.Solution

/-!
The dataflow equations, and why the loop ends in their extremal solution. Both meet
operators are treated at once: `Towards` orders vectors in the direction in which the
iteration moves, upwards for a union and downwards for an intersection.
-/

namespace LlvmGather

open BitVector (Subset)

def MeetOp.Towards (meetOp : MeetOp) (old new : BitVector) : Prop :=
  match meetOp with
  | .union => Subset old new
  | .intersection => Subset new old

def MeetOp.OutputTowards (meetOp : MeetOp) (old new : TransferOutput) : Prop :=
  match meetOp with
  | .union => old.Le new
  | .intersection => new.Le old

theorem MeetOp.OutputTowards.refl (meetOp : MeetOp) (output : TransferOutput) :
    meetOp.OutputTowards output output := by
  cases meetOp <;> exact TransferOutput.Le.refl output

theorem MeetOp.OutputTowards.trans {meetOp : MeetOp} {first second third : TransferOutput}
    (left : meetOp.OutputTowards first second) (right : meetOp.OutputTowards second third) :
    meetOp.OutputTowards first third := by
  cases meetOp with
  | union => exact TransferOutput.Le.trans left right
  | intersection => exact TransferOutput.Le.trans right left

theorem MeetOp.towards_of_bits {meetOp : MeetOp} {old new : BitVector}
    (bits : ∀ index, old.test index = new.test index) : meetOp.Towards old new := by
  cases meetOp with
  | union => exact fun index found => by rwa [← bits]
  | intersection => exact fun index found => by rwa [bits]

theorem MeetOp.Towards.congr_left {meetOp : MeetOp} {left right target : BitVector}
    (bits : ∀ index, left.test index = right.test index) (towards : meetOp.Towards left target) :
    meetOp.Towards right target := by
  cases meetOp with
  | union => exact fun index found => towards index (by rwa [bits])
  | intersection => exact fun index found => by rw [← bits]; exact towards index found

namespace DataFlow

variable {D : Type} {analysis : DataFlow D} {F : Func} {domain : List D}

theorem blockInput_towards {old new : Nat → BlockResult} {block : Nat}
    (company : analysis.blockNeighbors F block ≠ [])
    (moves : ∀ neighbor ∈ analysis.blockNeighbors F block,
      analysis.meetOp.OutputTowards (old neighbor).transferOutput (new neighbor).transferOutput) :
    analysis.meetOp.Towards (analysis.blockInput F old block)
      (analysis.blockInput F new block) := by
  cases meet : analysis.meetOp with
  | union =>
      intro index found
      rw [blockInput_union meet company] at found ⊢
      obtain ⟨neighbor, member, shown⟩ := found
      have grows := moves neighbor member
      rw [meet] at grows
      exact ⟨neighbor, member, TransferOutput.Le.valueFor grows block index shown⟩
  | intersection =>
      intro index found
      rw [blockInput_intersection meet company] at found ⊢
      intro neighbor member
      have shrinks := moves neighbor member
      rw [meet] at shrinks
      exact TransferOutput.Le.valueFor shrinks block index (found neighbor member)

variable [DecidableEq D]

theorem transfer_towards (lawful : analysis.Lawful F domain) (block : Nat)
    {old new : BitVector} (oldFits : analysis.Fits domain old) (newFits : analysis.Fits domain new)
    (moves : analysis.meetOp.Towards old new) :
    analysis.meetOp.OutputTowards (analysis.transfer F domain block old)
      (analysis.transfer F domain block new) := by
  cases meet : analysis.meetOp with
  | union =>
      rw [meet] at moves
      exact lawful.mono block old new oldFits newFits moves
  | intersection =>
      rw [meet] at moves
      exact lawful.mono block new old newFits oldFits moves

/-- The equations between the vectors of the blocks reachable from the entry. A block
without neighbors has the boundary value; otherwise the meet is taken over what its
reachable neighbors show to it, their values for this block included. -/
structure Equations (analysis : DataFlow D) (F : Func) (domain : List D)
    (inputs outputs : Nat → BitVector) : Prop where
  fits : ∀ block, F.Reachable block → analysis.Fits domain (inputs block)
  boundary : ∀ block, F.Reachable block → analysis.blockNeighbors F block = [] →
    ∀ index, (inputs block).test index = (boundaryCond domain).test index
  meet : ∀ block, F.Reachable block → analysis.blockNeighbors F block ≠ [] →
    ∀ index < domain.length, (inputs block).test index = true ↔
      match analysis.meetOp with
      | .union => ∃ neighbor ∈ analysis.blockNeighbors F block, F.Reachable neighbor ∧
          ((analysis.transfer F domain neighbor (inputs neighbor)).valueFor block).test index = true
      | .intersection => ∀ neighbor ∈ analysis.blockNeighbors F block, F.Reachable neighbor →
          ((analysis.transfer F domain neighbor (inputs neighbor)).valueFor block).test index = true
  transfer : ∀ block, F.Reachable block → ∀ index, (outputs block).test index =
    (analysis.transfer F domain block (inputs block)).element.test index

theorem converge_rule {P : (Nat → BlockResult) → Prop}
    (next : ∀ result, P result → P (analysis.sweep F domain result).1) {fuel : Nat}
    {result final : Nat → BlockResult} (first : P (analysis.sweep F domain result).1)
    (returns : analysis.converge F domain fuel result = some final) : P final := by
  have keeps : ∀ before, P (analysis.sweep F domain before).1 →
      P (analysis.sweep F domain (analysis.sweep F domain before).1).1 := fun _ => next _
  obtain ⟨last, holds, swept⟩ := converge_last keeps first returns
  rwa [swept] at holds

theorem visits_rule {P : (Nat → BlockResult) → Prop} {blocks : List Nat}
    (reachable : ∀ block ∈ blocks, F.Reachable block)
    (step : ∀ result block, F.Reachable block → P result →
      P (Function.update result block (analysis.processBlock F domain result block)))
    (state : (Nat → BlockResult) × Bool) (holds : P state.1) :
    P (blocks.foldl (analysis.visit F domain) state).1 := by
  induction blocks generalizing state with
  | nil => exact holds
  | cons next rest ih =>
      rw [List.foldl_cons]
      exact ih (fun block member => reachable block (List.mem_cons_of_mem _ member)) _
        (step _ next (reachable next List.mem_cons_self) holds)

theorem sweep_rule (valid : ValidCfg F) {P : (Nat → BlockResult) → Prop}
    (step : ∀ result block, F.Reachable block → P result →
      P (Function.update result block (analysis.processBlock F domain result block)))
    (result : Nat → BlockResult) (holds : P result) : P (analysis.sweep F domain result).1 :=
  visits_rule (fun _ => (mem_traversalOrder valid).mp) step (result, true) holds

def prepared (analysis : DataFlow D) (F : Func) (domain : List D) : Nat → BlockResult :=
  match analysis.direction with
  | .forward => Function.update (analysis.start F domain) F.entry
      (analysis.processBlock F domain (analysis.start F domain) F.entry)
  | .backward => analysis.start F domain

theorem sweep_start (valid : ValidCfg F) {P : (Nat → BlockResult) → Prop}
    (step : ∀ result block, F.Reachable block → P result →
      P (Function.update result block (analysis.processBlock F domain result block)))
    (holds : P (analysis.prepared F domain)) :
    P (analysis.sweep F domain (analysis.start F domain)).1 := by
  cases side : analysis.direction with
  | forward =>
      have last := valid.isPostOrder.entryLast
      obtain ⟨rest, split⟩ := List.getLast?_eq_some_iff.mp last
      have order : analysis.traversalOrder F = F.entry :: rest.reverse := by
        simp [DataFlow.traversalOrder, side, split]
      have reachable : ∀ block ∈ rest.reverse, F.Reachable block := by
        intro block member
        have visited : block ∈ analysis.traversalOrder F := by
          rw [order]
          exact List.mem_cons_of_mem _ member
        exact (mem_traversalOrder valid).mp visited
      rw [DataFlow.sweep, order, List.foldl_cons]
      apply visits_rule reachable step
      simpa [prepared, side, DataFlow.visit] using holds
  | backward =>
      apply sweep_rule valid step
      simpa [prepared, side] using holds

theorem start_towards (lawful : analysis.Lawful F domain) {block : Nat}
    (bound : block < F.blocks.length) (interior : analysis.direction = .forward → block ≠ F.entry)
    {output : TransferOutput} (sized : output.Sized domain.length)
    (plain : analysis.meetOp = .intersection → output.neighborVals = ∅) :
    analysis.meetOp.OutputTowards (analysis.start F domain block).transferOutput output := by
  cases meet : analysis.meetOp with
  | union =>
      have initial := start_transferOutput analysis F domain block
      refine ⟨fun index found => ?_, fun other extra found => ?_⟩
      · simpa [meet] using initial.2 index found
      · simp [initial.1] at found
  | intersection =>
      have side := lawful.order.mp meet
      have inside : block ∉ analysis.boundaryBlocks F := by
        simpa [DataFlow.boundaryBlocks, side] using interior side
      refine ⟨fun index found => ?_, fun other extra found => ?_⟩
      · have small := sized.lt_of_element found
        simp [DataFlow.start, DataFlow.initialResult, inside, bound, DataFlow.interiorRes,
          DataFlow.initCond, meet, small]
      · simp [plain meet] at found

theorem Invariant.prepared (valid : ValidCfg F) (lawful : analysis.Lawful F domain) :
    Invariant analysis F domain (analysis.prepared F domain) := by
  cases side : analysis.direction with
  | forward =>
      simpa [DataFlow.prepared, side] using
        (Invariant.start valid lawful).update valid lawful F.entry_reachable
  | backward => simpa [DataFlow.prepared, side] using Invariant.start valid lawful

theorem prepared_cases (valid : ValidCfg F) (lawful : analysis.Lawful F domain) {block : Nat}
    (reachable : F.Reachable block) :
    (analysis.blockNeighbors F block = [] ∧
      (analysis.prepared F domain block).transferOutput =
        analysis.transfer F domain block (analysis.input (analysis.prepared F domain block))) ∨
    ∀ vector, analysis.Fits domain vector →
      analysis.meetOp.OutputTowards (analysis.prepared F domain block).transferOutput
        (analysis.transfer F domain block vector) := by
  have bound := valid.reachable_lt reachable
  have neutral : (analysis.direction = .forward → block ≠ F.entry) →
      ∀ vector, analysis.Fits domain vector →
        analysis.meetOp.OutputTowards (analysis.start F domain block).transferOutput
          (analysis.transfer F domain block vector) := by
    intro interior vector fits
    exact start_towards lawful bound interior (lawful.sized block vector fits)
      (fun meet => lawful.plain meet block vector)
  cases side : analysis.direction with
  | forward =>
      by_cases isEntry : block = F.entry
      · left
        subst isEntry
        constructor
        · simp only [DataFlow.blockNeighbors, side]
          apply List.eq_nil_iff_forall_not_mem.mpr
          intro source member
          exact valid.entryWithoutPreds source ((F.mem_preds _ _).mp member).2
        · have visited : analysis.prepared F domain F.entry =
              analysis.processBlock F domain (analysis.start F domain) F.entry := by
            simp [DataFlow.prepared, side]
          rw [visited]
          simp [DataFlow.processBlock]
      · right
        simpa [DataFlow.prepared, side, isEntry] using neutral (fun _ => isEntry)
  | backward =>
      right
      simpa [DataFlow.prepared, side] using neutral (by simp [side])

structure Improving (analysis : DataFlow D) (F : Func) (domain : List D)
    (result : Nat → BlockResult) : Prop where
  inv : Invariant analysis F domain result
  moves : ∀ block, F.Reachable block → analysis.meetOp.OutputTowards (result block).transferOutput
    (analysis.processBlock F domain result block).transferOutput

theorem processBlock_transferOutput (result : Nat → BlockResult) (block : Nat) :
    (analysis.processBlock F domain result block).transferOutput =
      analysis.transfer F domain block (analysis.blockInput F result block) := by
  simp [DataFlow.processBlock]

theorem Improving.update (valid : ValidCfg F) (lawful : analysis.Lawful F domain) {result : Nat → BlockResult}
    {block : Nat} (reachable : F.Reachable block) (improving : Improving analysis F domain result) :
    Improving analysis F domain
      (Function.update result block (analysis.processBlock F domain result block)) := by
  have newInv := improving.inv.update valid lawful reachable
  refine ⟨newInv, ?_⟩
  have step : ∀ other, analysis.meetOp.OutputTowards (result other).transferOutput
      (Function.update result block
        (analysis.processBlock F domain result block) other).transferOutput := by
    intro other
    by_cases same : other = block
    · subst same
      simpa using improving.moves other reachable
    · simpa [same] using MeetOp.OutputTowards.refl _ _
  have inputs : ∀ other, analysis.meetOp.Towards (analysis.blockInput F result other)
      (analysis.blockInput F (Function.update result block
        (analysis.processBlock F domain result block)) other) := by
    intro other
    by_cases alone : analysis.blockNeighbors F other = []
    · apply MeetOp.towards_of_bits
      intro index
      rw [blockInput_alone alone, blockInput_alone alone]
      by_cases same : other = block
      · subst same
        simp [DataFlow.processBlock, blockInput_alone alone]
      · simp [same]
    · exact blockInput_towards alone (fun neighbor _ => step neighbor)
  intro other otherReachable
  rw [processBlock_transferOutput]
  have onward := transfer_towards lawful other
    (improving.inv.blockInput_fits valid otherReachable)
    (newInv.blockInput_fits valid otherReachable) (inputs other)
  by_cases same : other = block
  · subst same
    simpa [processBlock_transferOutput] using onward
  · rw [Function.update_of_ne same]
    have here := improving.moves other otherReachable
    rw [processBlock_transferOutput] at here
    exact here.trans onward

theorem Improving.prepared (valid : ValidCfg F) (lawful : analysis.Lawful F domain) :
    Improving analysis F domain (analysis.prepared F domain) := by
  have inv := Invariant.prepared valid lawful
  refine ⟨inv, ?_⟩
  intro block reachable
  rw [processBlock_transferOutput]
  rcases prepared_cases valid lawful reachable with ⟨alone, own⟩ | neutral
  · rw [blockInput_alone alone, own]
    exact MeetOp.OutputTowards.refl _ _
  · exact neutral _ (inv.blockInput_fits valid reachable)

structure Bound (analysis : DataFlow D) (F : Func) (domain : List D) (inputs : Nat → BitVector) :
    Prop where
  fits : ∀ block, F.Reachable block → analysis.Fits domain (inputs block)
  boundary : ∀ block, F.Reachable block → analysis.blockNeighbors F block = [] →
    analysis.meetOp.Towards (boundaryCond domain) (inputs block)
  union : analysis.meetOp = .union → ∀ block, F.Reachable block →
    ∀ neighbor ∈ analysis.blockNeighbors F block, F.Reachable neighbor → ∀ index < domain.length,
      ((analysis.transfer F domain neighbor (inputs neighbor)).valueFor block).test index = true →
        (inputs block).test index = true
  intersection : analysis.meetOp = .intersection → ∀ block, F.Reachable block →
    ∀ neighbor ∈ analysis.blockNeighbors F block, F.Reachable neighbor → ∀ index < domain.length,
      (inputs block).test index = true →
        ((analysis.transfer F domain neighbor (inputs neighbor)).valueFor block).test index = true

theorem Equations.bound {inputs outputs : Nat → BitVector}
    (solution : Equations analysis F domain inputs outputs) : Bound analysis F domain inputs where
  fits := solution.fits
  boundary block reachable alone :=
    MeetOp.towards_of_bits fun index => (solution.boundary block reachable alone index).symm
  union meet block reachable neighbor member neighborReachable index small shown := by
    have equation := solution.meet block reachable (List.ne_nil_of_mem member) index small
    rw [meet] at equation
    exact equation.mpr ⟨neighbor, member, neighborReachable, shown⟩
  intersection meet block reachable neighbor member neighborReachable index small found := by
    have equation := solution.meet block reachable (List.ne_nil_of_mem member) index small
    rw [meet] at equation
    exact equation.mp found neighbor member neighborReachable

structure Before (analysis : DataFlow D) (F : Func) (domain : List D) (inputs : Nat → BitVector)
    (result : Nat → BlockResult) : Prop where
  inv : Invariant analysis F domain result
  moves : ∀ block, F.Reachable block → analysis.meetOp.OutputTowards (result block).transferOutput
    (analysis.transfer F domain block (inputs block))

theorem unreachable_shows_all (lawful : analysis.Lawful F domain)
    (meet : analysis.meetOp = .intersection) {result : Nat → BlockResult}
    (inv : Invariant analysis F domain result) {neighbor block index : Nat}
    (bound : neighbor < F.blocks.length) (unreachable : ¬ F.Reachable neighbor)
    (small : index < domain.length) :
    ((result neighbor).transferOutput.valueFor block).test index = true := by
  have interior : neighbor ∉ analysis.boundaryBlocks F := by
    have notEntry : neighbor ≠ F.entry := fun same => unreachable (same ▸ F.entry_reachable)
    simpa [DataFlow.boundaryBlocks, lawful.order.mp meet] using notEntry
  rw [inv.untouched neighbor unreachable, TransferOutput.test_valueFor]
  left
  simp [DataFlow.start, DataFlow.initialResult, interior, bound, DataFlow.interiorRes,
    DataFlow.initCond, meet, small]

theorem neighbor_reachable (lawful : analysis.Lawful F domain) (meet : analysis.meetOp = .union)
    {block neighbor : Nat} (reachable : F.Reachable block)
    (member : neighbor ∈ analysis.blockNeighbors F block) : F.Reachable neighbor := by
  cases side : analysis.direction with
  | forward => simpa [meet] using lawful.order.mpr side
  | backward =>
      have edge : neighbor ∈ F.succs block := by
        simpa [DataFlow.blockNeighbors, side] using member
      exact FlowGraph.Reachable.step reachable edge

theorem Before.blockInput (valid : ValidCfg F) (lawful : analysis.Lawful F domain)
    {inputs : Nat → BitVector} (limit : Bound analysis F domain inputs)
    {result : Nat → BlockResult} (before : Before analysis F domain inputs result) {block : Nat}
    (reachable : F.Reachable block) :
    analysis.meetOp.Towards (analysis.blockInput F result block) (inputs block) := by
  by_cases alone : analysis.blockNeighbors F block = []
  · apply (limit.boundary block reachable alone).congr_left
    intro index
    rw [blockInput_alone alone, (before.inv.bare block reachable alone).2]
    simp [boundaryCond]
  · cases meet : analysis.meetOp with
    | union =>
        intro index found
        have small := (before.inv.blockInput_fits valid reachable).within index found
        rw [blockInput_union meet alone] at found
        obtain ⟨neighbor, member, shown⟩ := found
        have neighborReachable := neighbor_reachable lawful meet reachable member
        have grows := before.moves neighbor neighborReachable
        rw [meet] at grows
        exact limit.union meet block reachable neighbor member neighborReachable index small
          (TransferOutput.Le.valueFor grows block index shown)
    | intersection =>
        intro index found
        have small := (limit.fits block reachable).within index found
        rw [blockInput_intersection meet alone]
        intro neighbor member
        by_cases neighborReachable : F.Reachable neighbor
        · have shrinks := before.moves neighbor neighborReachable
          rw [meet] at shrinks
          exact TransferOutput.Le.valueFor shrinks block index
            (limit.intersection meet block reachable neighbor member neighborReachable index small
              found)
        · exact unreachable_shows_all lawful meet before.inv (neighbor_lt valid member)
            neighborReachable small

theorem Before.update (valid : ValidCfg F) (lawful : analysis.Lawful F domain)
    {inputs : Nat → BitVector} (limit : Bound analysis F domain inputs)
    {result : Nat → BlockResult} {block : Nat} (reachable : F.Reachable block)
    (before : Before analysis F domain inputs result) :
    Before analysis F domain inputs
      (Function.update result block (analysis.processBlock F domain result block)) := by
  refine ⟨before.inv.update valid lawful reachable, ?_⟩
  intro other otherReachable
  by_cases same : other = block
  · subst same
    rw [Function.update_self, processBlock_transferOutput]
    exact transfer_towards lawful other (before.inv.blockInput_fits valid reachable)
      (limit.fits other reachable) (before.blockInput valid lawful limit reachable)
  · rw [Function.update_of_ne same]
    exact before.moves other otherReachable

theorem Before.prepared (valid : ValidCfg F) (lawful : analysis.Lawful F domain)
    {inputs : Nat → BitVector} (limit : Bound analysis F domain inputs) :
    Before analysis F domain inputs (analysis.prepared F domain) := by
  have inv := Invariant.prepared valid lawful
  refine ⟨inv, ?_⟩
  intro block reachable
  rcases prepared_cases valid lawful reachable with ⟨alone, own⟩ | neutral
  · rw [own]
    apply transfer_towards lawful _ (inv.bare block reachable alone).1 (limit.fits block reachable)
    apply (limit.boundary block reachable alone).congr_left
    intro index
    rw [(inv.bare block reachable alone).2]
    simp [boundaryCond]
  · exact neutral _ (limit.fits block reachable)

theorem converge_before (valid : ValidCfg F) (lawful : analysis.Lawful F domain) {fuel : Nat}
    {final : Nat → BlockResult}
    (returns : analysis.converge F domain fuel (analysis.start F domain) = some final)
    {inputs : Nat → BitVector} (limit : Bound analysis F domain inputs) :
    Before analysis F domain inputs final := by
  have step : ∀ result block, F.Reachable block → Before analysis F domain inputs result →
      Before analysis F domain inputs
        (Function.update result block (analysis.processBlock F domain result block)) :=
    fun _ _ visited before => before.update valid lawful limit visited
  exact converge_rule (sweep_rule valid step)
    (sweep_start valid step (Before.prepared valid lawful limit)) returns

theorem converge_bound (valid : ValidCfg F) (lawful : analysis.Lawful F domain) {fuel : Nat}
    {final : Nat → BlockResult}
    (returns : analysis.converge F domain fuel (analysis.start F domain) = some final)
    {inputs : Nat → BitVector} (limit : Bound analysis F domain inputs) {block : Nat}
    (reachable : F.Reachable block) :
    analysis.meetOp.Towards (analysis.input (final block)) (inputs block) := by
  have before := converge_before valid lawful returns limit
  obtain ⟨_, settled⟩ := converge_settled valid lawful (Invariant.start valid lawful) returns
  exact (before.blockInput valid lawful limit reachable).congr_left
    fun index => ((settled block reachable).input index).symm

theorem run_eq_some {fuel : Nat} {output : DataFlowResult D}
    (returns : analysis.run fuel F domain (boundaryCond domain) (analysis.initCond domain) =
      some output) :
    analysis.converge F domain fuel (analysis.start F domain) = some output.result ∧
      output.domainToIndex = indexDomain domain := by
  simp only [DataFlow.run, Option.map_eq_some_iff] at returns
  obtain ⟨final, found, built⟩ := returns
  subst built
  exact ⟨found, rfl⟩

theorem converge_equations (valid : ValidCfg F) (lawful : analysis.Lawful F domain)
    {fuel : Nat} {final : Nat → BlockResult}
    (returns : analysis.converge F domain fuel (analysis.start F domain) = some final) :
    Equations analysis F domain (fun block => analysis.input (final block))
      (fun block => analysis.output (final block)) := by
  obtain ⟨inv, settled⟩ := converge_settled valid lawful (Invariant.start valid lawful) returns
  have inputs : ∀ block, F.Reachable block → ∀ index, (analysis.input (final block)).test index =
      (analysis.blockInput F final block).test index :=
    fun block reachable => (settled block reachable).input
  refine ⟨?_, ?_, ?_, ?_⟩
  · exact fun block reachable => (settled block reachable).fits
  · intro block reachable alone index
    rw [(inv.bare block reachable alone).2]
    simp [boundaryCond]
  · intro block reachable company index small
    rw [inputs block reachable]
    cases meet : analysis.meetOp with
    | union =>
        rw [blockInput_union meet company]
        constructor
        · rintro ⟨neighbor, member, shown⟩
          have neighborReachable := neighbor_reachable lawful meet reachable member
          refine ⟨neighbor, member, neighborReachable, ?_⟩
          rwa [← (settled neighbor neighborReachable).transferred]
        · rintro ⟨neighbor, member, neighborReachable, shown⟩
          refine ⟨neighbor, member, ?_⟩
          rwa [(settled neighbor neighborReachable).transferred]
    | intersection =>
        rw [blockInput_intersection meet company]
        constructor
        · intro all neighbor member neighborReachable
          rw [← (settled neighbor neighborReachable).transferred]
          exact all neighbor member
        · intro all neighbor member
          have edge : neighbor ∈ F.preds block := by
            simpa [DataFlow.blockNeighbors, lawful.order.mp meet] using member
          by_cases neighborReachable : F.Reachable neighbor
          · rw [(settled neighbor neighborReachable).transferred]
            exact all neighbor member neighborReachable
          · exact unreachable_shows_all lawful meet inv ((F.mem_preds _ _).mp edge).1
              neighborReachable small
  · intro block reachable index
    rw [(settled block reachable).output, (settled block reachable).transferred]

theorem converge_extremal (valid : ValidCfg F) (lawful : analysis.Lawful F domain) {fuel : Nat}
    {final : Nat → BlockResult}
    (returns : analysis.converge F domain fuel (analysis.start F domain) = some final)
    {inputs outputs : Nat → BitVector} (solution : Equations analysis F domain inputs outputs)
    {block : Nat} (reachable : F.Reachable block) :
    analysis.meetOp.Towards (analysis.input (final block)) (inputs block) ∧
    analysis.meetOp.Towards (analysis.output (final block)) (outputs block) := by
  refine ⟨converge_bound valid lawful returns solution.bound reachable, ?_⟩
  have before := converge_before valid lawful returns solution.bound
  obtain ⟨_, settled⟩ := converge_settled valid lawful (Invariant.start valid lawful) returns
  have outcome := before.moves block reachable
  rw [(settled block reachable).output]
  cases meet : analysis.meetOp with
  | union =>
      rw [meet] at outcome
      exact fun index found => by
        rw [solution.transfer block reachable]
        exact outcome.element index found
  | intersection =>
      rw [meet] at outcome
      exact fun index found => by
        rw [solution.transfer block reachable] at found
        exact outcome.element index found

/-- In a forward analysis over all paths a bit at the start of a block says something about
every walk there: nothing is known at the entry, and each block passed on the way shows the
bit to the next. -/
theorem Equations.walk_rule (valid : ValidCfg F) (forward : analysis.direction = .forward)
    (meets : analysis.meetOp = .intersection) {inputs outputs : Nat → BitVector}
    (solution : Equations analysis F domain inputs outputs) {index : Nat}
    (small : index < domain.length) {P : List Nat → Prop}
    (step : ∀ trail source target, F.Reachable source →
      ((inputs source).test index = true → P trail) →
      ((analysis.transfer F domain source (inputs source)).valueFor target).test index = true →
      P (source :: trail))
    {trail : List Nat} {block : Nat} (walk : FlowGraph.Walk F.succs F.entry trail block)
    (found : (inputs block).test index = true) : P trail := by
  have neighbors : ∀ block, analysis.blockNeighbors F block = F.preds block := by
    intro block
    rw [blockNeighbors, forward]
  induction walk with
  | start =>
      rw [solution.boundary F.entry F.entry_reachable
        ((neighbors F.entry).trans valid.preds_entry)] at found
      simp [boundaryCond] at found
  | step previous edge ih =>
      rename_i trail source target
      have sourceReachable : F.Reachable source := previous.reachable
      have isPred : source ∈ analysis.blockNeighbors F target := by
        rw [neighbors]
        exact (F.mem_preds _ _).mpr ⟨valid.reachable_lt sourceReachable, edge⟩
      have shown := (solution.meet target (sourceReachable.step edge) (List.ne_nil_of_mem isPred)
        index small).mp found
      rw [meets] at shown
      exact step trail source target sourceReachable ih (shown source isPred sourceReachable)

end DataFlow

end LlvmGather
