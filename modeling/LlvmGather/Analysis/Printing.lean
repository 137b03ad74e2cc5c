import LlvmGather.Analysis.Available
import LlvmGather.Analysis.Liveness
import LlvmGather.DataFlow.Width

/-!
How `liveness.cpp` and `available.cpp` print their results. Both walk through a block with
one vector, which they update at each instruction and print between the instructions. An
access beyond the end of the vector makes the model fail.
-/

namespace LlvmGather

/-- What is printed: the ruler around a block, an instruction, or a set of elements; the
set at the start of a block has a mark of its own. -/
inductive PrintLine (D : Type)
  | ruler
  | inst (inst : Inst)
  | set (elements : List D)
  | entrySet (elements : List D)
deriving DecidableEq, Repr

def printSet {D : Type} (domain : List D) (on : BitVector) : Option (List D) :=
  domain.zipIdx.foldlM
    (fun shown entry =>
      (on.readAt entry.2).map fun bit => if bit then shown ++ [entry.1] else shown) []

namespace Liveness

def killResult (domainToIndex : AList fun _ : Value => Nat) (inst : Inst)
    (liveValues : BitVector) : Option BitVector :=
  match domainToIndex.lookup (.inst inst.id) with
  | some index => liveValues.resetAt index
  | none => some liveValues

def addOperands (domainToIndex : AList fun _ : Value => Nat) (inst : Inst)
    (liveValues : BitVector) : Option BitVector :=
  inst.operands.foldlM
    (fun liveValues val =>
      if val.isInstOrArg then liveValues.setAt (indexAt domainToIndex val) else some liveValues)
    liveValues

def printInst (domain : List Value) (domainToIndex : AList fun _ : Value => Nat)
    (state : BitVector × List (PrintLine Value)) (inst : Inst) :
    Option (BitVector × List (PrintLine Value)) :=
  if inst.isPhi then do
    let liveValues ← killResult domainToIndex inst state.1
    some (liveValues, state.2 ++ [.inst inst])
  else do
    let used ← addOperands domainToIndex inst state.1
    let liveValues ← killResult domainToIndex inst used
    let shown ← printSet domain liveValues
    some (liveValues, state.2 ++ [.inst inst, .set shown])

def printBlock (domain : List Value) (output : DataFlowResult Value) (F : Func) (block : Nat) :
    Option (BitVector × List (PrintLine Value)) := do
  let liveValues := (output.result block).outVec
  let shown ← printSet domain liveValues
  let walked ← (F.insts block).reverse.foldlM (printInst domain output.domainToIndex)
    (liveValues, [.ruler, .set shown])
  some (walked.1, (walked.2 ++ [PrintLine.ruler]).reverse)

end Liveness

namespace AvailableExpressions

def generate (domain : List Expression) (domainToIndex : AList fun _ : Expression => Nat)
    (availableExprs : BitVector) (inst : Inst) : Option BitVector :=
  match Expression.ofInst inst with
  | some expr =>
      match domain.find? (expr = ·) with
      | some found => availableExprs.setAt (indexAt domainToIndex found)
      | none => some availableExprs
  | none => some availableExprs

def killIfNamed (F : Func) (domainToIndex : AList fun _ : Expression => Nat) (name : String)
    (availableExprs : BitVector) (expr : Expression) : Option BitVector :=
  if F.getName expr.v1 = name ∨ F.getName expr.v2 = name then
    match domainToIndex.lookup expr with
    | some index => availableExprs.resetAt index
    | none => some availableExprs
  else some availableExprs

def updateInst (F : Func) (domain : List Expression)
    (domainToIndex : AList fun _ : Expression => Nat) (availableExprs : BitVector) (inst : Inst) :
    Option BitVector := do
  let generated ← generate domain domainToIndex availableExprs inst
  if inst.name ≠ "" then domain.foldlM (killIfNamed F domainToIndex inst.name) generated
  else some generated

def printInst (F : Func) (domain : List Expression)
    (domainToIndex : AList fun _ : Expression => Nat)
    (state : BitVector × List (PrintLine Expression)) (inst : Inst) :
    Option (BitVector × List (PrintLine Expression)) := do
  let availableExprs ← updateInst F domain domainToIndex state.1 inst
  if inst.isPhi then some (availableExprs, state.2 ++ [.inst inst])
  else do
    let shown ← printSet domain availableExprs
    some (availableExprs, state.2 ++ [.inst inst, .set shown])

def printBlock (F : Func) (domain : List Expression) (availableExprs : BitVector) (block : Nat) :
    Option (BitVector × List (PrintLine Expression)) := do
  let shown ← printSet domain availableExprs
  let walked ← (F.insts block).foldlM (printInst F domain (indexDomain domain))
    (availableExprs, [.ruler, .entrySet shown])
  some (walked.1, walked.2 ++ [.ruler])

end AvailableExpressions

section Sets

variable {D : Type} {domain : List D} {on : BitVector}

theorem printSet_loop (list : List D) (offset : Nat) (shown : List D)
    (wide : offset + list.length ≤ on.size) :
    (list.zipIdx offset).foldlM
        (fun shown entry =>
          (on.readAt entry.2).map fun bit => if bit then shown ++ [entry.1] else shown) shown =
      some (shown ++ ((list.zipIdx offset).filter (on.test ·.2)).map Prod.fst) := by
  induction list generalizing offset shown with
  | nil => simp
  | cons first rest ih =>
      rw [List.length_cons] at wide
      rw [List.zipIdx_cons, List.foldlM_cons, BitVector.readAt_of_lt (by simp; omega)]
      simp only [Option.map_some, Option.bind_eq_bind, Option.bind_some]
      rw [ih (offset + 1) _ (by omega)]
      cases bit : on.test offset <;> simp [bit]

theorem printSet_of_size [DecidableEq D] (nodup : domain.Nodup) (size : on.size = domain.length) :
    printSet domain on = some (domain.filter fun element => on.test (domain.idxOf element)) := by
  have indexed : domain.zipIdx = domain.map fun element => (element, domain.idxOf element) := by
    refine List.ext_getElem (by simp) fun index inLeft inRight => ?_
    simp [List.Nodup.idxOf_getElem nodup]
  rw [printSet, printSet_loop domain 0 [] (by omega), indexed, List.filter_map, List.map_map]
  simp [Function.comp_def]

theorem printSet_narrow (narrow : on.size < domain.length) : printSet domain on = none := by
  obtain ⟨front, back, rfl, size⟩ : ∃ front back, domain = front ++ back ∧ front.length = on.size :=
    ⟨domain.take on.size, domain.drop on.size, by simp, by simp; omega⟩
  cases back with
  | nil => simp [size] at narrow
  | cons first rest =>
      rw [printSet, List.zipIdx_append, List.foldlM_append, printSet_loop front 0 [] (by omega)]
      simp [size, BitVector.readAt_of_le]

structure Represents [DecidableEq D] (domain : List D) (vector : BitVector) (holds : D → Prop) :
    Prop where
  size : vector.size = domain.length
  bits : ∀ element ∈ domain, vector.test (domain.idxOf element) = true ↔ holds element

variable [DecidableEq D] {vector : BitVector} {holds : D → Prop}

theorem represents_self (size : vector.size = domain.length) :
    Represents domain vector fun element => vector.test (domain.idxOf element) = true :=
  ⟨size, fun _ _ => Iff.rfl⟩

theorem Represents.congr (represents : Represents domain vector holds) {holds' : D → Prop}
    (same : ∀ element ∈ domain, holds element ↔ holds' element) : Represents domain vector holds' :=
  ⟨represents.size, fun element member =>
    (represents.bits element member).trans (same element member)⟩

theorem Represents.unique (nodup : domain.Nodup) {other : BitVector}
    (left : Represents domain vector holds) (right : Represents domain other holds) :
    vector = other := by
  refine BitVector.ext_test (left.size.trans right.size.symm) fun index => ?_
  by_cases small : index < domain.length
  · obtain ⟨element, member, rfl⟩ := exists_idxOf nodup small
    exact Bool.eq_iff_iff.mpr ((left.bits element member).trans (right.bits element member).symm)
  · rw [vector.test_eq_false_of_size_le (by rw [left.size]; omega),
      other.test_eq_false_of_size_le (by rw [right.size]; omega)]

theorem Represents.setAt (represents : Represents domain vector holds) {element : D}
    (member : element ∈ domain) :
    vector.setAt (domain.idxOf element) = some (vector.set (domain.idxOf element)) ∧
      Represents domain (vector.set (domain.idxOf element)) fun other =>
        holds other ∨ other = element := by
  have small : domain.idxOf element < vector.size :=
    represents.size ▸ List.idxOf_lt_length_of_mem member
  refine ⟨BitVector.setAt_of_lt small, by simpa using represents.size, ?_⟩
  intro other otherMember
  rw [BitVector.test_set, Bool.or_eq_true, represents.bits other otherMember, decide_eq_true_eq]
  simp [small, List.idxOf_inj otherMember]

theorem Represents.resetAt (represents : Represents domain vector holds) {element : D}
    (member : element ∈ domain) :
    vector.resetAt (domain.idxOf element) = some (vector.reset (domain.idxOf element)) ∧
      Represents domain (vector.reset (domain.idxOf element)) fun other =>
        holds other ∧ other ≠ element := by
  have small : domain.idxOf element < vector.size :=
    represents.size ▸ List.idxOf_lt_length_of_mem member
  refine ⟨BitVector.resetAt_of_lt small, by simpa using represents.size, ?_⟩
  intro other otherMember
  rw [BitVector.test_reset, Bool.and_eq_true, represents.bits other otherMember, decide_eq_true_eq]
  simp [List.idxOf_inj otherMember]

open Classical in
theorem Represents.printSet (nodup : domain.Nodup) (represents : Represents domain vector holds) :
    printSet domain vector = some (domain.filter fun element => decide (holds element)) := by
  rw [printSet_of_size nodup represents.size]
  refine congrArg some (List.filter_congr fun element member => ?_)
  rw [Bool.eq_iff_iff, represents.bits element member, decide_eq_true_eq]

end Sets

namespace Liveness

variable {domain : List Value} {vector : BitVector} {holds : Value → Prop} {inst : Inst}

theorem killResult_spec (nodup : domain.Nodup) (represents : Represents domain vector holds)
    (inst : Inst) : ∃ killed, killResult (indexDomain domain) inst vector = some killed ∧
      Represents domain killed fun value => holds value ∧ value ≠ .inst inst.id := by
  unfold killResult
  rw [lookup_indexDomain nodup]
  by_cases member : Value.inst inst.id ∈ domain
  · rw [if_pos member]
    exact ⟨_, represents.resetAt member⟩
  · rw [if_neg member]
    refine ⟨vector, rfl, represents.congr fun value inDomain => ?_⟩
    have other : value ≠ .inst inst.id := fun same => member (same ▸ inDomain)
    simp [other]

theorem addOperands_spec (nodup : domain.Nodup) (represents : Represents domain vector holds)
    (complete : ∀ value ∈ inst.operands, value.isInstOrArg = true → value ∈ domain)
    (relevant : ∀ value ∈ domain, value.isInstOrArg = true) :
    ∃ added, addOperands (indexDomain domain) inst vector = some added ∧
      Represents domain added fun value => holds value ∨ value ∈ inst.operands := by
  unfold addOperands
  revert complete
  generalize inst.operands = operands
  intro complete
  induction operands generalizing vector holds with
  | nil => exact ⟨vector, rfl, represents.congr (by simp)⟩
  | cons first rest ih =>
      have restComplete := fun value later => complete value (List.mem_cons_of_mem first later)
      rw [List.foldlM_cons]
      by_cases kind : first.isInstOrArg = true
      · have member := complete first List.mem_cons_self kind
        obtain ⟨inRange, next⟩ := represents.setAt member
        rw [if_pos kind, indexAt_of_mem nodup member, inRange, Option.bind_eq_bind,
          Option.bind_some]
        obtain ⟨added, returns, all⟩ := ih next restComplete
        exact ⟨added, returns, all.congr fun value _ => by simp [or_assoc]⟩
      · rw [if_neg kind, Option.bind_eq_bind, Option.bind_some]
        obtain ⟨added, returns, all⟩ := ih represents restComplete
        refine ⟨added, returns, all.congr fun value inDomain => ?_⟩
        have other : value ≠ first := fun same => kind (same ▸ relevant value inDomain)
        simp [other]

def before (holds : Value → Prop) : List Inst → Value → Prop
  | [], value => holds value
  | inst :: rest, value =>
      (before holds rest value ∨ inst.isPhi = false ∧ value ∈ inst.operands) ∧
        value ≠ .inst inst.id

open Classical in
/-- The instructions in order, with the set before each of them that is not a phi, and the
set at the end. -/
noncomputable def listing (domain : List Value) (sets : List Inst → Value → Prop) :
    List Inst → List (PrintLine Value)
  | [] => [.set (domain.filter fun value => decide (sets [] value)), .ruler]
  | inst :: rest =>
      if inst.isPhi then .inst inst :: listing domain sets rest
      else .set (domain.filter fun value => decide (sets (inst :: rest) value)) ::
        .inst inst :: listing domain sets rest

open Classical in
theorem printInst_spec (nodup : domain.Nodup) (represents : Represents domain vector holds)
    (complete : ∀ value ∈ inst.operands, value.isInstOrArg = true → value ∈ domain)
    (relevant : ∀ value ∈ domain, value.isInstOrArg = true) (revOut : List (PrintLine Value)) :
    ∃ updated, Represents domain updated (before holds [inst]) ∧
      printInst domain (indexDomain domain) (vector, revOut) inst =
        some (updated, revOut ++ if inst.isPhi then [.inst inst] else
          [.inst inst, .set (domain.filter fun value => decide (before holds [inst] value))]) := by
  unfold printInst
  cases phi : inst.isPhi with
  | true =>
      obtain ⟨killed, returns, represents'⟩ := killResult_spec nodup represents inst
      refine ⟨killed, represents'.congr fun value _ => by simp [before, phi], ?_⟩
      simp [returns]
  | false =>
      obtain ⟨added, adds, addedSet⟩ := addOperands_spec nodup represents complete relevant
      obtain ⟨killed, kills, killedSet⟩ := killResult_spec nodup addedSet inst
      have result : Represents domain killed (before holds [inst]) :=
        killedSet.congr fun value _ => by simp [before, phi]
      refine ⟨killed, result, ?_⟩
      simp [adds, kills, result.printSet nodup]

theorem walk_spec (nodup : domain.Nodup) (represents : Represents domain vector holds)
    {insts : List Inst} (complete : ∀ inst ∈ insts, ∀ value ∈ inst.operands,
      value.isInstOrArg = true → value ∈ domain)
    (relevant : ∀ value ∈ domain, value.isInstOrArg = true) {shown : List Value}
    (printed : printSet domain vector = some shown) :
    ∃ final revOut, Represents domain final (before holds insts) ∧
      insts.reverse.foldlM (printInst domain (indexDomain domain)) (vector, [.ruler, .set shown]) =
        some (final, revOut) ∧ revOut.reverse = listing domain (before holds) insts := by
  induction insts with
  | nil =>
      refine ⟨vector, [.ruler, .set shown], represents, rfl, ?_⟩
      rw [represents.printSet nodup, Option.some_inj] at printed
      rw [← printed]
      rfl
  | cons inst rest ih =>
      obtain ⟨middle, revOut, middleSet, walks, lines⟩ :=
        ih fun other later => complete other (List.mem_cons_of_mem _ later)
      obtain ⟨final, finalSet, prints⟩ := printInst_spec nodup middleSet
        (complete inst List.mem_cons_self) relevant revOut
      have walked : (inst :: rest).reverse.foldlM (printInst domain (indexDomain domain))
          (vector, [.ruler, .set shown]) =
            printInst domain (indexDomain domain) (middle, revOut) inst := by
        rw [List.reverse_cons, List.foldlM_append, walks]
        simp
      refine ⟨final, _, finalSet, walked.trans prints, ?_⟩
      rw [List.reverse_append, lines, listing]
      cases inst.isPhi <;> rfl

theorem operand_mem_livenessDomain {F : Func} {block : Nat} (inst : Inst)
    (member : inst ∈ F.insts block) (value : Value) (operand : value ∈ inst.operands)
    (kind : value.isInstOrArg = true) : value ∈ livenessDomain F :=
  (mem_livenessDomain F value).mpr
    ⟨⟨inst, (F.mem_allInsts inst).mpr ⟨block, member⟩, operand⟩, kind⟩

theorem printBlock_eq (F : Func) {output : DataFlowResult Value} {block : Nat}
    (index : output.domainToIndex = indexDomain (livenessDomain F))
    (represents : Represents (livenessDomain F) (output.result block).outVec holds) :
    ∃ final, Represents (livenessDomain F) final (before holds (F.insts block)) ∧
      printBlock (livenessDomain F) output F block =
        some (final, .ruler :: listing (livenessDomain F) (before holds) (F.insts block)) := by
  have nodup := nodup_livenessDomain F
  obtain ⟨final, revOut, finalSet, walks, lines⟩ := walk_spec nodup represents
    operand_mem_livenessDomain (fun value member => ((mem_livenessDomain F value).mp member).2)
    (represents.printSet nodup)
  refine ⟨final, finalSet, ?_⟩
  simp only [printBlock, represents.printSet nodup, index, Option.bind_eq_bind, Option.bind_some,
    walks]
  rw [List.reverse_append, lines]
  rfl

theorem printBlock_narrow {F : Func} {output : DataFlowResult Value} {block : Nat}
    (narrow : (output.result block).outVec.size < domain.length) :
    printBlock domain output F block = none := by
  simp [printBlock, printSet_narrow narrow]

end Liveness

namespace AvailableExpressions

variable {F : Func} {domain : List Expression}

structure Tracks (domain : List Expression) (input : BitVector) (scan : AvailableScan)
    (vector : BitVector) : Prop where
  genSize : scan.genSet.size = domain.length
  killSize : scan.killSet.size = domain.length
  vector_eq : vector = BitVector.genKill scan.killSet scan.genSet input

variable {input vector : BitVector} {scan : AvailableScan}

theorem Tracks.size (tracks : Tracks domain input scan vector) : vector.size = domain.length := by
  rw [tracks.vector_eq, BitVector.size_genKill, tracks.genSize, tracks.killSize, max_self]

theorem Tracks.generate (nodup : domain.Nodup) (tracks : Tracks domain input scan vector)
    (inst : Inst) : ∃ next, generate domain (indexDomain domain) vector inst = some next ∧
      Tracks domain input (LlvmGather.generate domain (indexDomain domain) scan inst) next := by
  unfold AvailableExpressions.generate LlvmGather.generate
  cases Expression.ofInst inst with
  | none => exact ⟨vector, rfl, tracks⟩
  | some expr =>
      cases search : domain.find? (expr = ·) with
      | none => exact ⟨vector, by simp [search], by simpa [search] using tracks⟩
      | some found =>
          have member := List.mem_of_find?_eq_some search
          have small := List.idxOf_lt_length_of_mem member
          simp only [search, indexAt_of_mem nodup member]
          refine ⟨_, BitVector.setAt_of_lt (tracks.size ▸ small), ?_⟩
          refine ⟨by simpa using tracks.genSize, tracks.killSize, ?_⟩
          rw [tracks.vector_eq]
          exact (BitVector.genKill_set (tracks.genSize.trans tracks.killSize.symm) _ _).symm

theorem Tracks.killIfNamed (nodup : domain.Nodup) (tracks : Tracks domain input scan vector)
    (name : String) {expr : Expression} (member : expr ∈ domain) :
    ∃ next, killIfNamed F (indexDomain domain) name vector expr = some next ∧
      Tracks domain input (LlvmGather.killIfNamed F (indexDomain domain) name scan expr) next := by
  unfold AvailableExpressions.killIfNamed LlvmGather.killIfNamed
  split
  · have small := List.idxOf_lt_length_of_mem member
    simp only [lookup_indexDomain nodup, member, if_true]
    refine ⟨_, BitVector.resetAt_of_lt (tracks.size ▸ small), ?_⟩
    refine ⟨by simpa using tracks.genSize, by simpa using tracks.killSize, ?_⟩
    rw [tracks.vector_eq]
    exact (BitVector.genKill_reset _ _ _ _).symm
  · exact ⟨vector, rfl, tracks⟩

theorem Tracks.killNamed (nodup : domain.Nodup) (tracks : Tracks domain input scan vector)
    (name : String) {part : List Expression} (inside : ∀ expr ∈ part, expr ∈ domain) :
    ∃ next, part.foldlM (AvailableExpressions.killIfNamed F (indexDomain domain) name) vector = some next ∧
      Tracks domain input (LlvmGather.killNamed F (indexDomain domain) name part scan) next := by
  induction part generalizing scan vector with
  | nil => exact ⟨vector, rfl, tracks⟩
  | cons first rest ih =>
      obtain ⟨middle, kills, middleTracks⟩ :=
        tracks.killIfNamed (F := F) nodup name (inside first List.mem_cons_self)
      obtain ⟨final, rests, finalTracks⟩ := ih middleTracks
        fun expr later => inside expr (List.mem_cons_of_mem _ later)
      refine ⟨final, ?_, finalTracks⟩
      rw [List.foldlM_cons, kills]
      exact rests

theorem Tracks.updateInst (nodup : domain.Nodup) (tracks : Tracks domain input scan vector)
    (inst : Inst) : ∃ next, updateInst F domain (indexDomain domain) vector inst = some next ∧
      Tracks domain input (availableStep F domain (indexDomain domain) scan inst) next := by
  obtain ⟨generated, generates, generatedTracks⟩ := tracks.generate nodup inst
  unfold AvailableExpressions.updateInst availableStep
  simp only [generates, Option.bind_eq_bind, Option.bind_some]
  split
  · exact generatedTracks.killNamed nodup inst.name fun _ member => member
  · exact ⟨generated, rfl, generatedTracks⟩

theorem Tracks.walk (nodup : domain.Nodup) (tracks : Tracks domain input scan vector)
    (insts : List Inst) (out : List (PrintLine Expression)) :
    ∃ final lines, insts.foldlM (printInst F domain (indexDomain domain)) (vector, out) =
        some (final, lines) ∧
      Tracks domain input (insts.foldl (availableStep F domain (indexDomain domain)) scan) final := by
  induction insts generalizing scan vector out with
  | nil => exact ⟨vector, out, rfl, tracks⟩
  | cons inst rest ih =>
      obtain ⟨next, updates, nextTracks⟩ := tracks.updateInst (F := F) nodup inst
      have prints : ∃ lines, printInst F domain (indexDomain domain) (vector, out) inst =
          some (next, lines) := by
        simp only [printInst, updates, Option.bind_eq_bind, Option.bind_some,
          printSet_of_size nodup nextTracks.size]
        split
        · exact ⟨_, rfl⟩
        · exact ⟨_, rfl⟩
      obtain ⟨lines, prints⟩ := prints
      obtain ⟨final, finalLines, rests, finalTracks⟩ := ih nextTracks lines
      refine ⟨final, finalLines, ?_, finalTracks⟩
      rw [List.foldlM_cons, prints]
      exact rests

theorem printBlock_eq (F : Func) (block : Nat) {input : BitVector}
    (size : input.size = (availableDomain F).length) :
    ∃ lines, printBlock F (availableDomain F) input block =
      some ((availableAnalysis.transfer F (availableDomain F) block input).element, lines) := by
  have nodup := nodup_availableDomain F
  have initial : Tracks (availableDomain F) input
      ⟨BitVector.ofSize (availableDomain F).length false,
        BitVector.ofSize (availableDomain F).length false⟩ input :=
    ⟨by simp, by simp, (BitVector.genKill_none size).symm⟩
  obtain ⟨final, lines, walks, tracks⟩ := initial.walk (F := F) nodup (F.insts block)
    [.ruler, .entrySet ((availableDomain F).filter fun expr =>
      input.test ((availableDomain F).idxOf expr))]
  have result := tracks.vector_eq
  rw [← length_indexDomain nodup] at result
  refine ⟨lines ++ [.ruler], ?_⟩
  simp only [printBlock, printSet_of_size nodup size, Option.bind_eq_bind, Option.bind_some, walks]
  rw [result]
  rfl

theorem printBlock_narrow {block : Nat} {input : BitVector} (narrow : input.size < domain.length) :
    printBlock F domain input block = none := by
  simp [printBlock, printSet_narrow narrow]

end AvailableExpressions

section Widths

variable {F : Func} {fuel block : Nat} {live : DataFlowResult Value}
  {available : DataFlowResult Expression}

theorem size_live_iff (valid : ValidCfg F) (solved : runLiveness fuel F = some live)
    (inside : block < F.blocks.length) :
    ((live.result block).outVec.size = (livenessDomain F).length ↔
      livenessDomain F = [] ∨
      (∃ last, F.getTerminator block = some last ∧ last.isReturn = true) ∨
      F.Reachable block ∧ F.succs block ≠ []) ∧
    (live.result block).outVec.size ≤ (livenessDomain F).length := by
  obtain ⟨converged, -⟩ := DataFlow.run_eq_some solved
  have boundary : block ∈ livenessAnalysis.boundaryBlocks F ↔
      ∃ last, F.getTerminator block = some last ∧ last.isReturn = true := by
    cases last : F.getTerminator block <;>
      simp [DataFlow.boundaryBlocks, livenessAnalysis, Func.blockIds, inside, last]
  rw [← boundary]
  exact DataFlow.size_input_iff valid (liveness_lawful F) rfl converged inside

theorem size_available_iff (valid : ValidCfg F) (solved : runAvailable fuel F = some available)
    (inside : block < F.blocks.length) :
    ((available.result block).inVec.size = (availableDomain F).length ↔
      availableDomain F = [] ∨ F.Reachable block) ∧
    (available.result block).inVec.size ≤ (availableDomain F).length := by
  obtain ⟨converged, -⟩ := DataFlow.run_eq_some solved
  have covered : F.Reachable block ↔ block ∈ availableAnalysis.boundaryBlocks F ∨
      F.Reachable block ∧ availableAnalysis.blockNeighbors F block ≠ [] := by
    constructor
    · intro reachable
      by_cases isEntry : block = F.entry
      · exact Or.inl (List.mem_singleton.mpr isEntry)
      · exact Or.inr ⟨reachable, DataFlow.neighbors_ne_nil valid rfl reachable isEntry⟩
    · rintro (boundary | ⟨reachable, -⟩)
      · exact List.mem_singleton.mp boundary ▸ F.entry_reachable
      · exact reachable
  rw [covered]
  exact DataFlow.size_input_iff valid (available_lawful F) rfl converged inside

end Widths

end LlvmGather
