import LlvmGather.Ir.Core
import LlvmGather.Library.BitVector
import Mathlib.Data.List.AList

/-!
The iterative framework of `dataflow.cpp`. A `std::map` is an `AList`; the map from
blocks to their results, which is only read through `operator[]`, is a function that
gives a default-constructed result outside the function.
-/

namespace LlvmGather

structure TransferOutput where
  element : BitVector
  neighborVals : AList fun _ : Nat => BitVector

structure BlockResult where
  inVec : BitVector
  outVec : BitVector
  transferOutput : TransferOutput

def TransferOutput.empty : TransferOutput := ⟨BitVector.empty, ∅⟩

def BlockResult.empty : BlockResult := ⟨BitVector.empty, BitVector.empty, TransferOutput.empty⟩

inductive Direction
  | forward
  | backward
deriving DecidableEq, Repr

inductive MeetOp
  | union
  | intersection
deriving DecidableEq, Repr

structure DataFlowResult (D : Type) where
  result : Nat → BlockResult
  domainToIndex : AList fun _ : D => Nat
  modified : Bool

/-- An analysis. `initialisesBoth` tells the two copies of the framework apart: the
later one gives interior blocks an initial value on both sides, the earlier one only
on the side that the transfer function writes. -/
structure DataFlow (D : Type) where
  direction : Direction
  meetOp : MeetOp
  initialisesBoth : Bool
  transferFn : Func → BitVector → List D → (AList fun _ : D => Nat) → Nat → TransferOutput

def applyMeetOp (meetOp : MeetOp) (inputs : List BitVector) : BitVector :=
  match inputs with
  | [] => BitVector.empty
  | first :: rest =>
      rest.foldl
        (fun result input =>
          match meetOp with
          | .union => result.or input
          | .intersection => result.and input)
        first

def indexDomain {D : Type} [DecidableEq D] (domain : List D) : AList fun _ : D => Nat :=
  domain.zipIdx.foldl (fun index entry => index.insert entry.1 entry.2) ∅

/-- `domainToIndex[value]`, where a missing key reads as the default index. -/
def indexAt {D : Type} [DecidableEq D] (domainToIndex : AList fun _ : D => Nat) (value : D) : Nat :=
  (domainToIndex.lookup value).getD 0

def BlockResult.ofSides (direction : Direction) (input output : BitVector)
    (transferOutput : TransferOutput) : BlockResult :=
  match direction with
  | .forward => ⟨input, output, transferOutput⟩
  | .backward => ⟨output, input, transferOutput⟩

def TransferOutput.valueFor (transferOutput : TransferOutput) (block : Nat) : BitVector :=
  match transferOutput.neighborVals.lookup block with
  | some extra => transferOutput.element.or extra
  | none => transferOutput.element

namespace DataFlow

variable {D : Type} (analysis : DataFlow D)

def input (blockRes : BlockResult) : BitVector :=
  match analysis.direction with
  | .forward => blockRes.inVec
  | .backward => blockRes.outVec

def output (blockRes : BlockResult) : BitVector :=
  match analysis.direction with
  | .forward => blockRes.outVec
  | .backward => blockRes.inVec

def boundaryBlocks (F : Func) : List Nat :=
  match analysis.direction with
  | .forward => [F.entry]
  | .backward => F.blockIds.filter fun block =>
      match F.getTerminator block with
      | some last => last.isReturn
      | none => false

def boundaryRes (boundaryCond : BitVector) : BlockResult :=
  BlockResult.ofSides analysis.direction boundaryCond BitVector.empty ⟨boundaryCond, ∅⟩

def interiorRes (initCond : BitVector) : BlockResult :=
  let other := if analysis.initialisesBoth then initCond else BitVector.empty
  BlockResult.ofSides analysis.direction other initCond ⟨initCond, ∅⟩

def initialResult (F : Func) (boundaryCond initCond : BitVector) (block : Nat) : BlockResult :=
  if block ∈ analysis.boundaryBlocks F then analysis.boundaryRes boundaryCond
  else if block < F.blocks.length then analysis.interiorRes initCond
  else BlockResult.empty

def blockNeighbors (F : Func) (block : Nat) : List Nat :=
  match analysis.direction with
  | .forward => F.preds block
  | .backward => F.succs block

def traversalOrder (F : Func) : List Nat :=
  match analysis.direction with
  | .forward => F.postOrder.reverse
  | .backward => F.postOrder

def meetInputs (F : Func) (result : Nat → BlockResult) (block : Nat) : List BitVector :=
  (analysis.blockNeighbors F block).map fun neighbor =>
    (result neighbor).transferOutput.valueFor block

def blockInput (F : Func) (result : Nat → BlockResult) (block : Nat) : BitVector :=
  match analysis.meetInputs F result block with
  | [] => analysis.input (result block)
  | inputs => applyMeetOp analysis.meetOp inputs

variable [DecidableEq D]

def transfer (F : Func) (domain : List D) (block : Nat) (vector : BitVector) : TransferOutput :=
  analysis.transferFn F vector domain (indexDomain domain) block

def processBlock (F : Func) (domain : List D) (result : Nat → BlockResult) (block : Nat) :
    BlockResult :=
  let blockInput := analysis.blockInput F result block
  let transferOutput := analysis.transfer F domain block blockInput
  BlockResult.ofSides analysis.direction blockInput transferOutput.element transferOutput

/-- The test that keeps the loop going: a different output vector, or a different
number of neighbor values. -/
def changed (old new : BlockResult) : Bool :=
  !(analysis.output new).same (analysis.output old) ||
    decide (new.transferOutput.neighborVals.entries.length ≠
      old.transferOutput.neighborVals.entries.length)

def visit (F : Func) (domain : List D) (state : (Nat → BlockResult) × Bool) (block : Nat) :
    (Nat → BlockResult) × Bool :=
  let old := state.1 block
  let new := analysis.processBlock F domain state.1 block
  (Function.update state.1 block new, state.2 && !analysis.changed old new)

def sweep (F : Func) (domain : List D) (result : Nat → BlockResult) :
    (Nat → BlockResult) × Bool :=
  (analysis.traversalOrder F).foldl (analysis.visit F domain) (result, true)

/-- The convergence loop; `none` when the fuel runs out before a sweep changes nothing. -/
def converge (F : Func) (domain : List D) : Nat → (Nat → BlockResult) → Option (Nat → BlockResult)
  | 0, _ => none
  | fuel + 1, result =>
      let swept := analysis.sweep F domain result
      if swept.2 then some swept.1 else converge F domain fuel swept.1

def run (fuel : Nat) (F : Func) (domain : List D) (boundaryCond initCond : BitVector) :
    Option (DataFlowResult D) :=
  (analysis.converge F domain fuel (analysis.initialResult F boundaryCond initCond)).map
    fun result => { result, domainToIndex := indexDomain domain, modified := false }

end DataFlow

end LlvmGather
