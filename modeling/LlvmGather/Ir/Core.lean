import LlvmGather.Library.PostOrder

/-!
The part of the LLVM intermediate representation that the passes read: values,
instructions with the answers LLVM gives to the queries made about them, basic
blocks and functions. Blocks are numbered in layout order and the entry is block 0.
-/

namespace LlvmGather

/-- A `Value*`: an instruction, an argument of the function, or a uniqued constant. -/
inductive Value
  | inst (id : Nat)
  | arg (index : Nat)
  | const (id : Nat)
deriving DecidableEq, Repr

inductive BinaryOps
  | Add | FAdd | Sub | FSub | Mul | FMul | UDiv | SDiv | FDiv | URem | SRem | FRem
  | Shl | LShr | AShr | And | Or | Xor
deriving DecidableEq, Repr

inductive Shape
  | phi (incoming : List (Value × Nat))
  | binary (op : BinaryOps) (lhs rhs : Value)
  | terminator (isReturn : Bool) (targets : List Nat) (args : List Value)
  | other (args : List Value)
deriving DecidableEq, Repr

/-- An instruction. The Boolean fields are LLVM's answers about this instruction;
`id` stands for its address and `name` is empty for an unnamed value. -/
structure Inst where
  id : Nat
  name : String
  shape : Shape
  isDbgInfo : Bool := false
  isLandingPad : Bool := false
  mayHaveSideEffects : Bool := false
  isSafeToSpeculativelyExecute : Bool := false
  mayReadFromMemory : Bool := false
deriving DecidableEq, Repr

def Inst.operands (inst : Inst) : List Value :=
  match inst.shape with
  | .phi incoming => incoming.map Prod.fst
  | .binary _ lhs rhs => [lhs, rhs]
  | .terminator _ _ args => args
  | .other args => args

def Inst.isPhi (inst : Inst) : Bool :=
  match inst.shape with
  | .phi _ => true
  | _ => false

def Inst.incoming (inst : Inst) : List (Value × Nat) :=
  match inst.shape with
  | .phi incoming => incoming
  | _ => []

def Inst.isTerminator (inst : Inst) : Bool :=
  match inst.shape with
  | .terminator _ _ _ => true
  | _ => false

def Inst.isReturn (inst : Inst) : Bool :=
  match inst.shape with
  | .terminator isReturn _ _ => isReturn
  | _ => false

def Inst.targets (inst : Inst) : List Nat :=
  match inst.shape with
  | .terminator _ targets _ => targets
  | _ => []

structure BasicBlock where
  insts : List Inst
deriving DecidableEq, Repr

structure Func where
  argNames : List String
  blocks : List BasicBlock
deriving DecidableEq, Repr

def Func.insts (F : Func) (block : Nat) : List Inst :=
  match F.blocks[block]? with
  | some body => body.insts
  | none => []

def Func.blockIds (F : Func) : List Nat := List.range F.blocks.length

def Func.allInsts (F : Func) : List Inst := F.blocks.flatMap BasicBlock.insts

def Func.getTerminator (F : Func) (block : Nat) : Option Inst := (F.insts block).getLast?

def Func.succs (F : Func) (block : Nat) : List Nat :=
  match F.getTerminator block with
  | some inst => inst.targets
  | none => []

def Func.preds (F : Func) (block : Nat) : List Nat :=
  F.blockIds.flatMap fun source => List.replicate ((F.succs source).count block) source

def Func.entry (_ : Func) : Nat := 0

def Func.postOrder (F : Func) : List Nat := FlowGraph.postOrder F.succs F.blockIds F.entry

def Func.getName (F : Func) (value : Value) : String :=
  match value with
  | .inst id =>
      match F.allInsts.find? (·.id = id) with
      | some inst => inst.name
      | none => ""
  | .arg index => F.argNames.getD index ""
  | .const _ => ""

def Func.Reachable (F : Func) (block : Nat) : Prop :=
  FlowGraph.Reachable F.succs F.entry block

def Func.Dominates (F : Func) (dominator block : Nat) : Prop :=
  FlowGraph.Dominates F.succs F.entry dominator block

def Func.StrictlyDominates (F : Func) (dominator block : Nat) : Prop :=
  FlowGraph.StrictlyDominates F.succs F.entry dominator block

def Func.Defines (F : Func) (block : Nat) (id : Nat) : Prop :=
  ∃ inst ∈ F.insts block, inst.id = id

/-- What the LLVM verifier guarantees of every control flow graph. -/
structure ValidCfg (F : Func) : Prop where
  nonempty : F.blocks ≠ []
  targetsInside : ∀ block, ∀ target ∈ F.succs block, target < F.blocks.length
  entryWithoutPreds : ∀ block, F.entry ∉ F.succs block

structure Tidy (F : Func) : Prop where
  terminated : ∀ block < F.blocks.length, ∃ body last, F.insts block = body ++ [last] ∧
    last.isTerminator = true ∧ ∀ inst ∈ body, inst.isTerminator = false
  idsUnique : (F.allInsts.map Inst.id).Nodup
  operandsDefined : ∀ inst ∈ F.allInsts, ∀ id, Value.inst id ∈ inst.operands →
    ∃ definition ∈ F.allInsts, definition.id = id

/-- What the LLVM verifier guarantees of every function, reachable or not. Of the
terminators only `invoke` has a result, and its two destinations differ. -/
structure Verified (F : Func) : Prop extends ValidCfg F, Tidy F where
  phisFirst : ∀ block, ∃ phis rest, F.insts block = phis ++ rest ∧
    (∀ inst ∈ phis, inst.isPhi = true) ∧ ∀ inst ∈ rest, inst.isPhi = false
  phiIncoming : ∀ block, ∀ inst ∈ F.insts block, inst.isPhi = true →
    ∀ source, (∃ value, (value, source) ∈ inst.incoming) ↔ block ∈ F.succs source
  voidTerminators : ∀ last ∈ F.allInsts, last.isTerminator = true →
    ∀ target, (∀ other ∈ last.targets, other = target) →
      ∀ user ∈ F.allInsts, Value.inst last.id ∉ user.operands
  namesUnique : ∀ first ∈ F.allInsts, first.name ≠ "" →
    (∀ second ∈ F.allInsts, second.name = first.name → second.id = first.id) ∧
    first.name ∉ F.argNames

/-- Strict SSA form: in reachable code every definition dominates its uses, where an
operand of a phi is used at the end of its incoming block. -/
structure StrictSSA (F : Func) : Prop extends Verified F where
  usesDominated : ∀ block before inst after, F.Reachable block →
    F.insts block = before ++ inst :: after → inst.isPhi = false →
    ∀ id, Value.inst id ∈ inst.operands →
      (∃ definition ∈ before, definition.id = id) ∨
      ∃ source, F.StrictlyDominates source block ∧ F.Defines source id
  phisDominated : ∀ block, F.Reachable block → ∀ inst ∈ F.insts block,
    ∀ id source, (Value.inst id, source) ∈ inst.incoming → F.Reachable source →
      ∃ origin, F.Dominates origin source ∧ F.Defines origin id

theorem Inst.mem_operands_of_mem_incoming {inst : Inst} {value : Value} {source : Nat}
    (entry : (value, source) ∈ inst.incoming) : value ∈ inst.operands := by
  unfold Inst.incoming at entry
  unfold Inst.operands
  split at entry
  · rename_i incoming shape
    rw [shape]
    exact List.mem_map.mpr ⟨(value, source), entry, rfl⟩
  · simp at entry

theorem Inst.exists_incoming_of_isPhi {inst : Inst} (phi : inst.isPhi = true) {value : Value}
    (operand : value ∈ inst.operands) : ∃ source, (value, source) ∈ inst.incoming := by
  unfold Inst.operands at operand
  unfold Inst.incoming
  split at operand
  · rename_i incoming shape
    rw [shape]
    obtain ⟨⟨first, source⟩, member, rfl⟩ := List.mem_map.mp operand
    exact ⟨source, member⟩
  all_goals simp_all [Inst.isPhi]

theorem Inst.incoming_of_not_isPhi {inst : Inst} (notPhi : inst.isPhi = false) : inst.incoming = [] := by
  cases shape : inst.shape <;> simp_all [Inst.isPhi, Inst.incoming]

theorem Func.mem_preds (F : Func) (block source : Nat) :
    source ∈ F.preds block ↔ source < F.blocks.length ∧ block ∈ F.succs source := by
  simp only [Func.preds, Func.blockIds, List.mem_flatMap, List.mem_range, List.mem_replicate]
  constructor
  · rintro ⟨candidate, bound, edges, same⟩
    subst same
    exact ⟨bound, List.count_pos_iff.mp (Nat.pos_of_ne_zero edges)⟩
  · rintro ⟨bound, edge⟩
    exact ⟨source, bound, (List.count_pos_iff.mpr edge).ne', rfl⟩

theorem Func.insts_of_length_le (F : Func) {block : Nat} (beyond : F.blocks.length ≤ block) :
    F.insts block = [] := by
  simp [Func.insts, List.getElem?_eq_none beyond]

theorem Func.lt_length_of_mem_insts (F : Func) {block : Nat} {inst : Inst}
    (member : inst ∈ F.insts block) : block < F.blocks.length := by
  by_contra beyond
  rw [F.insts_of_length_le (by omega)] at member
  simp at member

theorem Func.succs_of_length_le (F : Func) {block : Nat} (beyond : F.blocks.length ≤ block) :
    F.succs block = [] := by
  simp [Func.succs, Func.getTerminator, F.insts_of_length_le beyond]

theorem Func.lt_length_of_mem_succs (F : Func) {block target : Nat}
    (edge : target ∈ F.succs block) : block < F.blocks.length := by
  by_contra beyond
  rw [F.succs_of_length_le (by omega)] at edge
  simp at edge

theorem Func.mem_allInsts (F : Func) (inst : Inst) :
    inst ∈ F.allInsts ↔ ∃ block, inst ∈ F.insts block := by
  simp only [Func.allInsts, List.mem_flatMap]
  constructor
  · rintro ⟨body, member, inside⟩
    obtain ⟨block, bound, found⟩ := List.getElem_of_mem member
    refine ⟨block, ?_⟩
    simpa [Func.insts, List.getElem?_eq_getElem bound, found] using inside
  · rintro ⟨block, member⟩
    have bound := F.lt_length_of_mem_insts member
    refine ⟨F.blocks[block], List.getElem_mem bound, ?_⟩
    simpa [Func.insts, List.getElem?_eq_getElem bound] using member

theorem ValidCfg.reachable_lt {F : Func} (valid : ValidCfg F) {block : Nat}
    (reachable : F.Reachable block) : block < F.blocks.length := by
  cases reachable with
  | refl => exact List.length_pos_of_ne_nil valid.nonempty
  | tail _ edge => exact valid.targetsInside _ _ edge

theorem ValidCfg.isPostOrder {F : Func} (valid : ValidCfg F) :
    FlowGraph.IsPostOrder F.succs F.entry F.postOrder := by
  apply FlowGraph.isPostOrder_postOrder
  · exact List.nodup_range
  · intro block reachable
    exact List.mem_range.mpr (valid.reachable_lt reachable)

theorem ValidCfg.preds_entry {F : Func} (valid : ValidCfg F) : F.preds F.entry = [] := by
  apply List.eq_nil_iff_forall_not_mem.mpr
  intro source member
  exact valid.entryWithoutPreds source ((F.mem_preds _ _).mp member).2

theorem Func.entry_reachable (F : Func) : F.Reachable F.entry := Relation.ReflTransGen.refl

end LlvmGather
