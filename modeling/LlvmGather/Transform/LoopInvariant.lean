import LlvmGather.Ir.Edit
import LlvmGather.Library.NaturalLoop
import LlvmGather.Transform.DominatorTree

/-!
The pass of `LoopInvariantCodeMotion.cpp`: the dominator tree of a loop is traversed once
to collect its invariant instructions, which are then moved to the preheader in the order
in which they were found.
-/

namespace LlvmGather

/-- A loop as `LoopInfo` describes it. The header comes first in `getBlocks`, and
`isInnermost` tells which blocks have this loop as their innermost one. -/
structure Loop where
  header : Nat
  rest : List Nat
  getLoopPreheader : Option Nat
  isInnermost : Nat → Bool

def Loop.getBlocks (L : Loop) : List Nat := L.header :: L.rest

def Loop.contains (L : Loop) (F : Func) (id : Nat) : Bool :=
  L.getBlocks.any fun block => (F.insts block).any (·.id = id)

/-- The three conditions on an instruction by itself. -/
def Inst.isHoistable (inst : Inst) : Bool :=
  inst.isSafeToSpeculativelyExecute && !inst.mayReadFromMemory && !inst.isLandingPad

namespace LICM

variable (F : Func) (L : Loop)

def isInvariant (invStmts : List Inst) (inst : Inst) : Bool :=
  inst.isHoistable && inst.operands.all fun op =>
    match op with
    | .inst id => !(L.contains F id && !invStmts.any (·.id = id))
    | _ => true

def scanBlock (invStmts : List Inst) (block : Nat) : List Inst :=
  (F.insts block).foldl
    (fun invStmts inst => if isInvariant F L invStmts inst then invStmts ++ [inst] else invStmts)
    invStmts

/-- The stack of tree nodes, top first. The inner `none` is the early return at a block
of a subloop. -/
def traverse (tree : DomTree) : Nat → List Nat → List Inst → Option (Option (List Inst))
  | 0, _, _ => none
  | _ + 1, [], invStmts => some (some invStmts)
  | fuel + 1, block :: worklist, invStmts =>
      if L.isInnermost block then
        traverse tree fuel ((tree.node (some block)).children.reverse ++ worklist)
          (scanBlock F L invStmts block)
      else some none

/-- `none` when the pass does not return: an assertion fails, a null pointer is read, or
the fuel for a loop runs out. -/
def runOnLoop (fuel : Nat) : Option (Func × Bool) :=
  match L.getLoopPreheader with
  | none => some (F, false)
  | some preheader => do
      let dominanceResult ← computeDom fuel F
      let idom ← computeIdom dominanceResult
      printIdom idom L.getBlocks
      let tree := getDominanceTree idom L.header L.rest
      match ← traverse F L tree fuel [tree.root] [] with
      | none => some (F, false)
      | some invStmts =>
          some (invStmts.foldl (fun F inst => F.moveBefore inst preheader) F, !invStmts.isEmpty)

end LICM

/-- What `LoopInfo` and `getLoopPreheader` guarantee. -/
structure Loop.Natural (L : Loop) (F : Func) : Prop where
  nodup : L.getBlocks.Nodup
  natural : FlowGraph.NaturalLoop F.succs F.entry L.getBlocks L.header
  preheader : ∀ preheader, L.getLoopPreheader = some preheader →
    FlowGraph.Preheader F.succs L.getBlocks L.header preheader

theorem Loop.contains_iff (L : Loop) (F : Func) (id : Nat) :
    L.contains F id = true ↔ ∃ block ∈ L.getBlocks, F.Defines block id := by
  simp [Loop.contains, Func.Defines]

structure Ready (F : Func) (L : Loop) (invStmts : List Inst) : Prop where
  distinct : (invStmts.map Inst.id).Nodup
  hoistable : ∀ inst ∈ invStmts, inst.isHoistable = true
  inside : ∀ inst ∈ invStmts, ∃ block ∈ L.getBlocks, inst ∈ F.insts block
  operands : ∀ before inst after, invStmts = before ++ inst :: after →
    ∀ id, Value.inst id ∈ inst.operands → L.contains F id = true → ∃ other ∈ before, other.id = id

variable {F : Func} {L : Loop}

theorem Ready.nil : Ready F L [] := ⟨by simp, by simp, by simp, by simp⟩

theorem Ready.snoc {invStmts : List Inst} (ready : Ready F L invStmts) {inst : Inst} {block : Nat}
    (invariant : LICM.isInvariant F L invStmts inst = true) (inLoop : block ∈ L.getBlocks)
    (member : inst ∈ F.insts block) (fresh : ∀ other ∈ invStmts, other.id ≠ inst.id) :
    Ready F L (invStmts ++ [inst]) := by
  simp only [LICM.isInvariant, Bool.and_eq_true, List.all_eq_true] at invariant
  obtain ⟨hoistable, operands⟩ := invariant
  refine ⟨?_, ?_, ?_, ?_⟩
  · rw [List.map_append, List.map_singleton]
    refine ready.distinct.append (List.nodup_singleton _) ?_
    intro id old new
    obtain ⟨other, found, rfl⟩ := List.mem_map.mp old
    exact fresh other found (List.mem_singleton.mp new)
  · intro other found
    rcases List.mem_append.mp found with old | new
    · exact ready.hoistable other old
    · rwa [List.mem_singleton.mp new]
  · intro other found
    rcases List.mem_append.mp found with old | new
    · exact ready.inside other old
    · rw [List.mem_singleton.mp new]
      exact ⟨block, inLoop, member⟩
  · intro before other after split id operand contained
    rcases Scan.snoc_split split with ⟨rfl, rfl, _⟩ | ⟨rest, _, front⟩
    · have known := operands (.inst id) operand
      simpa [contained] using known
    · exact ready.operands before other rest front id operand contained

structure Scanned (F : Func) (L : Loop) (visited : List Nat) (invStmts : List Inst) : Prop where
  ready : Ready F L invStmts
  origin : ∀ inst ∈ invStmts, ∃ block ∈ visited, inst ∈ F.insts block

theorem Scanned.scanBlock (tidy : Tidy F) {visited : List Nat} {invStmts : List Inst}
    (scanned : Scanned F L visited invStmts) {block : Nat} (inLoop : block ∈ L.getBlocks)
    (unvisited : block ∉ visited) :
    Scanned F L (block :: visited) (LICM.scanBlock F L invStmts block) := by
  suffices Ready F L (LICM.scanBlock F L invStmts block) ∧
      ∀ inst ∈ LICM.scanBlock F L invStmts block,
        (∃ other ∈ visited, inst ∈ F.insts other) ∨ inst ∈ F.insts block by
    refine ⟨this.1, ?_⟩
    intro inst found
    rcases this.2 inst found with ⟨other, member, inOther⟩ | here
    · exact ⟨other, List.mem_cons_of_mem _ member, inOther⟩
    · exact ⟨block, List.mem_cons_self, here⟩
  apply Scan.foldl_rule (P := fun done (current : List Inst) => Ready F L current ∧
    ∀ inst ∈ current, (∃ other ∈ visited, inst ∈ F.insts other) ∨ inst ∈ done) (F.insts block)
  · exact ⟨scanned.ready, fun inst found => Or.inl (scanned.origin inst found)⟩
  · rintro done inst after current split ⟨ready, origins⟩
    have member : inst ∈ F.insts block := by simp [split]
    split
    · rename_i invariant
      constructor
      · apply ready.snoc invariant inLoop member
        intro other found same
        rcases origins other found with ⟨elsewhere, seen, inElsewhere⟩ | earlier
        · exact unvisited (tidy.block_unique inElsewhere member same ▸ seen)
        · have nodup := tidy.nodup_insts block
          rw [split, List.map_append, List.map_cons] at nodup
          exact (List.nodup_append.mp nodup).2.2 other.id (List.mem_map_of_mem earlier) inst.id
            List.mem_cons_self same
      · intro other found
        rcases List.mem_append.mp found with old | new
        · exact (origins other old).imp_right (List.mem_append_left _)
        · exact Or.inr (List.mem_append_right _ new)
    · exact ⟨ready, fun other found => (origins other found).imp_right (List.mem_append_left _)⟩

structure Frontier (L : Loop) (idom : AList fun _ : Nat => Nat) (worklist visited : List Nat) :
    Prop where
  nodup : (worklist ++ visited).Nodup
  inside : ∀ block ∈ worklist ++ visited, block ∈ L.getBlocks
  parents : ∀ block ∈ worklist ++ visited, block = L.header ∨
    ∃ parent ∈ visited, idom.lookup block = some parent

theorem Frontier.initial (idom : AList fun _ : Nat => Nat) : Frontier L idom [L.header] [] :=
  ⟨by simp, by simp [Loop.getBlocks], by simp⟩

theorem Frontier.visit {idom : AList fun _ : Nat => Nat} {worklist visited : List Nat}
    {block : Nat} (nodup : L.getBlocks.Nodup) (frontier : Frontier L idom (block :: worklist) visited) :
    Frontier L idom
      (((getDominanceTree idom L.header L.rest).node (some block)).children.reverse ++ worklist)
      (block :: visited) := by
  have children : ((getDominanceTree idom L.header L.rest).node (some block)).children =
      L.rest.filter (idom.lookup · = some block) := by
    simp [children_getDominanceTree]
  obtain ⟨headerOnce, restNodup⟩ := List.nodup_cons.mp nodup
  have moved : List.Perm (block :: worklist ++ visited) (worklist ++ block :: visited) := by
    rw [List.cons_append]
    exact List.perm_middle.symm
  have oldNodup := moved.nodup_iff.mp frontier.nodup
  have unvisited : block ∉ visited := by
    have split := frontier.nodup
    rw [List.cons_append] at split
    exact fun found => (List.nodup_cons.mp split).1 (List.mem_append_right _ found)
  rw [children]
  refine ⟨?_, ?_, ?_⟩
  · rw [List.append_assoc]
    refine List.Nodup.append (List.nodup_reverse.mpr (restNodup.filter _)) oldNodup ?_
    intro child isChild old
    simp only [List.mem_reverse, List.mem_filter, decide_eq_true_eq] at isChild
    rcases frontier.parents child (moved.mem_iff.mpr old) with rfl | ⟨parent, seen, known⟩
    · exact headerOnce isChild.1
    · rw [isChild.2, Option.some.injEq] at known
      exact unvisited (known ▸ seen)
  · intro other found
    rw [List.append_assoc] at found
    rcases List.mem_append.mp found with child | old
    · rw [List.mem_reverse] at child
      exact List.mem_cons_of_mem _ (List.mem_of_mem_filter child)
    · exact frontier.inside other (moved.mem_iff.mpr old)
  · intro other found
    rw [List.append_assoc] at found
    rcases List.mem_append.mp found with child | old
    · simp only [List.mem_reverse, List.mem_filter, decide_eq_true_eq] at child
      exact Or.inr ⟨block, List.mem_cons_self, child.2⟩
    · refine (frontier.parents other (moved.mem_iff.mpr old)).imp_right ?_
      rintro ⟨parent, seen, known⟩
      exact ⟨parent, List.mem_cons_of_mem _ seen, known⟩

theorem traverse_ready (tidy : Tidy F) (nodup : L.getBlocks.Nodup)
    {idom : AList fun _ : Nat => Nat} {fuel : Nat} {worklist visited : List Nat}
    {invStmts final : List Inst} (frontier : Frontier L idom worklist visited)
    (scanned : Scanned F L visited invStmts)
    (returns : LICM.traverse F L (getDominanceTree idom L.header L.rest) fuel worklist invStmts =
      some (some final)) : Ready F L final := by
  induction fuel generalizing worklist visited invStmts with
  | zero => simp [LICM.traverse] at returns
  | succ fuel ih =>
      cases worklist with
      | nil =>
          simp only [LICM.traverse, Option.some.injEq] at returns
          exact returns ▸ scanned.ready
      | cons block worklist =>
          simp only [LICM.traverse] at returns
          split at returns
          · have unvisited : block ∉ visited := by
              have split := frontier.nodup
              rw [List.cons_append] at split
              exact fun found => (List.nodup_cons.mp split).1 (List.mem_append_right _ found)
            have inLoop := frontier.inside block (by simp)
            exact ih (frontier.visit nodup) (scanned.scanBlock tidy inLoop unvisited) returns
          · simp at returns

theorem runOnLoop_cases (tidy : Tidy F) (natural : L.Natural F) {fuel : Nat} {G : Func}
    {modified : Bool} (returns : LICM.runOnLoop F L fuel = some (G, modified)) :
    (G = F ∧ modified = false) ∨
    ∃ preheader invStmts, L.getLoopPreheader = some preheader ∧ Ready F L invStmts ∧
      G = invStmts.foldl (fun F inst => F.moveBefore inst preheader) F ∧
      modified = !invStmts.isEmpty := by
  unfold LICM.runOnLoop at returns
  cases found : L.getLoopPreheader with
  | none =>
      simp only [found, Option.some.injEq, Prod.mk.injEq] at returns
      exact Or.inl ⟨returns.1.symm, returns.2.symm⟩
  | some preheader =>
      simp only [found, Option.bind_eq_bind, Option.bind_eq_some_iff] at returns
      obtain ⟨dominanceResult, _, idom, _, _, _, traversed, traversal, result⟩ := returns
      cases traversed with
      | none =>
          simp only [Option.some.injEq, Prod.mk.injEq] at result
          exact Or.inl ⟨result.1.symm, result.2.symm⟩
      | some invStmts =>
          simp only [Option.some.injEq, Prod.mk.injEq] at result
          rw [root_getDominanceTree] at traversal
          have ready := traverse_ready tidy natural.nodup (Frontier.initial idom)
            ⟨Ready.nil, by simp⟩ traversal
          exact Or.inr ⟨preheader, invStmts, rfl, ready, result.1.symm, result.2.symm⟩

end LlvmGather
