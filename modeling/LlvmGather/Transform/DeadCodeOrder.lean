import LlvmGather.Transform.DeadCode

/-!
What dead code elimination leaves behind. Each dead instruction is tried once, in the order
in which the blocks are visited. Its users have been tried before, unless one of them is a
phi.
-/

namespace LlvmGather

namespace DCE

def visitOrder (F : Func) : List Inst := F.postOrder.flatMap fun block => (F.insts block).reverse

def Uses (user inst : Inst) : Prop := Value.inst inst.id ∈ user.operands

end DCE

section Sweep

variable {F G : Func}

theorem mem_eraseUnused (G : Func) (inst other : Inst) :
    other ∈ (DCE.eraseUnused G inst).allInsts ↔ other ∈ G.allInsts ∧
      ¬ (other.id = inst.id ∧ ∀ user, user ∈ G.allInsts → ¬ DCE.Uses user inst) := by
  have unused := G.useEmpty_iff inst.id
  unfold DCE.eraseUnused
  split
  · next empty =>
      have none : ∀ user ∈ G.allInsts, ¬ DCE.Uses user inst := unused.mp empty
      rw [G.mem_allInsts_eraseFromParent, and_iff_left none]
  · next used =>
      have some : ¬ ∀ user ∈ G.allInsts, ¬ DCE.Uses user inst := mt unused.mpr used
      simp [some]

theorem mem_eraseAll {tried : List Inst}
    (unique : ∀ other ∈ G.allInsts, ∀ inst ∈ tried, other.id = inst.id → other = inst)
    (other : Inst) : other ∈ (tried.foldl DCE.eraseUnused G).allInsts ↔
      Scan.sweep DCE.Uses (· ∈ G.allInsts) tried other := by
  induction tried generalizing G with
  | nil => rfl
  | cons inst rest ih =>
      have same : (· ∈ (DCE.eraseUnused G inst).allInsts) = fun other => other ∈ G.allInsts ∧
          ¬ (other = inst ∧ ∀ user, user ∈ G.allInsts → ¬ DCE.Uses user inst) := by
        funext other
        rw [mem_eraseUnused, eq_iff_iff]
        refine and_congr_right fun member => not_congr (and_congr_left fun _ => ?_)
        exact ⟨unique other member inst List.mem_cons_self, congrArg Inst.id⟩
      rw [List.foldl_cons, Scan.sweep, ih, same]
      intro other left inst' member
      exact unique other ((mem_eraseUnused G inst other).mp left).1 inst'
        (List.mem_cons_of_mem _ member)

theorem insts_eraseAll {tried : List Inst} {block : Nat}
    (elsewhere : ∀ other ∈ G.insts block, ∀ inst ∈ tried, other.id ≠ inst.id) :
    (tried.foldl DCE.eraseUnused G).insts block = G.insts block := by
  induction tried generalizing G with
  | nil => rfl
  | cons inst rest ih =>
      have kept : (DCE.eraseUnused G inst).insts block = G.insts block := by
        unfold DCE.eraseUnused
        split
        · rw [G.insts_eraseFromParent]
          refine List.filter_eq_self.mpr fun other member => ?_
          simpa using elsewhere other member inst List.mem_cons_self
        · rfl
      rw [List.foldl_cons, ih, kept]
      intro other member inst' later
      rw [kept] at member
      exact elsewhere other member inst' (List.mem_cons_of_mem _ later)

theorem visitBlocks_eq (tidy : Tidy F) (domain : List Value) (output : DataFlowResult Value)
    {blocks : List Nat} (nodup : blocks.Nodup) (state : Func × Bool)
    (whole : ∀ block ∈ blocks, state.1.insts block = F.insts block) :
    (blocks.foldl (DCE.visitBlock domain output) state).1 =
      (blocks.flatMap (DCE.deleteSet domain output F)).foldl DCE.eraseUnused state.1 := by
  induction blocks generalizing state with
  | nil => rfl
  | cons block rest ih =>
      obtain ⟨fresh, restNodup⟩ := List.nodup_cons.mp nodup
      have here : DCE.deleteSet domain output state.1 block = DCE.deleteSet domain output F block := by
        rw [DCE.deleteSet, whole block List.mem_cons_self, DCE.deleteSet]
      rw [List.foldl_cons, ih restNodup, List.flatMap_cons, List.foldl_append, DCE.visitBlock, here]
      intro other later
      rw [DCE.visitBlock, here, insts_eraseAll, whole other (List.mem_cons_of_mem _ later)]
      rw [whole other (List.mem_cons_of_mem _ later)]
      intro inst member tried inTried same
      have inBlock : tried ∈ F.insts block := List.mem_reverse.mp (List.mem_of_mem_filter inTried)
      exact fresh (tidy.block_unique inBlock member same.symm ▸ later)

end Sweep

section Order

variable {F : Func}

theorem mem_visitOrder (valid : ValidCfg F)
    (allReachable : ∀ block < F.blocks.length, F.Reachable block) (inst : Inst) :
    inst ∈ DCE.visitOrder F ↔ inst ∈ F.allInsts := by
  simp only [DCE.visitOrder, List.mem_flatMap, List.mem_reverse, F.mem_allInsts,
    valid.isPostOrder.mem_iff]
  constructor
  · rintro ⟨block, -, member⟩
    exact ⟨block, member⟩
  · rintro ⟨block, member⟩
    exact ⟨block, allReachable block (F.lt_length_of_mem_insts member), member⟩

theorem nodup_visitOrder (valid : ValidCfg F) (tidy : Tidy F) : (DCE.visitOrder F).Nodup := by
  refine List.nodup_flatMap.mpr ⟨fun block _ => ?_, ?_⟩
  · exact List.nodup_reverse.mpr (List.Nodup.of_map _ (tidy.nodup_insts block))
  · refine valid.isPostOrder.nodup.imp fun apart inst first second => apart ?_
    exact tidy.block_unique (List.mem_reverse.mp first) (List.mem_reverse.mp second) rfl

theorem plain_user_first (ssa : StrictSSA F)
    (allReachable : ∀ block < F.blocks.length, F.Reachable block) {user inst : Inst}
    (isUser : user ∈ F.allInsts) (member : inst ∈ F.allInsts) (plain : user.isPhi = false)
    (uses : DCE.Uses user inst) : List.Sublist [user, inst] (DCE.visitOrder F) := by
  obtain ⟨block, inBlock⟩ := (F.mem_allInsts user).mp isUser
  obtain ⟨home, inHome⟩ := (F.mem_allInsts inst).mp member
  have order := ssa.toValidCfg.isPostOrder
  have blockVisited := (order.mem_iff block).mpr
    (allReachable block (F.lt_length_of_mem_insts inBlock))
  have homeVisited := (order.mem_iff home).mpr (allReachable home (F.lt_length_of_mem_insts inHome))
  obtain ⟨before, after, split⟩ := List.append_of_mem inHome
  obtain ⟨front, back, blocks⟩ := List.append_of_mem blockVisited
  rw [DCE.visitOrder, blocks, List.flatMap_append, List.flatMap_cons]
  refine List.Sublist.trans ?_ (List.sublist_append_right _ _)
  rcases ssa.definition_before_use ((order.mem_iff home).mp homeVisited) split inBlock plain uses with
    ⟨rfl, later⟩ | strict
  · refine List.Sublist.trans ?_ (List.sublist_append_left _ _)
    rw [split, List.reverse_append, List.reverse_cons, List.append_assoc]
    exact (List.singleton_sublist.mpr (List.mem_reverse.mpr later)).append (by simp)
  · have notBefore := FlowGraph.dominator_not_before blocks strict
    have inBack : home ∈ back := by
      rw [blocks] at homeVisited
      simpa [notBefore, strict.1] using homeVisited
    exact (List.singleton_sublist.mpr (List.mem_reverse.mpr inBlock)).append
      (List.singleton_sublist.mpr (List.mem_flatMap.mpr ⟨home, inBack, List.mem_reverse.mpr inHome⟩))

end Order

section Complete

variable {F G : Func} {fuel : Nat} {modified : Bool}

open Classical in
noncomputable def deadInsts (F : Func) : List Inst :=
  (DCE.visitOrder F).filter fun inst => decide (¬ Needed F inst.id)

theorem deleteSet_eq (ssa : StrictSSA F)
    (allReachable : ∀ block < F.blocks.length, F.Reachable block)
    {output : DataFlowResult Value} (returns : runDce fuel F = some output) :
    F.postOrder.flatMap (DCE.deleteSet (dceDomain F) output F) = deadInsts F := by
  classical
  rw [deadInsts, DCE.visitOrder, List.filter_flatMap]
  congr 1
  funext block
  refine List.filter_congr fun inst reversed => ?_
  have member := List.mem_reverse.mp reversed
  have live := dce_in_iff ssa allReachable returns member
  have always : inst.isAlwaysLive = true → Needed F inst.id :=
    Needed.alwaysLive ((F.mem_allInsts inst).mpr ⟨block, member⟩)
  by_cases needed : Needed F inst.id
  · simp [live.mpr needed, needed]
  · have notAlways : inst.isAlwaysLive = false := by simpa using mt always needed
    have notLive := mt live.mp needed
    simp [notAlways, notLive, needed, inst_mem_dceDomain member]

theorem runOnFunction_sweeps (ssa : StrictSSA F)
    (allReachable : ∀ block < F.blocks.length, F.Reachable block)
    (returns : DCE.runOnFunction fuel F = some (G, modified)) (inst : Inst) :
    inst ∈ G.allInsts ↔ Scan.sweep DCE.Uses (· ∈ F.allInsts) (deadInsts F) inst := by
  obtain ⟨output, solved, visited⟩ := Option.map_eq_some_iff.mp returns
  have result : G = (deadInsts F).foldl DCE.eraseUnused F := by
    rw [← deleteSet_eq ssa allReachable solved]
    exact (congrArg Prod.fst visited).symm.trans (visitBlocks_eq ssa.toTidy (dceDomain F) output
      ssa.toValidCfg.isPostOrder.nodup (F, false) fun _ _ => rfl)
  rw [result]
  apply mem_eraseAll
  intro other member dead isDead same
  have inOrder := List.mem_of_mem_filter isDead
  exact ssa.inst_unique member ((mem_visitOrder ssa.toValidCfg allReachable dead).mp inOrder) same

theorem mem_deadInsts (valid : ValidCfg F)
    (allReachable : ∀ block < F.blocks.length, F.Reachable block) (inst : Inst) :
    inst ∈ deadInsts F ↔ inst ∈ F.allInsts ∧ ¬ Needed F inst.id := by
  simp [deadInsts, mem_visitOrder valid allReachable]

theorem pair_sublist_deadInsts {first second : Inst} (firstDead : ¬ Needed F first.id)
    (secondDead : ¬ Needed F second.id) :
    List.Sublist [first, second] (deadInsts F) ↔ List.Sublist [first, second] (DCE.visitOrder F) := by
  classical
  constructor
  · intro ordered
    exact ordered.trans List.filter_sublist
  · intro ordered
    have filtered := ordered.filter fun inst => decide (¬ Needed F inst.id)
    rwa [List.filter_cons_of_pos (by simpa using firstDead),
      List.filter_cons_of_pos (by simpa using secondDead), List.filter_nil] at filtered

theorem needed_runOnFunction (ssa : StrictSSA F)
    (allReachable : ∀ block < F.blocks.length, F.Reachable block)
    (returns : DCE.runOnFunction fuel F = some (G, modified)) (id : Nat) :
    Needed G id ↔ Needed F id := by
  have sweeps := runOnFunction_sweeps ssa allReachable returns
  have kept : ∀ inst ∈ F.allInsts, Needed F inst.id → inst ∈ G.allInsts := by
    intro inst member needed
    have untried : inst ∉ deadInsts F := fun tried =>
      ((mem_deadInsts ssa.toValidCfg allReachable inst).mp tried).2 needed
    exact (sweeps inst).mpr ((Scan.sweep_of_notMem untried).mpr member)
  constructor
  · intro needed
    induction needed with
    | alwaysLive member always =>
        exact .alwaysLive (Scan.present_of_sweep ((sweeps _).mp member)) always
    | operand member _ uses ih =>
        exact .operand (Scan.present_of_sweep ((sweeps _).mp member)) ih uses
  · intro needed
    induction needed with
    | alwaysLive member always => exact .alwaysLive (kept _ member (.alwaysLive member always)) always
    | operand member isNeeded uses ih => exact .operand (kept _ member isNeeded) ih uses

/-- Only strongly live instructions are left exactly if no dead phi has a dead operand that
is looked at before the phi. -/
theorem deadCode_complete_iff (ssa : StrictSSA F)
    (allReachable : ∀ block < F.blocks.length, F.Reachable block)
    (returns : DCE.runOnFunction fuel F = some (G, modified)) :
    (∀ inst ∈ G.allInsts, Needed G inst.id) ↔
      ∀ phi ∈ F.allInsts, phi.isPhi = true → ¬ Needed F phi.id →
        ∀ inst ∈ F.allInsts, ¬ Needed F inst.id → Value.inst inst.id ∈ phi.operands →
          List.Sublist [phi, inst] (DCE.visitOrder F) := by
  have valid := ssa.toValidCfg
  have sweeps := runOnFunction_sweeps ssa allReachable returns
  have dead := mem_deadInsts valid allReachable
  have nodup : (deadInsts F).Nodup := (nodup_visitOrder valid ssa.toTidy).filter _
  have removed : (∀ inst ∈ G.allInsts, Needed G inst.id) ↔
      ∀ inst ∈ deadInsts F, ¬ Scan.sweep DCE.Uses (· ∈ F.allInsts) (deadInsts F) inst := by
    simp only [needed_runOnFunction ssa allReachable returns, sweeps]
    constructor
    · intro all inst isDead left
      exact ((dead inst).mp isDead).2 (all inst left)
    · intro gone inst left
      by_contra notNeeded
      exact gone inst ((dead inst).mpr ⟨Scan.present_of_sweep left, notNeeded⟩) left
  rw [removed, Scan.sweep_removes_iff nodup fun inst isDead => ((dead inst).mp isDead).1]
  constructor
  · intro ordered phi member _ phiDead inst instMember instDead uses
    obtain ⟨before, after, split⟩ := List.append_of_mem ((dead inst).mpr ⟨instMember, instDead⟩)
    have earlier := ordered before inst after split phi member uses
    exact (pair_sublist_deadInsts phiDead instDead).mp
      ((Scan.mem_before_iff_sublist nodup split).mp earlier)
  · intro phisFirst before inst after split user isUser uses
    obtain ⟨member, instDead⟩ := (dead inst).mp (by simp [split])
    have userDead : ¬ Needed F user.id := fun needed => instDead (.operand isUser needed uses)
    have ordered : List.Sublist [user, inst] (DCE.visitOrder F) := by
      cases isPhi : user.isPhi with
      | true => exact phisFirst user isUser isPhi userDead inst member instDead uses
      | false => exact plain_user_first ssa allReachable isUser member isPhi uses
    exact (Scan.mem_before_iff_sublist nodup split).mpr
      ((pair_sublist_deadInsts userDead instDead).mpr ordered)

theorem deadCode_complete_iff_sampleLoop :
    DCE.runOnFunction 8 sampleLoop = some (sampleLoop, false) ∧
      ∀ inst ∈ sampleLoop.allInsts, Needed sampleLoop inst.id := by
  have returns : DCE.runOnFunction 8 sampleLoop = some (sampleLoop, false) := by decide +kernel
  have branch : ({ id := 3, name := "", shape := .terminator false [2, 3] [.inst 2] } : Inst) ∈
      sampleLoop.allInsts := by decide
  have live : Needed sampleLoop 2 :=
    .operand branch (.alwaysLive branch rfl) List.mem_cons_self
  have only : ∀ phi ∈ sampleLoop.allInsts, phi.isPhi = true → phi.id = 2 := by decide
  refine ⟨returns, (deadCode_complete_iff sampleLoop_ssa sampleLoop_reachable returns).mpr ?_⟩
  intro phi member isPhi dead
  exact absurd (only phi member isPhi ▸ live) dead

def sampleCounter : Func where
  argNames := ["n"]
  blocks :=
    [⟨[{ id := 0, name := "", shape := .terminator false [1] [] }]⟩,
     ⟨[{ id := 1, name := "i", shape := .phi [(.const 0, 0), (.inst 2, 1)] },
       { id := 2, name := "next", shape := .binary .Add (.inst 1) (.const 1)
         isSafeToSpeculativelyExecute := true },
       { id := 3, name := "", shape := .terminator false [1, 2] [.arg 0] }]⟩,
     ⟨[{ id := 4, name := "", shape := .terminator true [] [] }]⟩]

def sampleCounterDominators : Nat → List Nat
  | 1 => [0]
  | 2 => [1, 0]
  | _ => []

/-- The counter and its increment keep each other. -/
theorem deadCode_keeps_counter : StrictSSA sampleCounter ∧
    (∀ block < sampleCounter.blocks.length, sampleCounter.Reachable block) ∧
    DCE.runOnFunction 8 sampleCounter = some (sampleCounter, true) ∧
    ∃ inst ∈ sampleCounter.allInsts, ¬ Needed sampleCounter inst.id := by
  refine ⟨checkSsa_sound (show sampleCounter.checkSsa sampleCounterDominators = true by
    decide +kernel), ?_, by decide +kernel, ?_⟩
  · have one : sampleCounter.Reachable 1 :=
      FlowGraph.Reachable.step sampleCounter.entry_reachable (by decide : 1 ∈ sampleCounter.succs 0)
    have two := FlowGraph.Reachable.step one (by decide : 2 ∈ sampleCounter.succs 1)
    intro block bound
    change block < 3 at bound
    interval_cases block
    · exact sampleCounter.entry_reachable
    · exact one
    · exact two
  · have roots : ∀ inst ∈ sampleCounter.allInsts, inst.isAlwaysLive = true →
        inst.id ≠ 1 ∧ inst.id ≠ 2 := by decide
    have closed : ∀ inst ∈ sampleCounter.allInsts, inst.id ≠ 1 ∧ inst.id ≠ 2 →
        ∀ value ∈ inst.operands, value ≠ .inst 1 ∧ value ≠ .inst 2 := by decide
    have others : ∀ id, Needed sampleCounter id → id ≠ 1 ∧ id ≠ 2 := by
      intro id needed
      induction needed with
      | alwaysLive member always => exact roots _ member always
      | operand member _ uses ih => simpa using closed _ member ih _ uses
    exact ⟨{ id := 1, name := "i", shape := .phi [(.const 0, 0), (.inst 2, 1)] }, by decide,
      fun needed => (others 1 needed).1 rfl⟩

end Complete

end LlvmGather
