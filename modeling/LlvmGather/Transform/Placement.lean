import LlvmGather.Transform.InvariantSet

/-!
Where the instructions are when `runOnLoop` returns. The moved ones stand in the preheader
in the order in which they were found; a block of a subloop keeps anything from moving.
-/

namespace LlvmGather

section Placement

variable {F G : Func} {L : Loop} {preheader fuel : Nat} {modified : Bool}

theorem traverse_unique {tree : DomTree} {steps : Nat} {worklist : List Nat} {invStmts : List Inst}
    {first second : Option (List Inst)}
    (once : LICM.traverse F L tree fuel worklist invStmts = some first)
    (again : LICM.traverse F L tree steps worklist invStmts = some second) : first = second := by
  induction fuel generalizing steps worklist invStmts with
  | zero => simp [LICM.traverse] at once
  | succ fuel ih =>
      cases steps with
      | zero => simp [LICM.traverse] at again
      | succ steps =>
          cases worklist with
          | nil =>
              rw [LICM.traverse] at once again
              exact Option.some.inj (once.symm.trans again)
          | cons block worklist =>
              rw [LICM.traverse] at once again
              split at once
              · next innermost =>
                  rw [if_pos innermost] at again
                  exact ih once again
              · next inner =>
                  rw [if_neg inner] at again
                  exact Option.some.inj (once.symm.trans again)

theorem runOnLoop_outcome (ssa : StrictSSA F) (natural : L.Natural F) (refuses : Refuses F)
    (target : L.getLoopPreheader = some preheader)
    (returns : LICM.runOnLoop F L fuel = some (G, modified)) :
    ((∃ block ∈ L.getBlocks, L.isInnermost block = false) ∧ G = F) ∨
    ((∀ block ∈ L.getBlocks, L.isInnermost block = true) ∧
      ∃ invStmts, Ready F L invStmts ∧ (∀ inst, inst ∈ invStmts ↔ Invariant F L L.getBlocks inst) ∧
        G = invStmts.foldl (fun F inst => F.moveBefore inst preheader) F) := by
  rw [LICM.runOnLoop, target] at returns
  simp only [Option.bind_eq_bind, Option.bind_eq_some_iff] at returns
  obtain ⟨dom, computed, idom, idoms, _, _, traversed, traversal, result⟩ := returns
  obtain ⟨order, visits, steps⟩ := exists_visits ssa.toValidCfg natural computed idoms
    (Nat.lt_succ_self L.getBlocks.length)
  rw [root_getDominanceTree] at traversal
  have outcome := traverse_unique traversal steps
  by_cases direct : ∀ block ∈ L.getBlocks, L.isInnermost block = true
  · rw [if_pos (visits.all_iff.mpr direct)] at outcome
    subst outcome
    simp only [Option.some.injEq, Prod.mk.injEq] at result
    have ready := traverse_ready ssa.toTidy natural.nodup (Frontier.initial idom)
      ⟨Ready.nil, by simp⟩ traversal
    exact Or.inr ⟨direct, _, ready, visits.mem_scan ssa natural refuses, result.1.symm⟩
  · rw [if_neg (mt visits.all_iff.mp direct)] at outcome
    subst outcome
    simp only [Option.some.injEq, Prod.mk.injEq] at result
    push Not at direct
    exact Or.inl ⟨by simpa using direct, result.1.symm⟩

/-- After all the moves: the listed instructions are in the preheader, the others where
they were. -/
structure Placed (F G : Func) (preheader : Nat) (invStmts : List Inst) : Prop where
  ssa : StrictSSA G
  perm : G.allInsts.Perm F.allInsts
  reachable : ∀ block, G.Reachable block ↔ F.Reachable block
  moved : ∀ inst ∈ invStmts, inst ∈ G.insts preheader
  others : ∀ inst ∉ invStmts, ∀ block, inst ∈ G.insts block ↔ inst ∈ F.insts block

theorem Ready.placed {invStmts : List Inst} (ssa : StrictSSA F) (natural : L.Natural F)
    (refuses : Refuses F) (target : L.getLoopPreheader = some preheader)
    (ready : Ready F L invStmts) :
    Placed F (invStmts.foldl (fun F inst => F.moveBefore inst preheader) F) preheader invStmts := by
  induction invStmts generalizing F with
  | nil => exact ⟨ssa, .refl _, fun _ => Iff.rfl, by simp, by simp⟩
  | cons inst rest ih =>
      obtain ⟨source, hoist⟩ := ready.hoist ssa natural refuses target
      have members := fun block other => hoist.moved.mem_insts ssa.toTidy block other
      have placed := ih hoist.ssa_moved hoist.natural_moved (refuses.moved hoist) (ready.tail hoist)
      have once : inst ∉ rest := (List.nodup_cons.mp (List.Nodup.of_map _ ready.distinct)).1
      refine ⟨placed.ssa, placed.perm.trans hoist.moved.perm,
        fun block => (placed.reachable block).trans (hoist.reachable_iff block), ?_, ?_⟩
      · intro other found
        rcases List.mem_cons.mp found with rfl | inRest
        · exact (placed.others other once preheader).mpr hoist.moved.arrived
        · exact placed.moved other inRest
      · intro other unlisted block
        obtain ⟨differs, notRest⟩ := not_or.mp (mt List.mem_cons.mpr unlisted)
        rw [List.foldl_cons, placed.others other notRest block, members block other]
        simp [differs]

/-- The invariant instructions of the blocks that belong to the loop itself all end up in
the preheader exactly if no block belongs to a subloop, or if there are none. -/
theorem runOnLoop_hoists_iff (ssa : StrictSSA F) (natural : L.Natural F) (refuses : Refuses F)
    (target : L.getLoopPreheader = some preheader)
    (returns : LICM.runOnLoop F L fuel = some (G, modified)) :
    (∀ inst, Invariant F L (L.getBlocks.filter L.isInnermost) inst → inst ∈ G.insts preheader) ↔
      (∀ block ∈ L.getBlocks, L.isInnermost block = true) ∨
      ∀ inst, ¬ Invariant F L (L.getBlocks.filter L.isInnermost) inst := by
  rcases runOnLoop_outcome ssa natural refuses target returns with
    ⟨⟨inner, inLoop, subloop⟩, rfl⟩ | ⟨direct, invStmts, ready, least, rfl⟩
  · constructor
    · intro hoisted
      right
      intro inst invariant
      have moved := hoisted inst invariant
      cases invariant with
      | intro admissible _ =>
      obtain ⟨-, block, direct, member⟩ := admissible
      have same := ssa.block_unique moved member rfl
      exact (natural.preheader preheader target).outside (same ▸ List.mem_of_mem_filter direct)
    · rintro (direct | none)
      · rw [direct inner inLoop] at subloop
        exact absurd subloop (by simp)
      · intro inst invariant
        exact absurd invariant (none inst)
  · refine iff_of_true ?_ (Or.inl direct)
    intro inst invariant
    rw [List.filter_eq_self.mpr direct, ← least] at invariant
    exact (ready.placed ssa natural refuses target).moved inst invariant

theorem runOnLoop_hoists_iff_sampleNest :
    LICM.runOnLoop sampleLoop sampleNest 8 = some (sampleHoisted, true) ∧
    ∀ inst, Invariant sampleLoop sampleNest (sampleNest.getBlocks.filter sampleNest.isInnermost)
      inst → inst ∈ sampleHoisted.insts 0 := by
  exact ⟨sampleNest_returns, (runOnLoop_hoists_iff sampleLoop_ssa sampleNest_natural
    sampleSpeculation.refuses rfl sampleNest_returns).mpr (Or.inl (by decide))⟩

def sampleSum : Inst :=
  { id := 1, name := "x", shape := .binary .Add (.arg 0) (.arg 0)
    isSafeToSpeculativelyExecute := true }

/-- A loop of the blocks 1, 2 and 3 around the block 2, which is a loop of its own. The sum
in block 1 is invariant. -/
def sampleSubloop : Func where
  argNames := ["n"]
  blocks :=
    [⟨[{ id := 0, name := "", shape := .terminator false [1] [] }]⟩,
     ⟨[sampleSum, { id := 2, name := "", shape := .terminator false [2] [] }]⟩,
     ⟨[{ id := 3, name := "", shape := .terminator false [2, 3] [.arg 0] }]⟩,
     ⟨[{ id := 4, name := "", shape := .terminator false [1, 4] [.inst 1] }]⟩,
     ⟨[{ id := 5, name := "", shape := .terminator true [] [] }]⟩]

def sampleOuter : Loop := ⟨1, [2, 3], some 0, fun block => decide (block = 1 ∨ block = 3)⟩

def sampleSubloopDominators : Nat → List Nat
  | 1 => [0]
  | 2 => [1, 0]
  | 3 => [2, 1, 0]
  | 4 => [3, 2, 1, 0]
  | _ => []

theorem sampleSubloop_ssa : StrictSSA sampleSubloop :=
  checkSsa_sound (show sampleSubloop.checkSsa sampleSubloopDominators = true by decide +kernel)

theorem sampleOuter_natural : sampleOuter.Natural sampleSubloop := by
  have one : sampleSubloop.Reachable 1 :=
    FlowGraph.Reachable.step sampleSubloop.entry_reachable (by decide : 1 ∈ sampleSubloop.succs 0)
  have two := FlowGraph.Reachable.step one (by decide : 2 ∈ sampleSubloop.succs 1)
  have three := FlowGraph.Reachable.step two (by decide : 3 ∈ sampleSubloop.succs 2)
  refine Loop.natural_of_certificate sampleSubloop_ssa.toValidCfg
    (show ∀ block ∈ _, sampleSubloop.dominatorsCertified sampleSubloopDominators block = true by
      decide +kernel) ?_ (by decide) (by decide) rfl (by decide) (by decide) (by decide)
  intro block inLoop
  obtain rfl | rfl | rfl : block = 1 ∨ block = 2 ∨ block = 3 := by
    simpa [sampleOuter, Loop.getBlocks] using inLoop
  · exact one
  · exact two
  · exact three

/-- The sum stays where it is, since the traversal comes to the block of the subloop. -/
theorem subloop_suppresses_hoisting : StrictSSA sampleSubloop ∧
    sampleOuter.Natural sampleSubloop ∧ Refuses sampleSubloop ∧
    LICM.runOnLoop sampleSubloop sampleOuter 8 = some (sampleSubloop, false) ∧
    Invariant sampleSubloop sampleOuter (sampleOuter.getBlocks.filter sampleOuter.isInnermost)
      sampleSum ∧ sampleSum ∉ sampleSubloop.insts 0 := by
  refine ⟨sampleSubloop_ssa, sampleOuter_natural, ?_, by decide +kernel, ?_, by decide⟩
  · unfold Refuses
    decide
  · refine .intro ⟨by decide, 1, by decide, by decide⟩ ?_
    rintro operand ⟨-, uses⟩
    simp [sampleSum, Inst.operands] at uses

/-- The function stays in SSA form with the same instructions. One that changed its place is
in the preheader, after its operands and before its uses. -/
theorem runOnLoop_wellFormed (ssa : StrictSSA F) (natural : L.Natural F) (refuses : Refuses F)
    (returns : LICM.runOnLoop F L fuel = some (G, modified)) :
    StrictSSA G ∧ G.allInsts.Perm F.allInsts ∧
      ∀ source, ∀ inst ∈ F.insts source, inst ∉ G.insts source →
        ∃ preheader before after, L.getLoopPreheader = some preheader ∧
          G.insts preheader = before ++ inst :: after ∧
          (∀ id, Value.inst id ∈ inst.operands → (∃ definition ∈ before, definition.id = id) ∨
            ∃ origin, G.StrictlyDominates origin preheader ∧ G.Defines origin id) ∧
          ∀ block, ∀ user ∈ G.insts block, Value.inst inst.id ∈ user.operands →
            (user.isPhi = false →
              (block = preheader ∧ user ∈ after) ∨ G.StrictlyDominates preheader block) ∧
            ∀ edge, (Value.inst inst.id, edge) ∈ user.incoming → G.Dominates preheader edge := by
  rcases runOnLoop_cases ssa.toTidy natural returns with
    ⟨rfl, -⟩ | ⟨preheader, invStmts, target, ready, rfl, -⟩
  · exact ⟨ssa, .refl _, fun source inst member gone => absurd member gone⟩
  · have placed := ready.placed ssa natural refuses target
    refine ⟨placed.ssa, placed.perm, fun source inst member gone => ?_⟩
    have listed : inst ∈ invStmts := by
      by_contra unlisted
      exact gone ((placed.others inst unlisted source).mpr member)
    have here := placed.moved inst listed
    obtain ⟨before, after, split⟩ := List.append_of_mem here
    have notPhi := (refuses inst ((F.mem_allInsts inst).mpr ⟨source, member⟩)
      (ready.hoistable inst listed)).1
    have reachable := (placed.reachable preheader).mpr
      ((natural.preheader preheader target).reachable natural.natural ssa.entryWithoutPreds)
    refine ⟨preheader, before, after, target, split, ?_, ?_⟩
    · exact placed.ssa.usesDominated preheader before inst after reachable split notPhi
    · intro block user isUser operand
      exact ⟨fun plain => placed.ssa.definition_before_use reachable split isUser plain operand,
        fun edge entry => placed.ssa.definition_before_edge here isUser entry⟩

theorem runOnLoop_wellFormed_sampleNest :
    LICM.runOnLoop sampleLoop sampleNest 8 = some (sampleHoisted, true) ∧
    StrictSSA sampleHoisted ∧ sampleHoisted.allInsts.Perm sampleLoop.allInsts := by
  obtain ⟨ssa, perm, -⟩ := runOnLoop_wellFormed sampleLoop_ssa sampleNest_natural
    sampleSpeculation.refuses sampleNest_returns
  exact ⟨sampleNest_returns, ssa, perm⟩

end Placement

end LlvmGather
