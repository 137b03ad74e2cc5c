import LlvmGather.Library.Fuel
import LlvmGather.Transform.DeadCode
import LlvmGather.Transform.Placement

/-!
`DeadCodeElimination.cpp` and `LoopInvariantCodeMotion.cpp` one after the other, any number
of times and in any order. Neither of them touches a terminator, so that the loops that
`LoopInfo` found at first are the loops of every later function.
-/

namespace LlvmGather

open Fuel (Steady Returns)

section Steady

variable {D : Type} [DecidableEq D] {analysis : DataFlow D} {F : Func} {L : Loop}

theorem DataFlow.converge_steady {domain : List D} (start : Nat → BlockResult) :
    Steady fun fuel => analysis.converge F domain fuel start := by
  refine Steady.of_succ fun fuel final found => ?_
  induction fuel generalizing start with
  | zero => simp [DataFlow.converge] at found
  | succ fuel ih =>
      rw [DataFlow.converge] at found ⊢
      by_cases finished : (analysis.sweep F domain start).2 = true
      · rwa [if_pos finished] at found ⊢
      · rw [if_neg finished] at found ⊢
        exact ih _ found

theorem DataFlow.run_steady {domain : List D} {boundaryCond initCond : BitVector} :
    Steady fun fuel => analysis.run fuel F domain boundaryCond initCond :=
  (DataFlow.converge_steady _).map _

theorem traverse_steady {tree : DomTree} (worklist : List Nat) (invStmts : List Inst) :
    Steady fun fuel => LICM.traverse F L tree fuel worklist invStmts := by
  refine Steady.of_succ fun fuel final found => ?_
  induction fuel generalizing worklist invStmts with
  | zero => simp [LICM.traverse] at found
  | succ fuel ih =>
      cases worklist with
      | nil => exact found
      | cons block worklist =>
          rw [LICM.traverse] at found ⊢
          by_cases innermost : L.isInnermost block = true
          · rw [if_pos innermost] at found ⊢
            exact ih _ _ found
          · rwa [if_neg innermost] at found ⊢

theorem runOnLoop_steady : Steady fun fuel => LICM.runOnLoop F L fuel := by
  unfold LICM.runOnLoop
  cases L.getLoopPreheader with
  | none => exact Steady.const _
  | some preheader =>
      exact DataFlow.run_steady.bind fun dom => (Steady.const _).bind fun idom =>
        (Steady.const _).bind fun _ => (traverse_steady _ _).bind fun _ => Steady.const _

theorem runOnFunction_steady : Steady fun fuel => DCE.runOnFunction fuel F :=
  DataFlow.run_steady.map _

end Steady

section Erasure

variable {F G : Func} {inst : Inst}

theorem Tidy.succs_erase (tidy : Tidy F) (member : inst ∈ F.allInsts)
    (plain : inst.isTerminator = false) : (F.eraseFromParent inst.id).succs = F.succs := by
  funext block
  simp only [Func.succs, (tidy.body_erase member plain block).2]

theorem Func.Defines.erase {block id erased : Nat} (defines : F.Defines block id)
    (other : id ≠ erased) : (F.eraseFromParent erased).Defines block id := by
  obtain ⟨definition, member, rfl⟩ := defines
  refine ⟨definition, ?_, rfl⟩
  rw [F.insts_eraseFromParent]
  exact List.mem_filter.mpr ⟨member, by simpa using other⟩

theorem Verified.erase (verified : Verified F) (member : inst ∈ F.allInsts)
    (plain : inst.isTerminator = false) (unused : F.useEmpty inst.id = true) :
    Verified (F.eraseFromParent inst.id) := by
  have succs := verified.succs_erase member plain
  have old : ∀ user ∈ (F.eraseFromParent inst.id).allInsts, user ∈ F.allInsts := fun user found =>
    ((F.mem_allInsts_eraseFromParent _ _).mp found).1
  refine ⟨⟨?_, ?_, ?_⟩, verified.toTidy.erase member plain unused, ?_, ?_, ?_, ?_⟩
  · simpa [Func.eraseFromParent] using verified.nonempty
  · rw [succs, F.length_eraseFromParent]
    exact verified.targetsInside
  · rw [succs]
    exact verified.entryWithoutPreds
  · intro block
    obtain ⟨phis, rest, split, first, second⟩ := verified.phisFirst block
    refine ⟨phis.filter (·.id ≠ inst.id), rest.filter (·.id ≠ inst.id), ?_, ?_, ?_⟩
    · rw [F.insts_eraseFromParent, split, List.filter_append]
    · exact fun phi found => first phi (List.mem_of_mem_filter found)
    · exact fun other found => second other (List.mem_of_mem_filter found)
  · intro block phi found
    rw [F.insts_eraseFromParent] at found
    rw [succs]
    exact verified.phiIncoming block phi (List.mem_of_mem_filter found)
  · intro last found terminator target only user isUser
    exact verified.voidTerminators last (old last found) terminator target only user
      (old user isUser)
  · intro first found named
    obtain ⟨unique, fresh⟩ := verified.namesUnique first (old first found) named
    exact ⟨fun second isSecond => unique second (old second isSecond), fresh⟩

theorem StrictSSA.erase (ssa : StrictSSA F) (member : inst ∈ F.allInsts)
    (plain : inst.isTerminator = false) (unused : F.useEmpty inst.id = true) :
    StrictSSA (F.eraseFromParent inst.id) := by
  have succs := ssa.succs_erase member plain
  have other : ∀ block, ∀ user ∈ F.insts block, ∀ id, Value.inst id ∈ user.operands →
      id ≠ inst.id := by
    rintro block user isUser id operand rfl
    exact (F.useEmpty_iff _).mp unused user ((F.mem_allInsts user).mpr ⟨block, isUser⟩) operand
  refine ⟨ssa.toVerified.erase member plain unused, ?_, ?_⟩
  · intro block before user after reachable split notPhi id operand
    unfold Func.Reachable at reachable
    unfold Func.StrictlyDominates
    rw [succs] at reachable ⊢
    rw [F.insts_eraseFromParent] at split
    obtain ⟨left, right, whole, front, back⟩ := List.filter_eq_append_iff.mp split
    obtain ⟨gone, rest, rfl, erased, -, -⟩ := List.filter_eq_cons_iff.mp back
    have isUser : user ∈ F.insts block := by simp [whole]
    have different := other block user isUser id operand
    rw [← List.append_assoc] at whole
    rcases ssa.usesDominated block (left ++ gone) user rest reachable whole notPhi id operand with
      ⟨definition, found, rfl⟩ | ⟨source, strict, defines⟩
    · refine .inl ⟨definition, ?_, rfl⟩
      rw [← front]
      rcases List.mem_append.mp found with inLeft | inGone
      · exact List.mem_filter.mpr ⟨inLeft, by simpa using different⟩
      · exact absurd (by simpa using different) (erased definition inGone)
    · exact .inr ⟨source, strict, defines.erase different⟩
  · intro block reachable phi found id source entry live
    unfold Func.Reachable at reachable live
    unfold Func.Dominates
    rw [succs] at reachable live ⊢
    rw [F.insts_eraseFromParent] at found
    have isPhi := List.mem_of_mem_filter found
    obtain ⟨origin, dominates, defines⟩ :=
      ssa.phisDominated block reachable phi isPhi id source entry live
    exact ⟨origin, dominates, defines.erase
      (other block phi isPhi id (Inst.mem_operands_of_mem_incoming entry))⟩

end Erasure

section Pipeline

variable {Val World : Type} {sem : Semantics Val World} {F G H : Func} {L : Loop}

/-- What both passes see to: the function does the same with the same branches and with
instructions that it had before. -/
structure Improves (sem : Semantics Val World) (F G : Func) : Prop where
  ssa : StrictSSA G
  succs : G.succs = F.succs
  length : G.blocks.length = F.blocks.length
  insts : ∀ inst ∈ G.allInsts, inst ∈ F.allInsts
  refines : Refines sem F G

theorem Improves.refl (ssa : StrictSSA F) : Improves sem F F :=
  ⟨ssa, rfl, rfl, fun _ member => member, Refines.refl sem F⟩

theorem Improves.trans (first : Improves sem F G) (second : Improves sem G H) : Improves sem F H :=
  ⟨second.ssa, second.succs.trans first.succs, second.length.trans first.length,
    fun inst member => first.insts inst (second.insts inst member),
    first.refines.trans second.refines⟩

theorem Improves.natural (improves : Improves sem F G) (natural : L.Natural F) : L.Natural G := by
  refine ⟨natural.nodup, ?_, ?_⟩
  · rw [improves.succs]
    exact natural.natural
  · rw [improves.succs]
    exact natural.preheader

theorem Improves.speculation (improves : Improves sem F G) (speculation : Speculation sem F) :
    Speculation sem G :=
  ⟨fun inst member => speculation.rejects inst (improves.insts inst member),
    fun inst member => speculation.pure inst (improves.insts inst member)⟩

def Connected (F : Func) : Prop := ∀ block < F.blocks.length, F.Reachable block

theorem Improves.connected (improves : Improves sem F G) (connected : Connected F) :
    Connected G := by
  intro block bound
  rw [improves.length] at bound
  unfold Func.Reachable
  rw [improves.succs]
  exact connected block bound

theorem Erases.improves (effectFree : sem.EffectFree) (ssa : StrictSSA F) (step : Erases F G) :
    Improves sem F G := by
  obtain ⟨member, dead, unused⟩ := step
  have plain := Inst.not_isTerminator dead
  refine ⟨ssa.erase member plain unused, ssa.succs_erase member plain, F.length_eraseFromParent _,
    fun other found => ?_, erase_refines effectFree ssa.toTidy member dead unused⟩
  exact ((F.mem_allInsts_eraseFromParent _ _).mp found).1

theorem Hoists.improves {preheader : Nat} (step : Hoists sem L preheader F G) :
    Improves sem F G := by
  have preserves := step.preserves
  obtain ⟨hoist, -, -⟩ := step
  exact ⟨hoist.ssa_moved, hoist.succs, hoist.moved.length,
    fun other found => (hoist.moved.mem_allInsts other).mp found,
    fun args env world fuel => .inl (preserves args env world fuel)⟩

theorem Improves.of_steps {step : Func → Func → Prop}
    (improves : ∀ {F G}, StrictSSA F → step F G → Improves sem F G) (ssa : StrictSSA F)
    (steps : Relation.ReflTransGen step F G) : Improves sem F G := by
  induction steps with
  | refl => exact Improves.refl ssa
  | tail _ last ih => exact ih.trans (improves ih.ssa last)

theorem deadCode_improves (effectFree : sem.EffectFree) (ssa : StrictSSA F) {fuel : Nat}
    {modified : Bool} (returns : DCE.runOnFunction fuel F = some (G, modified)) :
    Improves sem F G :=
  .of_steps (fun ssa step => step.improves effectFree ssa) ssa
    (erases_runOnFunction ssa.toTidy returns)

theorem loopInvariant_improves (ssa : StrictSSA F) (natural : L.Natural F)
    (speculation : Speculation sem F) {fuel : Nat} {modified : Bool}
    (returns : LICM.runOnLoop F L fuel = some (G, modified)) : Improves sem F G := by
  obtain ⟨preheader, steps⟩ := hoists_of_runOnLoop ssa natural speculation returns
  exact .of_steps (fun _ step => step.improves) ssa steps

theorem computeIdom_returns (valid : ValidCfg F) (connected : Connected F) {fuel : Nat}
    {dom : DataFlowResult Nat} (computed : computeDom fuel F = some dom) :
    ∃ idom, computeIdom dom = some idom := by
  rw [← Option.ne_none_iff_exists', Ne, computeIdom_eq_none_iff valid computed]
  rintro ⟨B, inside, unreachable, -⟩
  exact unreachable (connected B inside)

theorem printIdom_returns (valid : ValidCfg F) (natural : L.Natural F) {preheader : Nat}
    (target : L.getLoopPreheader = some preheader) {fuel : Nat} {dom : DataFlowResult Nat}
    (computed : computeDom fuel F = some dom) {idom : AList fun _ : Nat => Nat}
    (idoms : computeIdom dom = some idom) : printIdom idom L.getBlocks = some () := by
  refine if_pos (List.all_eq_true.mpr fun block inLoop => ?_)
  have reachable := natural.natural.reachable block inLoop
  have interior : block ≠ F.entry := by
    rintro rfl
    have above := natural.natural.dominated F.entry inLoop
    have same : L.header = F.entry := by simpa using above [] .start
    exact valid.entryWithoutPreds preheader (same ▸ (natural.preheader preheader target).leads)
  obtain ⟨A, immediate⟩ := FlowGraph.exists_immediatelyDominates reachable interior
  rw [lookup_computeIdom valid computed reachable idoms,
    idomCandidates_eq valid computed reachable immediate]
  rfl

theorem loopInvariant_returns (valid : ValidCfg F) (natural : L.Natural F)
    (connected : Connected F) : ∃ result, Returns (fun fuel => LICM.runOnLoop F L fuel) result := by
  cases target : L.getLoopPreheader with
  | none => exact ⟨(F, false), 0, fun fuel _ => by simp [LICM.runOnLoop, target]⟩
  | some preheader =>
      obtain ⟨enough, total⟩ := computeDom_total valid
      let fuel := max enough (L.getBlocks.length + 1)
      obtain ⟨dom, computed⟩ := total fuel (le_max_left _ _)
      obtain ⟨idom, idoms⟩ := computeIdom_returns valid connected computed
      obtain ⟨order, -, traversal⟩ := exists_visits valid natural computed idoms
        (show L.getBlocks.length < fuel from (Nat.lt_succ_self _).trans_le (le_max_right _ _))
      have returns : ∃ result, LICM.runOnLoop F L fuel = some result := by
        simp only [LICM.runOnLoop, target, computed, idoms,
          printIdom_returns valid natural target computed idoms, Option.bind_eq_bind,
          Option.bind_some, root_getDominanceTree, traversal]
        split <;> exact ⟨_, rfl⟩
      obtain ⟨result, found⟩ := returns
      exact ⟨result, runOnLoop_steady.returns found⟩

inductive Pass
  | deadCodeElimination
  | loopInvariantCodeMotion (L : Loop)

def Pass.run (fuel : Nat) (F : Func) : Pass → Option Func
  | .deadCodeElimination => (DCE.runOnFunction fuel F).map Prod.fst
  | .loopInvariantCodeMotion L => (LICM.runOnLoop F L fuel).map Prod.fst

def pipeline (fuel : Nat) (F : Func) (passes : List Pass) : Option Func :=
  passes.foldlM (Pass.run fuel) F

def Pass.Fits (F : Func) : Pass → Prop
  | .deadCodeElimination => True
  | .loopInvariantCodeMotion L => L.Natural F

theorem Pass.run_improves (effectFree : sem.EffectFree) (ssa : StrictSSA F)
    (connected : Connected F) (speculation : Speculation sem F) {pass : Pass} (fits : pass.Fits F) :
    ∃ G, Returns (fun fuel => pass.run fuel F) G ∧ Improves sem F G := by
  cases pass with
  | deadCodeElimination =>
      obtain ⟨enough, total⟩ := runDce_total ssa.toVerified
      obtain ⟨output, returns⟩ := total enough le_rfl
      have found : DCE.runOnFunction enough F = some _ := congrArg (Option.map _) returns
      exact ⟨_, (runOnFunction_steady.map Prod.fst).returns (congrArg (Option.map _) found),
        deadCode_improves effectFree ssa found⟩
  | loopInvariantCodeMotion L =>
      obtain ⟨result, enough, returns⟩ := loopInvariant_returns ssa.toValidCfg fits connected
      have found := returns enough le_rfl
      exact ⟨result.1, (runOnLoop_steady.map Prod.fst).returns (congrArg (Option.map _) found),
        loopInvariant_improves ssa fits speculation found⟩

theorem Pass.Fits.improves {pass : Pass} (fits : pass.Fits F) (improves : Improves sem F G) :
    pass.Fits G := by
  cases pass with
  | deadCodeElimination => trivial
  | loopInvariantCodeMotion L => exact improves.natural fits

theorem pipeline_improves (effectFree : sem.EffectFree) (ssa : StrictSSA F)
    (connected : Connected F) (speculation : Speculation sem F) {passes : List Pass}
    (fits : ∀ pass ∈ passes, pass.Fits F) :
    ∃ G, Returns (fun fuel => pipeline fuel F passes) G ∧ Improves sem F G := by
  induction passes generalizing F with
  | nil => exact ⟨F, ⟨0, fun _ _ => rfl⟩, Improves.refl ssa⟩
  | cons pass rest ih =>
      obtain ⟨middle, first, improves⟩ := pass.run_improves effectFree ssa connected speculation
        (fits pass List.mem_cons_self)
      obtain ⟨G, second, later⟩ := ih improves.ssa (improves.connected connected)
        (improves.speculation speculation)
        (fun other member => (fits other (List.mem_cons_of_mem _ member)).improves improves)
      refine ⟨G, ?_, improves.trans later⟩
      simp only [pipeline, List.foldlM_cons]
      exact first.bind second

/-- Every sequence of the two passes returns, and what it returns is in SSA form, refines the
function and has its control flow. -/
theorem pipeline_refines (effectFree : sem.EffectFree) (ssa : StrictSSA F)
    (connected : Connected F) (speculation : Speculation sem F) (passes : List Pass)
    (fits : ∀ pass ∈ passes, pass.Fits F) :
    ∃ G, (∃ enough, ∀ fuel, enough ≤ fuel → pipeline fuel F passes = some G) ∧
      StrictSSA G ∧ Refines sem F G ∧ G.succs = F.succs ∧
      ∀ inst ∈ G.allInsts, inst ∈ F.allInsts := by
  obtain ⟨G, returns, improves⟩ := pipeline_improves effectFree ssa connected speculation fits
  exact ⟨G, returns, improves.ssa, improves.refines, improves.succs, improves.insts⟩

end Pipeline

theorem pipeline_refines_sampleLoop : ∃ G,
    (∃ enough, ∀ fuel, enough ≤ fuel → pipeline fuel sampleLoop
      [.loopInvariantCodeMotion sampleNest, .deadCodeElimination,
        .loopInvariantCodeMotion sampleNest] = some G) ∧
    StrictSSA G ∧ Refines sampleSemantics sampleLoop G := by
  have fits : ∀ pass ∈ [Pass.loopInvariantCodeMotion sampleNest, .deadCodeElimination,
      .loopInvariantCodeMotion sampleNest], pass.Fits sampleLoop := by
    intro pass member
    cases pass with
    | deadCodeElimination => trivial
    | loopInvariantCodeMotion L =>
        obtain rfl : L = sampleNest := by simpa using member
        exact sampleNest_natural
  obtain ⟨G, returns, ssa, refines, -⟩ := pipeline_refines sampleSemantics_effectFree sampleLoop_ssa
    sampleLoop_reachable sampleSpeculation _ fits
  exact ⟨G, returns, ssa, refines⟩

end LlvmGather
