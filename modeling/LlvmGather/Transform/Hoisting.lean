import LlvmGather.Ir.Motion
import LlvmGather.Ir.Simulation
import LlvmGather.Transform.LoopInvariant

/-!
Moving one invariant instruction to the preheader. The function stays in SSA form, and a
run before the move is matched block by block by a run after it: where the instruction
was executed the preheader has computed its value already, and elsewhere it is not read.
-/

namespace LlvmGather

structure Hoist (F : Func) (L : Loop) (inst : Inst) (source preheader : Nat) : Prop where
  ssa : StrictSSA F
  natural : L.Natural F
  target : L.getLoopPreheader = some preheader
  inLoop : source ∈ L.getBlocks
  member : inst ∈ F.insts source
  plain : inst.isTerminator = false
  notPhi : inst.isPhi = false
  outside : ∀ id, Value.inst id ∈ inst.operands → L.contains F id = false

namespace Hoist

open FlowGraph

variable {F : Func} {L : Loop} {inst : Inst} {source preheader : Nat}
  (hoist : Hoist F L inst source preheader)

include hoist

theorem before : Preheader F.succs L.getBlocks L.header preheader :=
  hoist.natural.preheader preheader hoist.target

theorem strict : F.StrictlyDominates preheader source :=
  hoist.before.strictlyDominates hoist.natural.natural hoist.ssa.entryWithoutPreds hoist.inLoop

theorem reachable_source : F.Reachable source :=
  hoist.natural.natural.reachable source hoist.inLoop

theorem reachable_preheader : F.Reachable preheader :=
  hoist.before.reachable hoist.natural.natural hoist.ssa.entryWithoutPreds

theorem moved : Moved F (F.moveBefore inst preheader) inst source preheader :=
  hoist.ssa.moved hoist.member (Ne.symm hoist.strict.1)
    (hoist.ssa.reachable_lt hoist.reachable_preheader)

theorem not_own_operand : Value.inst inst.id ∉ inst.operands := by
  intro operand
  have contained := (L.contains_iff F inst.id).mpr ⟨source, hoist.inLoop, inst, hoist.member, rfl⟩
  rw [hoist.outside inst.id operand] at contained
  exact Bool.false_ne_true contained

theorem operand_origin {id : Nat} (operand : Value.inst id ∈ inst.operands) :
    ∃ origin, F.Dominates origin preheader ∧ F.Defines origin id := by
  have absent : ∀ block ∈ L.getBlocks, ¬ F.Defines block id := by
    intro block inLoop defined
    have contained := (L.contains_iff F id).mpr ⟨block, inLoop, defined⟩
    rw [hoist.outside id operand] at contained
    exact Bool.false_ne_true contained
  obtain ⟨before, after, split⟩ := List.mem_iff_append.mp hoist.member
  rcases hoist.ssa.usesDominated source before inst after hoist.reachable_source split
    hoist.notPhi id operand with ⟨definition, earlier, same⟩ | ⟨origin, strict, defined⟩
  · exact absurd ⟨definition, by simp [split, earlier], same⟩ (absent source hoist.inLoop)
  · refine ⟨origin, ?_, defined⟩
    apply hoist.before.dominates_of_outside hoist.natural.natural hoist.inLoop _ strict.2
    exact fun inside => absent origin inside defined

theorem operand_not_after {block : Nat} (strict : F.StrictlyDominates preheader block) {other : Inst}
    (found : other ∈ F.insts block) : Value.inst other.id ∉ inst.operands := by
  intro operand
  obtain ⟨origin, dominates, definition, defined, same⟩ := hoist.operand_origin operand
  have here : origin = block := hoist.ssa.block_unique defined found same
  subst here
  exact strict.1 (Dominates.antisymm hoist.reachable_preheader strict.2 dominates)

theorem operand_not_last {front : List Inst} {last : Inst}
    (split : F.insts preheader = front ++ [last]) {user : Inst} (isUser : user ∈ F.allInsts) :
    Value.inst last.id ∉ user.operands := by
  have succs : F.succs preheader = last.targets := by
    simp [Func.succs, Func.getTerminator, split]
  refine hoist.ssa.voidTerminators last ((F.mem_allInsts last).mpr ⟨preheader, by simp [split]⟩)
    (hoist.ssa.terminator_of_last split) L.header ?_ user isUser
  rw [← succs]
  exact hoist.before.only

theorem succs : (F.moveBefore inst preheader).succs = F.succs :=
  hoist.moved.succs hoist.ssa.toTidy hoist.plain

theorem dominates_iff (outer inner : Nat) :
    (F.moveBefore inst preheader).Dominates outer inner ↔ F.Dominates outer inner := by
  unfold Func.Dominates
  rw [hoist.succs]
  rfl

theorem reachable_iff (block : Nat) :
    (F.moveBefore inst preheader).Reachable block ↔ F.Reachable block := by
  unfold Func.Reachable
  rw [hoist.succs]
  rfl

theorem natural_moved : L.Natural (F.moveBefore inst preheader) := by
  obtain ⟨nodup, natural, before⟩ := hoist.natural
  refine ⟨nodup, ?_, ?_⟩
  · rw [hoist.succs]
    exact natural
  · rw [hoist.succs]
    exact before

theorem still_dominated {block id : Nat}
    (defined : ∃ origin, F.Dominates origin block ∧ F.Defines origin id) :
    ∃ origin, F.Dominates origin block ∧ (F.moveBefore inst preheader).Defines origin id := by
  obtain ⟨origin, dominates, definition, found, rfl⟩ := defined
  by_cases isMoved : definition.id = inst.id
  · have here : origin = source := hoist.ssa.block_unique found hoist.member isMoved
    subst here
    exact ⟨preheader, hoist.strict.2.trans dominates,
      (hoist.moved.defines hoist.ssa.toTidy _ _).mpr (Or.inl ⟨isMoved, rfl⟩)⟩
  · exact ⟨origin, dominates, (hoist.moved.defines hoist.ssa.toTidy _ _).mpr
      (Or.inr ⟨isMoved, definition, found, rfl⟩)⟩

theorem operand_before {front : List Inst} {last : Inst}
    (split : F.insts preheader = front ++ [last]) {id : Nat}
    (operand : Value.inst id ∈ inst.operands) :
    (∃ definition ∈ front, definition.id = id) ∨
      ∃ origin, F.StrictlyDominates origin preheader ∧ F.Defines origin id := by
  obtain ⟨origin, dominates, definition, found, same⟩ := hoist.operand_origin operand
  by_cases here : origin = preheader
  · subst here
    rw [split, List.mem_append, List.mem_singleton] at found
    rcases found with inFront | rfl
    · exact Or.inl ⟨definition, inFront, same⟩
    · have isUser := (F.mem_allInsts inst).mpr ⟨source, hoist.member⟩
      exact absurd (same ▸ operand) (hoist.operand_not_last split isUser)
  · exact Or.inr ⟨origin, ⟨here, dominates⟩, definition, found, same⟩

theorem strictly_moved {outer inner : Nat} (strict : F.StrictlyDominates outer inner) :
    (F.moveBefore inst preheader).StrictlyDominates outer inner :=
  ⟨strict.1, (hoist.dominates_iff outer inner).mpr strict.2⟩

theorem moved_uses {before after : List Inst} (verified : Verified (F.moveBefore inst preheader))
    (split : (F.moveBefore inst preheader).insts preheader = before ++ inst :: after) {id : Nat}
    (operand : Value.inst id ∈ inst.operands) :
    (∃ definition ∈ before, definition.id = id) ∨
      ∃ origin, (F.moveBefore inst preheader).StrictlyDominates origin preheader ∧
        (F.moveBefore inst preheader).Defines origin id := by
  obtain ⟨front, last, shape, shape'⟩ := hoist.moved.paste
  obtain ⟨sameFront, _, _⟩ := verified.split_unique split shape' rfl
  have other : id ≠ inst.id := by
    rintro rfl
    exact hoist.not_own_operand operand
  rcases hoist.operand_before shape operand with earlier | ⟨origin, strict, defined⟩
  · exact Or.inl (sameFront ▸ earlier)
  · exact Or.inr ⟨origin, hoist.strictly_moved strict,
      (hoist.moved.defines hoist.ssa.toTidy _ _).mpr (Or.inr ⟨other, defined⟩)⟩

theorem other_uses {block : Nat} {before after : List Inst} {user : Inst}
    (verified : Verified (F.moveBefore inst preheader)) (reachable : F.Reachable block)
    (split : (F.moveBefore inst preheader).insts block = before ++ user :: after)
    (notPhi : user.isPhi = false) (differs : user ≠ inst) (old : user ∈ F.insts block) {id : Nat}
    (operand : Value.inst id ∈ user.operands) :
    (∃ definition ∈ before, definition.id = id) ∨
      ∃ origin, (F.moveBefore inst preheader).StrictlyDominates origin block ∧
        (F.moveBefore inst preheader).Defines origin id := by
  have tidy := hoist.ssa.toTidy
  have moved := hoist.moved
  obtain ⟨before', after', split'⟩ := List.mem_iff_append.mp old
  have here : (F.moveBefore inst preheader).Defines preheader inst.id := ⟨inst, moved.arrived, rfl⟩
  rcases hoist.ssa.usesDominated block before' user after' reachable split' notPhi id operand
    with ⟨definition, earlier, rfl⟩ | ⟨origin, strict, definition, defined, rfl⟩
  · have inBlock : definition ∈ F.insts block := by simp [split', earlier]
    by_cases isMoved : definition = inst
    · subst isMoved
      have atSource : block = source := tidy.block_unique inBlock hoist.member rfl
      subst atSource
      exact Or.inr ⟨preheader, hoist.strictly_moved hoist.strict, here⟩
    · left
      refine ⟨definition, ?_, rfl⟩
      have ordered : List.Sublist [definition, user] (F.insts block) := by
        rw [split']
        exact (List.singleton_sublist.mpr earlier).append
          (List.singleton_sublist.mpr List.mem_cons_self)
      have stays : inst ∉ [definition, user] := by
        simp [Ne.symm isMoved, Ne.symm differs]
      exact (Scan.mem_before_iff_sublist (List.Nodup.of_map _ (verified.nodup_insts block))
        split).mpr (moved.sublist stays ordered)
  · right
    by_cases isMoved : definition.id = inst.id
    · have atSource : origin = source := tidy.block_unique defined hoist.member isMoved
      subst atSource
      have above := StrictlyDominates.trans_left reachable hoist.strict strict.2
      exact ⟨preheader, hoist.strictly_moved above, isMoved ▸ here⟩
    · exact ⟨origin, hoist.strictly_moved strict,
        (moved.defines tidy _ _).mpr (Or.inr ⟨isMoved, definition, defined, rfl⟩)⟩

theorem ssa_moved : StrictSSA (F.moveBefore inst preheader) := by
  have tidy := hoist.ssa.toTidy
  have moved := hoist.moved
  have verified := moved.verified hoist.ssa.toVerified hoist.plain hoist.notPhi
  refine { toVerified := verified, usesDominated := ?uses, phisDominated := ?phis }
  case uses =>
    intro block before user after reachable split notPhi id operand
    rw [hoist.reachable_iff] at reachable
    have found : user ∈ (F.moveBefore inst preheader).insts block := by simp [split]
    rcases (moved.mem_insts tidy block user).mp found with ⟨rfl, rfl⟩ | ⟨differs, old⟩
    · exact hoist.moved_uses verified split operand
    · exact hoist.other_uses verified reachable split notPhi differs old operand
  case phis =>
    intro block reachable phi found id edge entry edgeReachable
    rw [hoist.reachable_iff] at reachable edgeReachable
    rcases (moved.mem_insts tidy block phi).mp found with ⟨rfl, _⟩ | ⟨_, old⟩
    · rw [Inst.incoming_of_not_isPhi hoist.notPhi] at entry
      simp at entry
    · have defined := hoist.ssa.phisDominated block reachable phi old id edge entry edgeReachable
      obtain ⟨origin, dominates, still⟩ := hoist.still_dominated defined
      exact ⟨origin, (hoist.dominates_iff _ _).mpr dominates, still⟩

theorem reads_dominated {block : Nat} (reachable : F.Reachable block) (elsewhere : block ≠ source)
    {user : Inst} (found : user ∈ F.insts block) (notPhi : user.isPhi = false)
    (operand : Value.inst inst.id ∈ user.operands) : F.StrictlyDominates source block := by
  obtain ⟨before, after, split⟩ := List.mem_iff_append.mp found
  rcases hoist.ssa.use_after_definition reachable split notPhi operand hoist.member with
    ⟨same, _⟩ | strict
  · exact absurd same elsewhere
  · exact strict

end Hoist

/-- `isSafeToSpeculativelyExecute` refuses phis and terminators. -/
def Refuses (F : Func) : Prop :=
  ∀ inst ∈ F.allInsts, inst.isHoistable = true → inst.isPhi = false ∧ inst.isTerminator = false

section Ready

variable {F : Func} {L : Loop} {inst : Inst} {source preheader : Nat}

theorem Ready.hoist (ssa : StrictSSA F) (natural : L.Natural F) (refuses : Refuses F)
    (target : L.getLoopPreheader = some preheader) {rest : List Inst}
    (ready : Ready F L (inst :: rest)) : ∃ source, Hoist F L inst source preheader := by
  obtain ⟨source, inLoop, member⟩ := ready.inside inst List.mem_cons_self
  obtain ⟨notPhi, plain⟩ := refuses inst ((F.mem_allInsts inst).mpr ⟨source, member⟩)
    (ready.hoistable inst List.mem_cons_self)
  refine ⟨source, ssa, natural, target, inLoop, member, plain, notPhi, ?_⟩
  intro id operand
  rw [Bool.eq_false_iff]
  intro contained
  obtain ⟨other, found, _⟩ := ready.operands [] inst rest rfl id operand contained
  simp at found

theorem Ready.tail {rest : List Inst} (ready : Ready F L (inst :: rest))
    (hoist : Hoist F L inst source preheader) : Ready (F.moveBefore inst preheader) L rest := by
  have moved := hoist.moved
  have tidy := hoist.ssa.toTidy
  obtain ⟨fresh, distinct⟩ := List.nodup_cons.mp ready.distinct
  refine ⟨distinct, fun other found => ready.hoistable other (List.mem_cons_of_mem _ found), ?_, ?_⟩
  · intro other found
    obtain ⟨block, inLoop, member⟩ := ready.inside other (List.mem_cons_of_mem _ found)
    refine ⟨block, inLoop, (moved.mem_insts tidy block other).mpr (Or.inr ⟨?_, member⟩)⟩
    rintro rfl
    exact fresh (List.mem_map_of_mem found)
  · intro before other after split id operand contained
    obtain ⟨block, inLoop, defined⟩ := (L.contains_iff _ id).mp contained
    rcases (moved.defines tidy block id).mp defined with ⟨_, rfl⟩ | ⟨differs, old⟩
    · exact absurd inLoop hoist.before.outside
    · obtain ⟨earlier, found, same⟩ := ready.operands (inst :: before) other after
        (by rw [split]; rfl) id operand ((L.contains_iff F id).mpr ⟨block, inLoop, old⟩)
      rcases List.mem_cons.mp found with rfl | inBefore
      · exact absurd same.symm differs
      · exact ⟨earlier, inBefore, same⟩

theorem Refuses.moved (refuses : Refuses F) (hoist : Hoist F L inst source preheader) :
    Refuses (F.moveBefore inst preheader) :=
  fun other found => refuses other ((hoist.moved.mem_allInsts other).mp found)

end Ready

/-- What LLVM promises about the instructions that pass the three checks. -/
structure Speculation {Val World : Type} (sem : Semantics Val World) (F : Func) : Prop where
  rejects : ∀ inst ∈ F.allInsts, inst.isHoistable = true →
    inst.isPhi = false ∧ inst.isTerminator = false ∧ inst.mayHaveSideEffects = false
  pure : ∀ inst ∈ F.allInsts, inst.isHoistable = true →
    ∃ result : List Val → Val, ∀ values world, sem.exec inst values world = some (result values, world)

theorem Speculation.refuses {Val World : Type} {sem : Semantics Val World} {F : Func}
    (speculation : Speculation sem F) : Refuses F :=
  fun inst member hoistable =>
    have ⟨notPhi, plain, _⟩ := speculation.rejects inst member hoistable
    ⟨notPhi, plain⟩

section Simulation

open FlowGraph

variable {Val World : Type} {sem : Semantics Val World} {args : Nat → Val}

structure Synced (sem : Semantics Val World) (args : Nat → Val) (inst : Inst)
    (result : List Val → Val) (passedSource passedPreheader : Prop) (left right : Nat → Val) :
    Prop where
  agree : Agree (· = inst.id) left right
  same : passedSource → left inst.id = right inst.id
  computed : passedPreheader → right inst.id = result (operandValues sem args inst right)

structure Carried (sem : Semantics Val World) (args : Nat → Val) (F : Func) (inst : Inst)
    (source preheader : Nat) (result : List Val → Val) (left right : State Val World) : Prop where
  block : left.block = right.block
  prev : left.prev = right.prev
  world : left.world = right.world
  reachable : F.Reachable left.block
  first : left.prev = none → left.block = F.entry
  edge : ∀ last, left.prev = some last → F.Reachable last ∧ left.block ∈ F.succs last
  agree : Agree (· = inst.id) left.env right.env
  synced : ∀ last, left.prev = some last →
    Synced sem args inst result (F.Dominates source last) (F.Dominates preheader last) left.env
      right.env

variable {F : Func} {L : Loop} {inst : Inst} {source preheader : Nat} {result : List Val → Val}

theorem operandValues_congr {left right : Nat → Val} {user : Inst}
    (same : ∀ id, Value.inst id ∈ user.operands → left id = right id) :
    operandValues sem args user left = operandValues sem args user right := by
  have agree : Agree (fun id => Value.inst id ∉ user.operands) left right :=
    fun id operand => same id (not_not.mp operand)
  exact operandValues_agree agree fun id operand => not_not.mpr operand

theorem Carried.passed {left right : State Val World}
    (carried : Carried sem args F inst source preheader result left right) {vertex : Nat}
    (strict : F.StrictlyDominates vertex left.block) :
    ∃ last, left.prev = some last ∧ F.Dominates vertex last := by
  cases previous : left.prev with
  | none =>
      have atEntry := carried.first previous
      have same := strict.2
      rw [atEntry] at same
      exact absurd ((dominates_entry same).trans atEntry.symm) strict.1
  | some last => exact ⟨last, rfl, strict.predecessor (carried.edge last previous).2⟩

theorem execInst_hoistable
    (pure : ∀ values world, sem.exec inst values world = some (result values, world))
    (silent : inst.isObserved = false) (env : Nat → Val) (world : World) :
    execInst sem args inst (env, world) =
      ([], some (Function.update env inst.id (result (operandValues sem args inst env)), world)) := by
  simp [execInst, observe, silent, pure]

theorem computed_frame {old new : Nat → Val}
    (computed : old inst.id = result (operandValues sem args inst old))
    (own : new inst.id = old inst.id)
    (operands : ∀ id, Value.inst id ∈ inst.operands → new id = old id) :
    new inst.id = result (operandValues sem args inst new) := by
  rw [own, computed, operandValues_congr operands]

theorem computed_execInsts {insts : List Inst} {start final : (Nat → Val) × World}
    (computed : start.1 inst.id = result (operandValues sem args inst start.1))
    (executed : (execInsts sem args insts start).2 = some final)
    (stays : ∀ other ∈ insts, other.id ≠ inst.id ∧ Value.inst other.id ∉ inst.operands) :
    final.1 inst.id = result (operandValues sem args inst final.1) := by
  apply computed_frame computed (execInsts_frame executed fun other found => (stays other found).1)
  intro id operand
  apply execInsts_frame executed
  rintro other found rfl
  exact (stays other found).2 operand

theorem not_mem_phis (hoist : Hoist F L inst source preheader) {block : Nat} {phi : Inst}
    (found : phi ∈ F.phis block) : phi.id ≠ inst.id := by
  intro same
  have inBlock := List.mem_of_mem_filter found
  have equal : phi = inst := hoist.ssa.inst_unique ((F.mem_allInsts phi).mpr ⟨block, inBlock⟩)
    ((F.mem_allInsts inst).mpr ⟨source, hoist.member⟩) same
  have isPhi := List.of_mem_filter found
  rw [equal, hoist.notPhi] at isPhi
  exact Bool.false_ne_true isPhi

theorem Carried.phis (hoist : Hoist F L inst source preheader) {left right : State Val World}
    (carried : Carried sem args F inst source preheader result left right) :
    (assignPhis sem args left.prev left.env (F.phis left.block) left.env = none ∧
      assignPhis sem args left.prev right.env (F.phis left.block) right.env = none) ∨
    ∃ env env', assignPhis sem args left.prev left.env (F.phis left.block) left.env = some env ∧
      assignPhis sem args left.prev right.env (F.phis left.block) right.env = some env' ∧
      Synced sem args inst result (F.StrictlyDominates source left.block)
        (F.StrictlyDominates preheader left.block) env env' := by
  have reads : ∀ phi ∈ F.phis left.block, ∀ entry ∈ phi.incoming, some entry.2 = left.prev →
      evalValue sem args left.env entry.1 = evalValue sem args right.env entry.1 := by
    rintro phi found ⟨value, last⟩ entry arrived
    have synced := carried.synced last arrived.symm
    cases value with
    | arg index => rfl
    | const id => rfl
    | inst id =>
        by_cases isMoved : id = inst.id
        · subst isMoved
          obtain ⟨origin, dominates, definition, defined, same⟩ :=
            hoist.ssa.phisDominated left.block carried.reachable phi (List.mem_of_mem_filter found)
              inst.id last entry (carried.edge last arrived.symm).1
          have atSource := hoist.ssa.block_unique defined hoist.member same
          exact synced.same (atSource ▸ dominates)
        · exact carried.agree id isMoved
  rcases assignPhis_agree reads carried.agree with ⟨none, none'⟩ | ⟨env, env', some, some', agree⟩
  · exact Or.inl ⟨none, none'⟩
  · have own : ∀ phi ∈ F.phis left.block, phi.id ≠ inst.id :=
      fun phi found => not_mem_phis hoist found
    refine Or.inr ⟨env, env', some, some', agree, ?_, ?_⟩
    · intro strict
      obtain ⟨last, arrived, dominates⟩ := carried.passed strict
      rw [assignPhis_frame some own, assignPhis_frame some' own]
      exact (carried.synced last arrived).same dominates
    · intro strict
      obtain ⟨last, arrived, dominates⟩ := carried.passed strict
      apply computed_frame ((carried.synced last arrived).computed dominates)
        (assignPhis_frame some' own)
      intro id operand
      apply assignPhis_frame some'
      rintro phi found rfl
      exact hoist.operand_not_after strict (List.mem_of_mem_filter found) operand

theorem mem_insts_of_body {block : Nat} {other : Inst} (found : other ∈ F.body block) :
    other ∈ F.insts block ∧ other.isPhi = false := by
  refine ⟨List.mem_of_mem_dropLast (List.mem_of_mem_filter found), ?_⟩
  simpa using List.of_mem_filter found

theorem Synced.arrive (hoist : Hoist F L inst source preheader) {block target : Nat}
    (reachable : F.Reachable block) {last : Inst} (terminator : F.getTerminator block = some last)
    {left right : Nat → Val}
    (synced : Synced sem args inst result (F.Dominates source block) (F.Dominates preheader block)
      left right) (edge : target ∈ last.targets) (value : Val) (world : World) :
    Carried sem args F inst source preheader result
      ⟨target, some block, Function.update left last.id value, world⟩
      ⟨target, some block, Function.update right last.id value, world⟩ := by
  obtain ⟨front, split⟩ := List.getLast?_eq_some_iff.mp terminator
  have isLast : last ∈ F.insts block := by simp [split]
  have isEdge : target ∈ F.succs block := by simpa [Func.succs, terminator] using edge
  have member := (F.mem_allInsts inst).mpr ⟨source, hoist.member⟩
  have notMoved : inst.id ≠ last.id := Ne.symm
    (hoist.ssa.last_id_ne member hoist.plain split (hoist.ssa.terminator_of_last split))
  refine ⟨rfl, rfl, rfl, FlowGraph.Reachable.step reachable isEdge, by simp, ?_,
    synced.agree.update _ _, ?_⟩
  · rintro previous same
    obtain rfl := Option.some.inj same
    exact ⟨reachable, isEdge⟩
  · intro previous same
    obtain rfl := Option.some.inj same
    refine ⟨synced.agree.update _ _, ?_, ?_⟩
    · intro passed
      simpa [notMoved] using synced.same passed
    · intro passed
      apply computed_frame (synced.computed passed) (Function.update_of_ne notMoved _ _)
      intro id operand
      apply Function.update_of_ne
      rintro rfl
      by_cases here : preheader = block
      · subst here
        exact hoist.operand_not_last split member operand
      · exact hoist.operand_not_after ⟨here, passed⟩ isLast operand

structure BodySynced (sem : Semantics Val World) (args : Nat → Val) (F : Func) (inst : Inst)
    (source preheader : Nat) (result : List Val → Val) (block : Nat)
    (left right : List (Event Val) × Option ((Nat → Val) × World)) (differs : Nat → Prop) :
    Prop where
  matched : BodyMatches true differs left right
  unread : ∀ last, F.getTerminator block = some last → ∀ id, .inst id ∈ last.operands → ¬ differs id
  synced : ∀ env env' world, left.2 = some (env, world) → right.2 = some (env', world) →
    Agree differs env env' →
    Synced sem args inst result (F.Dominates source block) (F.Dominates preheader block) env env'

theorem Synced.body_other (hoist : Hoist F L inst source preheader) {block : Nat}
    (reachable : F.Reachable block) (notSource : block ≠ source) (notPreheader : block ≠ preheader)
    {left right : Nat → Val}
    (synced : Synced sem args inst result (F.StrictlyDominates source block)
      (F.StrictlyDominates preheader block) left right) (world : World) :
    BodySynced sem args F inst source preheader result block
      (execInsts sem args (F.body block) (left, world))
      (execInsts sem args (F.body block) (right, world))
      (fun id => id = inst.id ∧ ¬ F.StrictlyDominates source block) := by
  have unread : ∀ user ∈ F.insts block, user.isPhi = false → ∀ id, .inst id ∈ user.operands →
      ¬ (id = inst.id ∧ ¬ F.StrictlyDominates source block) := by
    rintro user found notPhi id operand ⟨rfl, notDominated⟩
    exact notDominated (hoist.reads_dominated reachable notSource found notPhi operand)
  have agree : Agree (fun id => id = inst.id ∧ ¬ F.StrictlyDominates source block) left right := by
    intro id same
    by_cases isMoved : id = inst.id
    · subst isMoved
      exact synced.same (by simpa using same)
    · exact synced.agree id isMoved
  refine ⟨Or.inl (execInsts_agree (fun user found =>
    unread user (mem_insts_of_body found).1 (mem_insts_of_body found).2) agree world), ?_, ?_⟩
  · intro last terminator
    obtain ⟨isLast, notPhi⟩ := hoist.ssa.getTerminator_plain terminator
    exact unread last isLast notPhi
  · intro env env' after _ executed agreeAfter
    refine ⟨fun id other => agreeAfter id fun both => other both.1, ?_, ?_⟩
    · intro dominates
      exact agreeAfter inst.id fun both => both.2 ⟨Ne.symm notSource, dominates⟩
    · intro dominates
      have strict : F.StrictlyDominates preheader block := ⟨Ne.symm notPreheader, dominates⟩
      refine computed_execInsts (synced.computed strict) executed fun other found => ⟨?_, ?_⟩
      · intro same
        exact notSource (hoist.ssa.block_unique (mem_insts_of_body found).1 hoist.member same)
      · exact hoist.operand_not_after strict (mem_insts_of_body found).1

theorem Synced.body_preheader (hoist : Hoist F L inst source preheader)
    (pure : ∀ values world, sem.exec inst values world = some (result values, world))
    (silent : inst.isObserved = false) {left right : Nat → Val}
    (agree : Agree (· = inst.id) left right) (world : World) :
    BodySynced sem args F inst source preheader result preheader
      (execInsts sem args (F.body preheader) (left, world))
      (execInsts sem args (F.body preheader ++ [inst]) (right, world)) (· = inst.id) := by
  have notDominated : ¬ F.Dominates source preheader := fun dominates =>
    hoist.strict.1 (Dominates.antisymm hoist.reachable_preheader hoist.strict.2 dominates)
  have unread : ∀ user ∈ F.insts preheader, user.isPhi = false →
      ∀ id, .inst id ∈ user.operands → ¬ id = inst.id := by
    rintro user found notPhi id operand rfl
    exact notDominated (hoist.reads_dominated hoist.reachable_preheader hoist.strict.1 found
      notPhi operand).2
  obtain ⟨traces, memories⟩ :
      _ ∧ MemoryAgree (· = inst.id) (execInsts sem args (F.body preheader) (left, world)).2 _ :=
    execInsts_agree (fun user found =>
      unread user (mem_insts_of_body found).1 (mem_insts_of_body found).2) agree world
  have unreadLast : ∀ last, F.getTerminator preheader = some last →
      ∀ id, .inst id ∈ last.operands → ¬ id = inst.id := by
    intro last terminator
    obtain ⟨isLast, notPhi⟩ := hoist.ssa.getTerminator_plain terminator
    exact unread last isLast notPhi
  rw [execInsts_append]
  rcases memories.split with ⟨none, none'⟩ | ⟨env, env', next, some, some', agreeNext⟩
  · simp only [none']
    refine ⟨Or.inl ⟨traces, ?_⟩, unreadLast, by simp⟩
    rw [none]
    exact MemoryAgree.undefined
  · simp only [some', execInsts, execInst_hoistable pure silent, List.append_nil]
    have agreeEnd : Agree (· = inst.id) env
        (Function.update env' inst.id (result (operandValues sem args inst env'))) := by
      intro id other
      rw [Function.update_of_ne other]
      exact agreeNext id other
    refine ⟨Or.inl ⟨traces, ?_⟩, unreadLast, ?_⟩
    · rw [some]
      exact MemoryAgree.defined agreeEnd
    · intro final final' after _ executed agreeAfter
      refine ⟨agreeAfter, fun dominates => absurd dominates notDominated, ?_⟩
      intro _
      simp only [Option.some.injEq, Prod.mk.injEq] at executed
      obtain ⟨rfl, _⟩ := executed
      rw [Function.update_self]
      apply congrArg result
      apply operandValues_congr
      intro id operand
      symm
      apply Function.update_of_ne
      rintro rfl
      exact hoist.not_own_operand operand

theorem Hoist.stays (hoist : Hoist F L inst source preheader) {other : Inst}
    (found : other ∈ (F.moveBefore inst preheader).body source) :
    other.id ≠ inst.id ∧ Value.inst other.id ∉ inst.operands := by
  rcases (hoist.moved.mem_insts hoist.ssa.toTidy source other).mp (mem_insts_of_body found).1 with
    ⟨_, same⟩ | ⟨differs, inBlock⟩
  · exact absurd same hoist.moved.apart
  · refine ⟨?_, hoist.operand_not_after hoist.strict inBlock⟩
    intro same
    exact differs (hoist.ssa.inst_unique ((F.mem_allInsts other).mpr ⟨source, inBlock⟩)
      ((F.mem_allInsts inst).mpr ⟨source, hoist.member⟩) same)

theorem Hoist.agree_computed (hoist : Hoist F L inst source preheader) {env env' : Nat → Val}
    (agree : Agree (· = inst.id) env env')
    (computed : env' inst.id = result (operandValues sem args inst env')) :
    Agree (fun _ => False)
      (Function.update env inst.id (result (operandValues sem args inst env))) env' := by
  have values : operandValues sem args inst env = operandValues sem args inst env' := by
    apply operandValues_agree agree
    rintro id operand rfl
    exact hoist.not_own_operand operand
  intro id _
  by_cases isMoved : id = inst.id
  · subst isMoved
    rw [Function.update_self, values, computed]
  · rw [Function.update_of_ne isMoved]
    exact agree id isMoved

theorem Synced.body_source (hoist : Hoist F L inst source preheader)
    (pure : ∀ values world, sem.exec inst values world = some (result values, world))
    (silent : inst.isObserved = false) {left right : Nat → Val}
    (synced : Synced sem args inst result (F.StrictlyDominates source source)
      (F.StrictlyDominates preheader source) left right) (world : World) :
    BodySynced sem args F inst source preheader result source
      (execInsts sem args (F.body source) (left, world))
      (execInsts sem args ((F.moveBefore inst preheader).body source) (right, world))
      (fun _ => False) := by
  obtain ⟨front, back, body, body', earlier⟩ :=
    hoist.moved.body_source hoist.ssa.toTidy hoist.plain hoist.notPhi
  have computed := synced.computed hoist.strict
  have unread : ∀ user ∈ front, ∀ id, .inst id ∈ user.operands → ¬ id = inst.id := by
    rintro user found id operand rfl
    obtain ⟨before, after, split, absent⟩ := earlier user found
    have inBody : user ∈ F.body source := by simp [body, found]
    rcases hoist.ssa.use_after_definition hoist.reachable_source split (mem_insts_of_body inBody).2
      operand hoist.member with ⟨_, inBefore⟩ | strict
    · exact absent inBefore
    · exact strict.1 rfl
  refine ⟨Or.inl ?_, fun _ _ _ _ => not_false, ?_⟩
  · obtain ⟨traces, memories⟩ :
        _ ∧ MemoryAgree (· = inst.id) (execInsts sem args front (left, world)).2 _ :=
      execInsts_agree unread synced.agree world
    rw [body, body', execInsts_append, execInsts_append]
    rcases memories.split with ⟨none, none'⟩ | ⟨env, env', next, some, some', agreeNext⟩
    · simp only [none, none']
      exact ⟨traces, MemoryAgree.undefined⟩
    · have agreeAll := hoist.agree_computed agreeNext (computed_execInsts computed some'
        fun other found => hoist.stays (by simp [body', found]))
      obtain ⟨restTraces, restMemories⟩ :
          _ ∧ MemoryAgree (fun _ => False) (execInsts sem args back _).2 _ :=
        execInsts_agree (fun _ _ _ _ => not_false) agreeAll next
      simp only [some, some', execInsts, execInst_hoistable pure silent, List.nil_append]
      exact ⟨by rw [traces, restTraces], restMemories⟩
  · intro final final' after _ executed agreeAfter
    exact ⟨fun id _ => agreeAfter id not_false, fun _ => agreeAfter inst.id not_false,
      fun _ => computed_execInsts computed executed fun _ => hoist.stays⟩

theorem Carried.step (hoist : Hoist F L inst source preheader)
    (pure : ∀ values world, sem.exec inst values world = some (result values, world))
    (silent : inst.isObserved = false) {left right : State Val World}
    (carried : Carried sem args F inst source preheader result left right) :
    Matches true (Carried sem args F inst source preheader result) (runBlock sem args F left)
      (runBlock sem args (F.moveBefore inst preheader) right) := by
  have moved := hoist.moved
  obtain ⟨block, prev, env, world⟩ := left
  obtain ⟨block', prev', env', world'⟩ := right
  obtain ⟨rfl, rfl, rfl⟩ : block = block' ∧ prev = prev' ∧ world = world' :=
    ⟨carried.block, carried.prev, carried.world⟩
  have reachable : F.Reachable block := carried.reachable
  simp only [runBlock, moved.phis hoist.notPhi,
    moved.getTerminator hoist.ssa.toTidy hoist.plain]
  rcases carried.phis hoist with ⟨none, none'⟩ | ⟨start, start', some, some', synced⟩
  · simp only [none, none']
    exact Or.inl ⟨rfl, Outcome.Rel.undefined⟩
  · simp only [some, some']
    obtain ⟨differs, bodies⟩ : ∃ differs, BodySynced sem args F inst source preheader result block
        (execInsts sem args (F.body block) (start, world))
        (execInsts sem args ((F.moveBefore inst preheader).body block) (start', world)) differs := by
      by_cases atSource : block = source
      · subst atSource
        exact ⟨_, synced.body_source hoist pure silent world⟩
      · by_cases atPreheader : block = preheader
        · subst atPreheader
          rw [moved.body_target hoist.notPhi]
          exact ⟨_, Synced.body_preheader hoist pure silent synced.agree world⟩
        · rw [moved.body_other atSource atPreheader]
          exact ⟨_, synced.body_other hoist reachable atSource atPreheader world⟩
    apply execBody_matches bodies.matched bodies.unread
    intro final final' after executed executed' agree last terminator target edge value after'
    exact (bodies.synced final final' after executed executed' agree).arrive hoist reachable
      terminator edge value after'

theorem hoist_preserves (hoist : Hoist F L inst source preheader)
    (pure : ∀ values world, sem.exec inst values world = some (result values, world))
    (silent : inst.isObserved = false) : Preserves sem F (F.moveBefore inst preheader) := by
  apply Preserves.of_step fun args => Carried sem args F inst source preheader result
  · intro args left right carried
    exact ⟨carried.block, carried.world⟩
  · intro args env world
    exact ⟨rfl, rfl, rfl, F.entry_reachable, fun _ => rfl, by simp [State.start],
      Agree.refl _ env, by simp [State.start]⟩
  · intro args left right carried
    exact carried.step hoist pure silent

theorem Speculation.moved (speculation : Speculation sem F)
    (hoist : Hoist F L inst source preheader) : Speculation sem (F.moveBefore inst preheader) :=
  ⟨fun other found => speculation.rejects other ((hoist.moved.mem_allInsts other).mp found),
    fun other found => speculation.pure other ((hoist.moved.mem_allInsts other).mp found)⟩

theorem Inst.silent_of_isHoistable (hoistable : inst.isHoistable = true)
    (plain : inst.isTerminator = false) (noEffects : inst.mayHaveSideEffects = false) :
    inst.isObserved = false := by
  simp only [Inst.isHoistable, Bool.and_eq_true, Bool.not_eq_true'] at hoistable
  simp [Inst.isObserved, plain, noEffects, hoistable]

inductive Hoists (sem : Semantics Val World) (L : Loop) (preheader : Nat) (F : Func) : Func → Prop
  | step {inst : Inst} {source : Nat} : Hoist F L inst source preheader → inst.isHoistable = true →
      Speculation sem F → Hoists sem L preheader F (F.moveBefore inst preheader)

theorem Hoists.preserves {G : Func} (step : Hoists sem L preheader F G) : Preserves sem F G := by
  obtain ⟨hoist, hoistable, speculation⟩ := step
  have member := (F.mem_allInsts _).mpr ⟨_, hoist.member⟩
  obtain ⟨result, pure⟩ := speculation.pure _ member hoistable
  exact hoist_preserves hoist pure (Inst.silent_of_isHoistable hoistable hoist.plain
    (speculation.rejects _ member hoistable).2.2)

theorem hoists_foldl {invStmts : List Inst} (ssa : StrictSSA F) (natural : L.Natural F)
    (speculation : Speculation sem F) (target : L.getLoopPreheader = some preheader)
    (ready : Ready F L invStmts) :
    Relation.ReflTransGen (Hoists sem L preheader) F
      (invStmts.foldl (fun F inst => F.moveBefore inst preheader) F) := by
  induction invStmts generalizing F with
  | nil => exact .refl
  | cons inst rest ih =>
      obtain ⟨source, hoist⟩ := ready.hoist ssa natural speculation.refuses target
      refine .head (.step hoist (ready.hoistable inst List.mem_cons_self) speculation) ?_
      exact ih hoist.ssa_moved hoist.natural_moved (speculation.moved hoist) (ready.tail hoist)

theorem hoists_of_runOnLoop (ssa : StrictSSA F) (natural : L.Natural F)
    (speculation : Speculation sem F) {fuel : Nat} {G : Func} {modified : Bool}
    (returns : LICM.runOnLoop F L fuel = some (G, modified)) :
    ∃ preheader, Relation.ReflTransGen (Hoists sem L preheader) F G := by
  rcases runOnLoop_cases ssa.toTidy natural returns with
    ⟨rfl, _⟩ | ⟨preheader, invStmts, target, ready, rfl, _⟩
  · exact ⟨0, .refl⟩
  · exact ⟨preheader, hoists_foldl ssa natural speculation target ready⟩

/-- Loop invariant code motion does not change what a function does. -/
theorem loopInvariant_preserves (ssa : StrictSSA F) (natural : L.Natural F)
    (speculation : Speculation sem F) {fuel : Nat} {G : Func} {modified : Bool}
    (returns : LICM.runOnLoop F L fuel = some (G, modified)) : Preserves sem F G := by
  obtain ⟨preheader, steps⟩ := hoists_of_runOnLoop ssa natural speculation returns
  clear returns
  induction steps with
  | refl => exact Preserves.refl sem F
  | tail _ step ih => exact ih.trans step.preserves

end Simulation

theorem Loop.natural_of_certificate {F : Func} {L : Loop} {dominators : Nat → List Nat}
    {preheader : Nat} (valid : ValidCfg F)
    (certified : ∀ block ∈ F.blockIds, F.dominatorsCertified dominators block = true)
    (reachable : ∀ block ∈ L.getBlocks, F.Reachable block) (nodup : L.getBlocks.Nodup)
    (above : ∀ block ∈ L.getBlocks, block ≠ L.header → L.header ∈ dominators block)
    (found : L.getLoopPreheader = some preheader) (outside : preheader ∉ L.getBlocks)
    (leads : F.succs preheader = [L.header])
    (edges : ∀ source < F.blocks.length, ∀ target ∈ F.succs source, source ∉ L.getBlocks →
      target ∈ L.getBlocks → source = preheader ∧ target = L.header) : L.Natural F := by
  have header : L.header ∈ L.getBlocks := List.mem_cons_self
  refine ⟨nodup, ⟨header, reachable, ?_, ?_⟩, ?_⟩
  · intro block inLoop
    by_cases isHeader : block = L.header
    · exact isHeader ▸ FlowGraph.Dominates.refl _
    · exact (certified_strict valid certified (reachable block inLoop)
        (above block inLoop isHeader)).2
  · intro source target _ edge leaves entered
    exact (edges source (F.lt_length_of_mem_succs edge) target edge leaves entered).2
  · intro other isPreheader
    obtain rfl : preheader = other := Option.some.inj (found.symm.trans isPreheader)
    refine ⟨outside, by simp [leads], by simp [leads], ?_⟩
    intro source edge leaves
    exact (edges source (F.lt_length_of_mem_succs edge) L.header edge leaves header).1

def sampleNest : Loop := ⟨1, [2], some 0, fun block => decide (block = 1 ∨ block = 2)⟩

theorem sampleNest_natural : sampleNest.Natural sampleLoop := by
  have small : ∀ block ∈ sampleNest.getBlocks, block < 4 := by decide
  exact Loop.natural_of_certificate sampleLoop_ssa.toValidCfg
    (show ∀ block ∈ _, sampleLoop.dominatorsCertified sampleDominators block = true by
      decide +kernel)
    (fun block inLoop => sampleLoop_reachable block (small block inLoop)) (by decide) (by decide)
    rfl (by decide) (by decide) (by decide)

def sampleHoisted : Func :=
  sampleLoop.moveBefore
    { id := 4, name := "s", shape := .binary .Add (.inst 0) (.arg 0)
      isSafeToSpeculativelyExecute := true } 0

theorem sampleSpeculation : Speculation sampleSemantics sampleLoop := by
  have rejects : ∀ inst ∈ sampleLoop.allInsts, inst.isHoistable = true →
      inst.isPhi = false ∧ inst.isTerminator = false ∧ inst.mayHaveSideEffects = false := by
    decide
  refine ⟨rejects, ?_⟩
  intro inst member hoistable
  refine ⟨List.sum, ?_⟩
  intro values world
  simp [sampleSemantics, (rejects inst member hoistable).2.2]

theorem sampleNest_returns :
    LICM.runOnLoop sampleLoop sampleNest 8 = some (sampleHoisted, true) := by
  decide +kernel

theorem loopInvariant_preserves_sampleLoop :
    LICM.runOnLoop sampleLoop sampleNest 8 = some (sampleHoisted, true) ∧
      Preserves sampleSemantics sampleLoop sampleHoisted :=
  ⟨sampleNest_returns,
    loopInvariant_preserves sampleLoop_ssa sampleNest_natural sampleSpeculation sampleNest_returns⟩

end LlvmGather
