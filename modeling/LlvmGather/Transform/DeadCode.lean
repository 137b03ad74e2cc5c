import LlvmGather.Analysis.StrongLiveness
import LlvmGather.Ir.Edit
import LlvmGather.Ir.Simulation

/-!
The deletion in `DeadCodeElimination.cpp`. The analysis decides what is tried; what is
really erased is only what nothing refers to at that moment, and this alone makes every
single deletion invisible.
-/

namespace LlvmGather

namespace DCE

/-- `deleteSet`: the instructions of a block that are not strongly live at its start. -/
def deleteSet (domain : List Value) (output : DataFlowResult Value) (F : Func) (block : Nat) :
    List Inst :=
  (F.insts block).reverse.filter fun inst =>
    !inst.isAlwaysLive && decide (Value.inst inst.id ∈ domain) &&
      !(output.result block).inVec.test (indexAt output.domainToIndex (.inst inst.id))

def eraseUnused (F : Func) (inst : Inst) : Func :=
  if F.useEmpty inst.id then F.eraseFromParent inst.id else F

/-- `modified` is set for every instruction that is tried, erased or not. -/
def visitBlock (domain : List Value) (output : DataFlowResult Value) (state : Func × Bool)
    (block : Nat) : Func × Bool :=
  let tried := deleteSet domain output state.1 block
  (tried.foldl eraseUnused state.1, state.2 || !tried.isEmpty)

/-- Terminators are never erased, so the post-order can be taken before the deletions. -/
def runOnFunction (fuel : Nat) (F : Func) : Option (Func × Bool) :=
  (runDce fuel F).map fun output =>
    F.postOrder.foldl (visitBlock (dceDomain F) output) (F, false)

end DCE

section Simulation

variable {Val World : Type}

/-- What LLVM means by the absence of side effects: the rest of the world stays as it is.
The instruction may still have undefined behaviour, as a division may. -/
def Semantics.EffectFree (sem : Semantics Val World) : Prop :=
  ∀ inst values world value world', inst.isAlwaysLive = false →
    sem.exec inst values world = some (value, world') → world' = world

theorem Inst.not_isObserved {inst : Inst} (dead : inst.isAlwaysLive = false) :
    inst.isObserved = false := by
  simp only [Inst.isAlwaysLive, Bool.or_eq_false_iff] at dead
  simp [Inst.isObserved, dead]

theorem Inst.not_isTerminator {inst : Inst} (dead : inst.isAlwaysLive = false) :
    inst.isTerminator = false := by
  simp only [Inst.isAlwaysLive, Bool.or_eq_false_iff] at dead
  exact dead.1.1.1

variable {sem : Semantics Val World} {args : Nat → Val} {erased : Nat}

theorem Agree.update_left {differs : Nat → Prop} {left right : Nat → Val}
    (agree : Agree differs left right) {id : Nat} (differing : differs id) (value : Val) :
    Agree differs (Function.update left id value) right := by
  intro other same
  have distinct : other ≠ id := by
    intro equal
    exact same (equal ▸ differing)
  rw [Function.update_of_ne distinct]
  exact agree other same

theorem assignPhis_erase {prev : Option Nat} {old old' : Nat → Val} {phis : List Inst}
    (unread : ∀ inst ∈ phis, Value.inst erased ∉ inst.operands)
    (olds : Agree (· = erased) old old') {left right final : Nat → Val}
    (agree : Agree (· = erased) left right)
    (assigned : assignPhis sem args prev old phis left = some final) :
    ∃ final', assignPhis sem args prev old' (phis.filter (·.id ≠ erased)) right = some final' ∧
      Agree (· = erased) final final' := by
  induction phis generalizing left right with
  | nil =>
      obtain rfl := Option.some.inj assigned
      exact ⟨right, rfl, agree⟩
  | cons inst rest ih =>
      have restUnread := fun other member => unread other (List.mem_cons_of_mem inst member)
      simp only [assignPhis] at assigned
      cases value : phiValue sem args prev old inst with
      | none => simp [value] at assigned
      | some result =>
          simp only [value] at assigned
          by_cases gone : inst.id = erased
          · rw [List.filter_cons_of_neg (by simpa using gone)]
            exact ih restUnread (agree.update_left gone result) assigned
          · have value' : phiValue sem args prev old' inst = some result := by
              rw [← value]
              unfold phiValue
              cases found : inst.incoming.find? (some ·.2 = prev) with
              | none => rfl
              | some entry =>
                  have operand : entry.1 ∈ inst.operands :=
                    Inst.mem_operands_of_mem_incoming (List.mem_of_find?_eq_some found)
                  refine congrArg some (evalValue_agree olds ?_).symm
                  intro id same isErased
                  exact unread inst List.mem_cons_self (isErased ▸ same ▸ operand)
            rw [List.filter_cons_of_pos (by simpa using gone)]
            simp only [assignPhis, value']
            exact ih restUnread (agree.update inst.id result) assigned

theorem execInsts_erase (effectFree : sem.EffectFree) {insts : List Inst}
    (unread : ∀ inst ∈ insts, Value.inst erased ∉ inst.operands)
    (dead : ∀ inst ∈ insts, inst.id = erased → inst.isAlwaysLive = false)
    {left right : Nat → Val} (agree : Agree (· = erased) left right) (world : World) :
    BodyMatches false (· = erased) (execInsts sem args insts (left, world))
      (execInsts sem args (insts.filter (·.id ≠ erased)) (right, world)) := by
  induction insts generalizing left right world with
  | nil => exact Or.inl ⟨rfl, MemoryAgree.defined agree⟩
  | cons inst rest ih =>
      have restUnread := fun other member => unread other (List.mem_cons_of_mem inst member)
      have restDead := fun other member => dead other (List.mem_cons_of_mem inst member)
      by_cases gone : inst.id = erased
      · -- the left side executes the erased instruction, the right side stays
        have notLive := dead inst List.mem_cons_self gone
        have silent : (execInst sem args inst (left, world)).1 = [] := by
          simp [execInst, observe, Inst.not_isObserved notLive]
        rw [List.filter_cons_of_neg (by simpa using gone)]
        simp only [execInsts, silent]
        cases result : sem.exec inst (operandValues sem args inst left) world with
        | none => exact Or.inr ⟨rfl, by simp [execInst, result], by simp [execInst, result]⟩
        | some pair =>
            obtain ⟨value, world'⟩ := pair
            obtain rfl := effectFree inst _ _ _ _ notLive result
            simp only [execInst, result, Option.map_some, List.nil_append]
            exact ih restUnread restDead (agree.update_left gone value) world'
      · obtain ⟨traces, memories⟩ :
            (execInst sem args inst (left, world)).1 = (execInst sem args inst (right, world)).1 ∧
            MemoryAgree (· = erased) (execInst sem args inst (left, world)).2
              (execInst sem args inst (right, world)).2 := by
          apply execInst_agree _ agree world
          rintro id operand rfl
          exact unread inst List.mem_cons_self operand
        rw [List.filter_cons_of_pos (by simpa using gone)]
        simp only [execInsts, traces]
        rcases memories.split with ⟨none, none'⟩ | ⟨env, env', next, some, some', nextAgree⟩
        · simp only [none, none']
          exact Or.inl ⟨rfl, MemoryAgree.undefined⟩
        · simp only [some, some']
          rcases ih restUnread restDead nextAgree next with ⟨equal, rests⟩ | ⟨_, stopped, before⟩
          · exact Or.inl ⟨by rw [equal], rests⟩
          · exact Or.inr ⟨rfl, stopped, (List.prefix_append_right_inj _).mpr before⟩

end Simulation

theorem phis_eraseFromParent (F : Func) (id block : Nat) :
    (F.eraseFromParent id).phis block = (F.phis block).filter (·.id ≠ id) := by
  simp only [Func.phis, F.insts_eraseFromParent, List.filter_filter, Bool.and_comm]

theorem Tidy.body_erase {F : Func} (tidy : Tidy F) {inst : Inst} (member : inst ∈ F.allInsts)
    (plain : inst.isTerminator = false) (block : Nat) :
    (F.eraseFromParent inst.id).body block = (F.body block).filter (·.id ≠ inst.id) ∧
      (F.eraseFromParent inst.id).getTerminator block = F.getTerminator block := by
  by_cases bound : block < F.blocks.length
  · obtain ⟨body, last, split, terminator, _⟩ := tidy.terminated block bound
    have erased := tidy.insts_erase member plain split terminator
    refine ⟨?_, by simp [Func.getTerminator, erased, split]⟩
    simp only [Func.body, erased, split, List.dropLast_concat, List.filter_filter, Bool.and_comm]
  · have beyond := F.insts_of_length_le (Nat.le_of_not_lt bound)
    simp [Func.body, Func.getTerminator, F.insts_eraseFromParent, beyond]

inductive Erases (F : Func) : Func → Prop
  | step {inst : Inst} : inst ∈ F.allInsts → inst.isAlwaysLive = false →
      F.useEmpty inst.id = true → Erases F (F.eraseFromParent inst.id)

section Chain

open Relation (ReflTransGen)

variable {F G : Func}

theorem Tidy.of_erases (tidy : Tidy F) (steps : ReflTransGen Erases F G) : Tidy G := by
  induction steps with
  | refl => exact tidy
  | tail _ step ih =>
      obtain ⟨member, dead, unused⟩ := step
      exact ih.erase member (Inst.not_isTerminator dead) unused

theorem erases_eraseUnused {inst : Inst} (member : inst ∈ G.allInsts)
    (dead : inst.isAlwaysLive = false) : ReflTransGen Erases G (DCE.eraseUnused G inst) := by
  unfold DCE.eraseUnused
  split
  · next unused => exact .single (.step member dead unused)
  · exact .refl

theorem erases_foldl {tried : List Inst} (members : ∀ inst ∈ tried, inst ∈ G.allInsts)
    (dead : ∀ inst ∈ tried, inst.isAlwaysLive = false) (distinct : (tried.map Inst.id).Nodup) :
    ReflTransGen Erases G (tried.foldl DCE.eraseUnused G) := by
  induction tried generalizing G with
  | nil => exact .refl
  | cons inst rest ih =>
      obtain ⟨fresh, restDistinct⟩ := List.nodup_cons.mp distinct
      refine (erases_eraseUnused (members inst List.mem_cons_self)
        (dead inst List.mem_cons_self)).trans (ih ?_ ?_ restDistinct)
      · intro other later
        have old := members other (List.mem_cons_of_mem inst later)
        unfold DCE.eraseUnused
        split
        · refine (G.mem_allInsts_eraseFromParent _ _).mpr ⟨old, ?_⟩
          intro same
          exact fresh (List.mem_map.mpr ⟨other, later, same⟩)
        · exact old
      · exact fun other later => dead other (List.mem_cons_of_mem inst later)

theorem erases_visitBlock (domain : List Value) (output : DataFlowResult Value)
    {state : Func × Bool} (tidy : Tidy state.1) (block : Nat) :
    ReflTransGen Erases state.1 (DCE.visitBlock domain output state block).1 := by
  apply erases_foldl
  · intro inst tried
    have inBlock := List.mem_reverse.mp (List.mem_of_mem_filter tried)
    exact (state.1.mem_allInsts inst).mpr ⟨block, inBlock⟩
  · intro inst tried
    have chosen := List.of_mem_filter tried
    simp only [Bool.and_eq_true, Bool.not_eq_true'] at chosen
    exact chosen.1.1
  · have reversed : ((state.1.insts block).reverse.map Inst.id).Nodup := by
      rw [List.map_reverse]
      exact List.nodup_reverse.mpr (tidy.nodup_insts block)
    exact reversed.sublist (List.filter_sublist.map Inst.id)

theorem erases_runOnFunction (tidy : Tidy F) {fuel : Nat} {modified : Bool}
    (returns : DCE.runOnFunction fuel F = some (G, modified)) : ReflTransGen Erases F G := by
  obtain ⟨output, _, visited⟩ := Option.map_eq_some_iff.mp returns
  have all : ∀ (blocks : List Nat) (state : Func × Bool), Tidy state.1 →
      ReflTransGen Erases state.1
        (blocks.foldl (DCE.visitBlock (dceDomain F) output) state).1 := by
    intro blocks
    induction blocks with
    | nil => exact fun _ _ => .refl
    | cons block rest ih =>
        intro state tidy
        have first := erases_visitBlock (dceDomain F) output tidy block
        exact first.trans (ih _ (tidy.of_erases first))
  have final := all F.postOrder (F, false) tidy
  rwa [visited] at final

end Chain

section Erase

variable {Val World : Type} {sem : Semantics Val World}

theorem erase_refines (effectFree : sem.EffectFree) {F : Func} (tidy : Tidy F) {inst : Inst}
    (member : inst ∈ F.allInsts) (dead : inst.isAlwaysLive = false)
    (unused : F.useEmpty inst.id = true) : Refines sem F (F.eraseFromParent inst.id) := by
  have unread := (F.useEmpty_iff inst.id).mp unused
  have unreadIn : ∀ {block : Nat} {user : Inst}, user ∈ F.insts block →
      Value.inst inst.id ∉ user.operands :=
    fun inBlock => unread _ ((F.mem_allInsts _).mpr ⟨_, inBlock⟩)
  apply Refines.of_step fun _ left right => left.block = right.block ∧ left.prev = right.prev ∧
    left.world = right.world ∧ Agree (· = inst.id) left.env right.env
  · rintro _ left right ⟨blocks, _, worlds, _⟩
    exact ⟨blocks, worlds⟩
  · intro _ env world
    exact ⟨rfl, rfl, rfl, Agree.refl _ env⟩
  · rintro args ⟨block, prev, env, world⟩ ⟨_, _, env', _⟩ ⟨rfl, rfl, rfl, agree⟩
    obtain ⟨body, last⟩ := tidy.body_erase member (Inst.not_isTerminator dead) block
    simp only [runBlock, phis_eraseFromParent, body, last]
    cases assigned : assignPhis sem args prev env (F.phis block) env with
    | none => exact Or.inr ⟨rfl, rfl, List.nil_prefix⟩
    | some start =>
        have phisUnread : ∀ phi ∈ F.phis block, Value.inst inst.id ∉ phi.operands :=
          fun phi inPhis => unreadIn (List.mem_of_mem_filter inPhis)
        obtain ⟨start', assigned', starts⟩ := assignPhis_erase phisUnread agree agree assigned
        simp only at assigned'
        rw [assigned']
        apply execBody_matches
        · apply execInsts_erase effectFree _ _ starts
          · intro user inBody
            exact unreadIn (List.mem_of_mem_dropLast (List.mem_of_mem_filter inBody))
          · intro other inBody same
            have inBlock := List.mem_of_mem_dropLast (List.mem_of_mem_filter inBody)
            rwa [tidy.inst_unique ((F.mem_allInsts other).mpr ⟨block, inBlock⟩) member same]
        · rintro user terminator id operand rfl
          exact unreadIn (List.mem_of_getLast? terminator) operand
        · intro left right _ _ _ agreeAfter user _ target _ value _
          exact ⟨rfl, rfl, rfl, agreeAfter.update user.id value⟩

theorem refines_of_erases (effectFree : sem.EffectFree) {F G : Func} (tidy : Tidy F)
    (steps : Relation.ReflTransGen Erases F G) : Refines sem F G := by
  induction steps with
  | refl => exact Refines.refl sem F
  | tail before step ih =>
      obtain ⟨member, dead, unused⟩ := step
      exact ih.trans (erase_refines effectFree (tidy.of_erases before) member dead unused)

/-- Dead code elimination returns, and what it returns does the same as the original and
has no reference to an erased instruction. -/
theorem deadCode_preserves (effectFree : sem.EffectFree) {F : Func} (ssa : StrictSSA F) :
    (∃ enough, ∀ fuel, enough ≤ fuel → ∃ result, DCE.runOnFunction fuel F = some result) ∧
    ∀ fuel G modified, DCE.runOnFunction fuel F = some (G, modified) →
      Refines sem F G ∧
      ∀ user ∈ G.allInsts, ∀ id, Value.inst id ∈ user.operands →
        ∃ definition ∈ G.allInsts, definition.id = id := by
  constructor
  · obtain ⟨enough, total⟩ := runDce_total ssa.toVerified
    refine ⟨enough, ?_⟩
    intro fuel bound
    obtain ⟨output, returns⟩ := total fuel bound
    exact ⟨_, Option.map_eq_some_iff.mpr ⟨output, returns, rfl⟩⟩
  · intro fuel G modified returns
    have steps := erases_runOnFunction ssa.toTidy returns
    exact ⟨refines_of_erases effectFree ssa.toTidy steps, (ssa.toTidy.of_erases steps).operandsDefined⟩

end Erase

theorem sampleSemantics_effectFree : sampleSemantics.EffectFree := by
  intro inst values world value world' dead result
  simp only [Inst.isAlwaysLive, Bool.or_eq_false_iff] at dead
  simp only [sampleSemantics, dead.2, Option.some.injEq, Prod.mk.injEq] at result
  exact result.2.symm

theorem deadCode_preserves_sampleLoop :
    (∃ enough, ∀ fuel, enough ≤ fuel → ∃ result,
      DCE.runOnFunction fuel sampleLoop = some result) ∧
    ∀ fuel G modified, DCE.runOnFunction fuel sampleLoop = some (G, modified) →
      Refines sampleSemantics sampleLoop G ∧
      ∀ user ∈ G.allInsts, ∀ id, Value.inst id ∈ user.operands →
        ∃ definition ∈ G.allInsts, definition.id = id :=
  deadCode_preserves sampleSemantics_effectFree sampleLoop_ssa

end LlvmGather
