import LlvmGather.Ir.Ssa
import Mathlib.Data.List.TakeWhile

/-!
A check that a concrete function is in strict SSA form. Dominance is not computed: the
check is given sets of blocks, and accepts them as strict dominators if they follow
from those of the predecessors.
-/

namespace LlvmGather

def Func.dominatorsCertified (F : Func) (dominators : Nat → List Nat) (block : Nat) : Bool :=
  (dominators block).all fun vertex => decide (block ≠ F.entry) &&
    (F.preds block).all fun source => decide (vertex = source ∨ vertex ∈ dominators source)

def Func.definedIds (F : Func) (block : Nat) : List Nat := (F.insts block).map Inst.id

def Func.usesCertified (F : Func) (dominators : Nat → List Nat) (block : Nat) : Bool :=
  (List.range (F.insts block).length).all fun position =>
    match (F.insts block)[position]? with
    | none => true
    | some inst => inst.isPhi || inst.operands.all fun value =>
        match value with
        | .inst id => decide (id ∈ ((F.insts block).take position).map Inst.id) ||
            (dominators block).any fun source => decide (id ∈ F.definedIds source)
        | _ => true

def Func.phisCertified (F : Func) (dominators : Nat → List Nat) (block : Nat) : Bool :=
  (F.insts block).all fun inst => inst.incoming.all fun entry =>
    match entry.1 with
    | .inst id => (entry.2 :: dominators entry.2).any fun source => decide (id ∈ F.definedIds source)
    | _ => true

def Func.blockVerified (F : Func) (block : Nat) : Bool :=
  (match (F.insts block).getLast? with
    | some last => last.isTerminator
    | none => false) &&
  (F.insts block).dropLast.all (fun inst => !inst.isTerminator) &&
  ((F.insts block).dropWhile Inst.isPhi).all (fun inst => !inst.isPhi) &&
  (F.succs block).all (fun target => decide (target < F.blocks.length ∧ target ≠ F.entry)) &&
  (F.insts block).all fun inst => !inst.isPhi ||
    (inst.incoming.all (fun entry => decide (block ∈ F.succs entry.2)) &&
      (F.preds block).all fun source => decide (source ∈ inst.incoming.map Prod.snd))

def Func.namesVerified (F : Func) : Bool :=
  F.allInsts.all fun first => decide (first.name = "") ||
    (decide (first.name ∉ F.argNames) &&
      F.allInsts.all fun second => decide (second.name = first.name → second.id = first.id))

def Func.operandsVerified (F : Func) : Bool :=
  F.allInsts.all fun inst => inst.operands.all fun value =>
    match value with
    | .inst id => decide (id ∈ F.allInsts.map Inst.id)
    | _ => true

def Func.terminatorsVerified (F : Func) : Bool :=
  F.allInsts.all fun last => !last.isTerminator ||
    last.targets.any (fun target => decide (target ≠ last.targets.headD 0)) ||
    F.allInsts.all fun user => decide (Value.inst last.id ∉ user.operands)

def Func.checkSsa (F : Func) (dominators : Nat → List Nat) : Bool :=
  !F.blocks.isEmpty && decide (F.allInsts.map Inst.id).Nodup && F.namesVerified &&
  F.operandsVerified && F.terminatorsVerified && F.blockIds.all F.blockVerified &&
  F.blockIds.all (F.dominatorsCertified dominators) &&
  F.blockIds.all (F.usesCertified dominators) && F.blockIds.all (F.phisCertified dominators)

variable {F : Func} {dominators : Nat → List Nat}

theorem mem_definedIds {block id : Nat} : id ∈ F.definedIds block ↔ F.Defines block id := by
  simp [Func.definedIds, Func.Defines]

structure BlockVerified (F : Func) (block : Nat) : Prop where
  terminated : ∃ body last, F.insts block = body ++ [last] ∧ last.isTerminator = true ∧
    ∀ inst ∈ body, inst.isTerminator = false
  phisFirst : ∃ phis rest, F.insts block = phis ++ rest ∧
    (∀ inst ∈ phis, inst.isPhi = true) ∧ ∀ inst ∈ rest, inst.isPhi = false
  targets : ∀ target ∈ F.succs block, target < F.blocks.length ∧ target ≠ F.entry
  phiIncoming : ∀ inst ∈ F.insts block, inst.isPhi = true →
    ∀ source, (∃ value, (value, source) ∈ inst.incoming) ↔ block ∈ F.succs source

theorem blockVerified_sound {block : Nat} (check : F.blockVerified block = true) :
    BlockVerified F block := by
  simp only [Func.blockVerified, Bool.and_eq_true, List.all_eq_true, Bool.not_eq_true',
    decide_eq_true_eq, Bool.or_eq_true] at check
  obtain ⟨⟨⟨⟨last, body⟩, phis⟩, targets⟩, incoming⟩ := check
  refine ⟨?_, ?_, targets, ?_⟩
  · split at last
    · rename_i final found
      obtain ⟨front, split⟩ := List.getLast?_eq_some_iff.mp found
      rw [split, List.dropLast_concat] at body
      exact ⟨front, final, split, last, body⟩
    · exact absurd last Bool.false_ne_true
  · exact ⟨(F.insts block).takeWhile Inst.isPhi, (F.insts block).dropWhile Inst.isPhi,
      List.takeWhile_append_dropWhile.symm, fun inst => List.mem_takeWhile_imp, phis⟩
  · intro inst member phi source
    obtain ⟨entries, sources⟩ := (incoming inst member).resolve_left (by simp [phi])
    constructor
    · rintro ⟨value, entry⟩
      exact entries (value, source) entry
    · intro edge
      have isPred := (F.mem_preds block source).mpr ⟨F.lt_length_of_mem_succs edge, edge⟩
      obtain ⟨⟨value, other⟩, entry, rfl⟩ := List.mem_map.mp (sources source isPred)
      exact ⟨value, entry⟩

theorem namesVerified_sound (check : F.namesVerified = true) :
    ∀ first ∈ F.allInsts, first.name ≠ "" →
      (∀ second ∈ F.allInsts, second.name = first.name → second.id = first.id) ∧
      first.name ∉ F.argNames := by
  intro first member named
  simp only [Func.namesVerified, List.all_eq_true, Bool.or_eq_true, Bool.and_eq_true,
    decide_eq_true_eq] at check
  obtain ⟨notArgument, unique⟩ := (check first member).resolve_left named
  exact ⟨unique, notArgument⟩

theorem operandsVerified_sound (check : F.operandsVerified = true) :
    ∀ inst ∈ F.allInsts, ∀ id, Value.inst id ∈ inst.operands →
      ∃ definition ∈ F.allInsts, definition.id = id := by
  intro inst member id operand
  simp only [Func.operandsVerified, List.all_eq_true] at check
  simpa using check inst member (.inst id) operand

theorem terminatorsVerified_sound (check : F.terminatorsVerified = true) :
    ∀ last ∈ F.allInsts, last.isTerminator = true →
      ∀ target, (∀ other ∈ last.targets, other = target) →
        ∀ user ∈ F.allInsts, Value.inst last.id ∉ user.operands := by
  intro last member terminator target single
  simp only [Func.terminatorsVerified, List.all_eq_true, Bool.or_eq_true, Bool.not_eq_true',
    List.any_eq_true, decide_eq_true_eq] at check
  rcases check last member with (plain | ⟨other, inside, differs⟩) | unused
  · rw [terminator] at plain
    exact absurd plain (by simp)
  · cases targets : last.targets with
    | nil => simp [targets] at inside
    | cons first rest =>
        rw [targets] at inside differs single
        exact absurd ((single other inside).trans (single first (by simp)).symm) differs
  · exact unused

open FlowGraph in
theorem certified_passed (valid : ValidCfg F)
    (certified : ∀ block ∈ F.blockIds, F.dominatorsCertified dominators block = true)
    {trail : List Nat} {block vertex : Nat} (walk : Walk F.succs F.entry trail block)
    (member : vertex ∈ dominators block) : vertex ∈ trail := by
  have inside : ∀ {block}, F.Reachable block → block ∈ F.blockIds :=
    fun reachable => List.mem_range.mpr (valid.reachable_lt reachable)
  have check := certified block (inside walk.reachable)
  simp only [Func.dominatorsCertified, List.all_eq_true, Bool.and_eq_true,
    decide_eq_true_eq] at check
  obtain ⟨interior, sources⟩ := check vertex member
  induction walk with
  | start => exact absurd rfl interior
  | step previous edge ih =>
      rename_i trail source target
      have reachable : F.Reachable source := previous.reachable
      have isPred := (F.mem_preds _ _).mpr ⟨valid.reachable_lt reachable, edge⟩
      rcases sources source isPred with rfl | above
      · simp
      · have sourceCheck := certified source (inside reachable)
        simp only [Func.dominatorsCertified, List.all_eq_true, Bool.and_eq_true,
          decide_eq_true_eq] at sourceCheck
        obtain ⟨sourceInterior, sourceSources⟩ := sourceCheck vertex above
        exact List.mem_cons_of_mem _ (ih above sourceCheck sourceInterior sourceSources)

theorem certified_strict (valid : ValidCfg F)
    (certified : ∀ block ∈ F.blockIds, F.dominatorsCertified dominators block = true)
    {block vertex : Nat} (reachable : F.Reachable block) (member : vertex ∈ dominators block) :
    F.StrictlyDominates vertex block := by
  have passes : ∀ trail, FlowGraph.Walk F.succs F.entry trail block → vertex ∈ trail :=
    fun trail walk => certified_passed valid certified walk member
  refine ⟨?_, fun trail walk => List.mem_cons_of_mem _ (passes trail walk)⟩
  rintro rfl
  exact FlowGraph.not_always_revisited reachable passes

theorem usesCertified_sound {block : Nat} (check : F.usesCertified dominators block = true)
    {before after : List Inst} {inst : Inst} (split : F.insts block = before ++ inst :: after)
    (notPhi : inst.isPhi = false) {id : Nat} (operand : Value.inst id ∈ inst.operands) :
    (∃ definition ∈ before, definition.id = id) ∨
      ∃ source ∈ dominators block, F.Defines source id := by
  simp only [Func.usesCertified, List.all_eq_true, List.mem_range] at check
  have here := check before.length (by simp [split])
  simp only [split, List.getElem?_append_right (Nat.le_refl _), Nat.sub_self,
    List.getElem?_cons_zero, notPhi, Bool.false_or, List.all_eq_true, List.take_left] at here
  have found := here (.inst id) operand
  simp only [Bool.or_eq_true, decide_eq_true_eq, List.any_eq_true] at found
  rcases found with earlier | ⟨source, member, defined⟩
  · exact Or.inl (List.mem_map.mp earlier)
  · exact Or.inr ⟨source, member, mem_definedIds.mp defined⟩

theorem phisCertified_sound {block : Nat} (check : F.phisCertified dominators block = true)
    {inst : Inst} (member : inst ∈ F.insts block) {id source : Nat}
    (entry : (Value.inst id, source) ∈ inst.incoming) :
    ∃ origin ∈ source :: dominators source, F.Defines origin id := by
  simp only [Func.phisCertified, List.all_eq_true] at check
  have found := check inst member (.inst id, source) entry
  simp only [List.any_eq_true, decide_eq_true_eq] at found
  obtain ⟨origin, inSet, defined⟩ := found
  exact ⟨origin, inSet, mem_definedIds.mp defined⟩

theorem checkSsa_sound (check : F.checkSsa dominators = true) : StrictSSA F := by
  simp only [Func.checkSsa, Bool.and_eq_true, Bool.not_eq_true', List.isEmpty_eq_false_iff,
    decide_eq_true_eq] at check
  obtain ⟨⟨⟨⟨⟨⟨⟨⟨nonempty, unique⟩, names⟩, operands⟩, terminators⟩, blocks⟩, certified⟩, uses⟩,
    phis⟩ := check
  rw [List.all_eq_true] at blocks certified uses phis
  have inside : ∀ {block}, block < F.blocks.length → block ∈ F.blockIds := List.mem_range.mpr
  have verified : ∀ block < F.blocks.length, BlockVerified F block :=
    fun block bound => blockVerified_sound (blocks block (inside bound))
  have valid : ValidCfg F := by
    refine ⟨nonempty, ?_, ?_⟩
    · intro block target edge
      exact ((verified block (F.lt_length_of_mem_succs edge)).targets target edge).1
    · intro block edge
      exact ((verified block (F.lt_length_of_mem_succs edge)).targets F.entry edge).2 rfl
  refine
    { toValidCfg := valid
      terminated := fun block bound => (verified block bound).terminated
      phisFirst := ?phisFirst
      idsUnique := unique
      phiIncoming := fun block inst member =>
        (verified block (F.lt_length_of_mem_insts member)).phiIncoming inst member
      operandsDefined := operandsVerified_sound operands
      voidTerminators := terminatorsVerified_sound terminators
      namesUnique := namesVerified_sound names
      usesDominated := ?usesDominated
      phisDominated := ?phisDominated }
  case phisFirst =>
    intro block
    by_cases bound : block < F.blocks.length
    · exact (verified block bound).phisFirst
    · exact ⟨[], [], by simp [F.insts_of_length_le (Nat.le_of_not_lt bound)], by simp, by simp⟩
  case usesDominated =>
    intro block before inst after reachable split notPhi id operand
    have check := uses block (inside (valid.reachable_lt reachable))
    refine (usesCertified_sound check split notPhi operand).imp (fun earlier => earlier) ?_
    rintro ⟨source, member, defined⟩
    exact ⟨source, certified_strict valid certified reachable member, defined⟩
  case phisDominated =>
    intro block reachable inst member id source entry sourceReachable
    have check := phis block (inside (valid.reachable_lt reachable))
    obtain ⟨origin, inSet, defined⟩ := phisCertified_sound check member entry
    refine ⟨origin, ?_, defined⟩
    rcases List.mem_cons.mp inSet with rfl | above
    · exact FlowGraph.Dominates.refl _
    · exact (certified_strict valid certified sourceReachable above).2

def sampleLoop : Func where
  argNames := ["n"]
  blocks :=
    [⟨[{ id := 0, name := "a", shape := .binary .Add (.arg 0) (.const 0)
         isSafeToSpeculativelyExecute := true },
       { id := 1, name := "", shape := .terminator false [1] [] }]⟩,
     ⟨[{ id := 2, name := "i", shape := .phi [(.inst 0, 0), (.inst 5, 2)] },
       { id := 3, name := "", shape := .terminator false [2, 3] [.inst 2] }]⟩,
     ⟨[{ id := 4, name := "s", shape := .binary .Add (.inst 0) (.arg 0)
         isSafeToSpeculativelyExecute := true },
       { id := 5, name := "", shape := .binary .Mul (.inst 2) (.inst 4)
         isSafeToSpeculativelyExecute := true },
       { id := 6, name := "", shape := .other [.inst 5], mayHaveSideEffects := true },
       { id := 7, name := "", shape := .terminator false [1] [] }]⟩,
     ⟨[{ id := 8, name := "", shape := .terminator true [] [.inst 2] }]⟩]

def sampleDominators : Nat → List Nat
  | 1 => [0]
  | 2 => [1, 0]
  | 3 => [1, 0]
  | _ => []

theorem sampleLoop_ssa : StrictSSA sampleLoop :=
  checkSsa_sound (show sampleLoop.checkSsa sampleDominators = true by decide +kernel)

theorem sampleLoop_reachable : ∀ block < 4, sampleLoop.Reachable block := by
  have one : sampleLoop.Reachable 1 :=
    FlowGraph.Reachable.step sampleLoop.entry_reachable (by decide : 1 ∈ sampleLoop.succs 0)
  have two := FlowGraph.Reachable.step one (by decide : 2 ∈ sampleLoop.succs 1)
  have three := FlowGraph.Reachable.step one (by decide : 3 ∈ sampleLoop.succs 1)
  intro block bound
  interval_cases block
  · exact sampleLoop.entry_reachable
  · exact one
  · exact two
  · exact three

end LlvmGather
