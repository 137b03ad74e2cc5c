import LlvmGather.Ir.Core

/-!
Consequences of SSA form that the passes rely on: an instruction is found in one place
only, and in reachable code a definition comes before its uses on every path.
-/

namespace LlvmGather

variable {F : Func}

theorem Func.insts_eq_getElem (F : Func) {block : Nat} (bound : block < F.blocks.length) :
    F.insts block = F.blocks[block].insts := by
  simp [Func.insts, List.getElem?_eq_getElem bound]

theorem Tidy.nodup_insts (tidy : Tidy F) (block : Nat) :
    ((F.insts block).map Inst.id).Nodup := by
  have unique := tidy.idsUnique
  simp only [Func.allInsts, List.map_flatMap, List.nodup_flatMap] at unique
  by_cases bound : block < F.blocks.length
  · rw [F.insts_eq_getElem bound]
    exact unique.1 _ (List.getElem_mem bound)
  · simp [F.insts_of_length_le (Nat.le_of_not_lt bound)]

theorem Func.block_unique (unique : (F.allInsts.map Inst.id).Nodup) {left right : Nat}
    {first second : Inst} (leftMember : first ∈ F.insts left) (rightMember : second ∈ F.insts right)
    (same : first.id = second.id) : left = right := by
  simp only [Func.allInsts, List.map_flatMap, List.nodup_flatMap] at unique
  have leftBound := F.lt_length_of_mem_insts leftMember
  have rightBound := F.lt_length_of_mem_insts rightMember
  rw [F.insts_eq_getElem leftBound] at leftMember
  rw [F.insts_eq_getElem rightBound] at rightMember
  have apart := List.pairwise_iff_getElem.mp unique.2
  have leftId : first.id ∈ F.blocks[left].insts.map Inst.id := List.mem_map_of_mem leftMember
  have rightId : first.id ∈ F.blocks[right].insts.map Inst.id :=
    same ▸ List.mem_map_of_mem rightMember
  rcases Nat.lt_trichotomy left right with less | equal | greater
  · exact absurd rightId (fun found => apart left right leftBound rightBound less leftId found)
  · exact equal
  · exact absurd leftId (fun found => apart right left rightBound leftBound greater rightId found)

theorem Tidy.block_unique (tidy : Tidy F) {left right : Nat} {first second : Inst}
    (leftMember : first ∈ F.insts left) (rightMember : second ∈ F.insts right)
    (same : first.id = second.id) : left = right :=
  Func.block_unique tidy.idsUnique leftMember rightMember same

theorem Tidy.inst_unique (tidy : Tidy F) {first second : Inst}
    (firstMember : first ∈ F.allInsts) (secondMember : second ∈ F.allInsts)
    (same : first.id = second.id) : first = second :=
  List.inj_on_of_nodup_map tidy.idsUnique firstMember secondMember same

theorem Inst.not_isPhi_of_isTerminator {inst : Inst} (terminator : inst.isTerminator = true) :
    inst.isPhi = false := by
  cases shape : inst.shape <;> simp_all [Inst.isTerminator, Inst.isPhi]

theorem Tidy.terminator_of_last (tidy : Tidy F) {block : Nat} {front : List Inst} {last : Inst}
    (split : F.insts block = front ++ [last]) : last.isTerminator = true := by
  have member : last ∈ F.insts block := by simp [split]
  have bound := F.lt_length_of_mem_insts member
  obtain ⟨body, final, shape, terminator, _⟩ := tidy.terminated block bound
  have same := (List.append_inj' (split.symm.trans shape) rfl).2
  rwa [List.singleton_inj.mp same]

theorem Tidy.getTerminator_plain (tidy : Tidy F) {block : Nat} {last : Inst}
    (terminator : F.getTerminator block = some last) : last ∈ F.insts block ∧ last.isPhi = false := by
  obtain ⟨front, split⟩ := List.getLast?_eq_some_iff.mp terminator
  exact ⟨by simp [split], Inst.not_isPhi_of_isTerminator (tidy.terminator_of_last split)⟩

theorem Tidy.split_unique (tidy : Tidy F) {block : Nat} {inst other : Inst}
    {before after before' after' : List Inst} (split : F.insts block = before ++ inst :: after)
    (split' : F.insts block = before' ++ other :: after') (same : inst.id = other.id) :
    before = before' ∧ inst = other ∧ after = after' := by
  have nodup := tidy.nodup_insts block
  have member : inst ∈ F.insts block := by simp [split]
  have member' : other ∈ F.insts block := by simp [split']
  obtain rfl : inst = other := tidy.inst_unique ((F.mem_allInsts _).mpr ⟨block, member⟩)
    ((F.mem_allInsts _).mpr ⟨block, member'⟩) same
  have distinct := List.Nodup.of_map _ nodup
  rw [split] at distinct split'
  have fresh : inst ∉ before ∧ inst ∉ after := by
    simp only [List.nodup_append, List.nodup_cons, List.mem_cons] at distinct
    exact ⟨fun found => distinct.2.2 inst found inst (Or.inl rfl) rfl, distinct.2.1.1⟩
  rw [List.append_cons_inj_of_notMem fresh.1 fresh.2] at split'
  exact ⟨split'.1, rfl, split'.2.2⟩

theorem StrictSSA.use_after_definition (ssa : StrictSSA F) {user origin : Nat}
    {before after : List Inst} {inst definition : Inst} (reachable : F.Reachable user)
    (split : F.insts user = before ++ inst :: after) (notPhi : inst.isPhi = false)
    (operand : Value.inst definition.id ∈ inst.operands)
    (member : definition ∈ F.insts origin) :
    (user = origin ∧ definition ∈ before) ∨ F.StrictlyDominates origin user := by
  rcases ssa.usesDominated user before inst after reachable split notPhi definition.id operand with
    ⟨found, foundMember, same⟩ | ⟨source, strict, found, foundMember, same⟩
  · left
    have inUser : found ∈ F.insts user := by simp [split, foundMember]
    have equal : found = definition := ssa.inst_unique ((F.mem_allInsts _).mpr ⟨user, inUser⟩)
      ((F.mem_allInsts _).mpr ⟨origin, member⟩) same
    exact ⟨ssa.block_unique inUser member same, equal ▸ foundMember⟩
  · right
    exact ssa.block_unique foundMember member same ▸ strict

theorem StrictSSA.definition_before_use (ssa : StrictSSA F) {home block : Nat}
    (reachable : F.Reachable home) {before after : List Inst} {inst user : Inst}
    (split : F.insts home = before ++ inst :: after) (member : user ∈ F.insts block)
    (notPhi : user.isPhi = false) (operand : Value.inst inst.id ∈ user.operands) :
    (block = home ∧ user ∈ after) ∨ F.StrictlyDominates home block := by
  have defined : inst ∈ F.insts home := by simp [split]
  by_cases live : F.Reachable block
  · obtain ⟨front, back, split'⟩ := List.append_of_mem member
    rcases ssa.use_after_definition live split' notPhi operand defined with ⟨rfl, earlier⟩ | strict
    · obtain ⟨first, middle, rfl⟩ := List.append_of_mem earlier
      rw [List.append_assoc, List.cons_append] at split'
      obtain ⟨-, -, rfl⟩ := ssa.split_unique split split' rfl
      exact Or.inl ⟨rfl, by simp⟩
    · exact Or.inr strict
  · refine Or.inr ⟨?_, FlowGraph.dominates_of_not_reachable live⟩
    rintro rfl
    exact live reachable

theorem StrictSSA.definition_before_edge (ssa : StrictSSA F) {home block source : Nat}
    {inst phi : Inst} (defined : inst ∈ F.insts home) (member : phi ∈ F.insts block)
    (entry : (Value.inst inst.id, source) ∈ phi.incoming) : F.Dominates home source := by
  by_cases live : F.Reachable source
  · have isPhi : phi.isPhi = true := by
      by_contra notPhi
      rw [Inst.incoming_of_not_isPhi (by simpa using notPhi)] at entry
      simp at entry
    have edge := (ssa.phiIncoming block phi member isPhi source).mp ⟨_, entry⟩
    obtain ⟨origin, dominates, definition, found, same⟩ := ssa.phisDominated block
      (FlowGraph.Reachable.step live edge) phi member inst.id source entry live
    rwa [← ssa.block_unique found defined same]
  · exact FlowGraph.dominates_of_not_reachable live

end LlvmGather
