import LlvmGather.Ir.Ssa

/-!
The two ways in which the passes change a function: an instruction is erased from its
block, or moved to just before the last instruction of a block.
-/

namespace LlvmGather

def Func.eraseFromParent (F : Func) (id : Nat) : Func :=
  { F with blocks := F.blocks.map fun body => ⟨body.insts.filter (·.id ≠ id)⟩ }

def Func.insertBeforeBack (F : Func) (block : Nat) (inst : Inst) : Func :=
  { F with
    blocks := F.blocks.modify block fun body =>
      ⟨body.insts.dropLast ++ inst :: body.insts.getLast?.toList⟩ }

/-- `inst->moveBefore(&block->back())`. -/
def Func.moveBefore (F : Func) (inst : Inst) (block : Nat) : Func :=
  (F.eraseFromParent inst.id).insertBeforeBack block inst

def Func.useEmpty (F : Func) (id : Nat) : Bool :=
  F.allInsts.all fun user => decide (Value.inst id ∉ user.operands)

variable (F : Func)

@[simp] theorem Func.length_eraseFromParent (id : Nat) :
    (F.eraseFromParent id).blocks.length = F.blocks.length := by
  simp [Func.eraseFromParent]

@[simp] theorem Func.length_insertBeforeBack (block : Nat) (inst : Inst) :
    (F.insertBeforeBack block inst).blocks.length = F.blocks.length := by
  simp [Func.insertBeforeBack]

theorem Func.insts_eraseFromParent (id block : Nat) :
    (F.eraseFromParent id).insts block = (F.insts block).filter (·.id ≠ id) := by
  by_cases bound : block < F.blocks.length
  · simp [Func.insts, Func.eraseFromParent, List.getElem?_eq_getElem bound]
  · have beyond := Nat.le_of_not_lt bound
    rw [F.insts_of_length_le beyond, Func.insts_of_length_le _ (by simpa using beyond)]
    rfl

theorem Func.insts_insertBeforeBack (target block : Nat) (inst : Inst)
    (bound : target < F.blocks.length) :
    (F.insertBeforeBack target inst).insts block =
      if block = target then (F.insts block).dropLast ++ inst :: (F.insts block).getLast?.toList
      else F.insts block := by
  by_cases same : block = target
  · subst same
    simp [Func.insts, Func.insertBeforeBack, List.getElem?_eq_getElem bound]
  · have other : target ≠ block := Ne.symm same
    simp [Func.insts, Func.insertBeforeBack, same, other]

theorem Func.mem_allInsts_eraseFromParent (id : Nat) (inst : Inst) :
    inst ∈ (F.eraseFromParent id).allInsts ↔ inst ∈ F.allInsts ∧ inst.id ≠ id := by
  rw [Func.mem_allInsts, Func.mem_allInsts]
  simp only [F.insts_eraseFromParent, List.mem_filter, decide_eq_true_eq]
  constructor
  · rintro ⟨block, member, other⟩
    exact ⟨⟨block, member⟩, other⟩
  · rintro ⟨⟨block, member⟩, other⟩
    exact ⟨block, member, other⟩

theorem Func.useEmpty_iff (id : Nat) :
    F.useEmpty id = true ↔ ∀ user ∈ F.allInsts, Value.inst id ∉ user.operands := by
  simp [Func.useEmpty]

theorem filter_ids_split {insts before after : List Inst} {inst : Inst}
    (nodup : (insts.map Inst.id).Nodup) (split : insts = before ++ inst :: after) :
    insts.filter (·.id ≠ inst.id) = before ++ after := by
  rw [split, List.map_append, List.map_cons, List.nodup_middle, List.nodup_cons,
    ← List.map_append] at nodup
  have others : ∀ other ∈ before ++ after, other.id ≠ inst.id := by
    intro other member same
    exact nodup.1 (List.mem_map.mpr ⟨other, member, same⟩)
  rw [split, List.filter_append, List.filter_cons_of_neg (by simp), ← List.filter_append]
  exact List.filter_eq_self.mpr fun other member => by simpa using others other member

variable {F}

theorem Tidy.last_id_ne (tidy : Tidy F) {block : Nat} {inst last : Inst} {body : List Inst}
    (member : inst ∈ F.allInsts) (plain : inst.isTerminator = false)
    (split : F.insts block = body ++ [last]) (terminator : last.isTerminator = true) :
    last.id ≠ inst.id := by
  intro same
  have lastMember : last ∈ F.allInsts := (F.mem_allInsts last).mpr ⟨block, by simp [split]⟩
  rw [tidy.inst_unique lastMember member same, plain] at terminator
  exact Bool.false_ne_true terminator

theorem Tidy.insts_erase (tidy : Tidy F) {block : Nat} {inst last : Inst} {body : List Inst}
    (member : inst ∈ F.allInsts) (plain : inst.isTerminator = false)
    (split : F.insts block = body ++ [last]) (terminator : last.isTerminator = true) :
    (F.eraseFromParent inst.id).insts block = body.filter (·.id ≠ inst.id) ++ [last] := by
  have other := tidy.last_id_ne member plain split terminator
  rw [F.insts_eraseFromParent, split, List.filter_append]
  simp [other]

theorem Tidy.erase (tidy : Tidy F) {inst : Inst} (member : inst ∈ F.allInsts)
    (plain : inst.isTerminator = false) (unused : F.useEmpty inst.id = true) :
    Tidy (F.eraseFromParent inst.id) := by
  refine ⟨?_, ?_, ?_⟩
  · intro block bound
    rw [F.length_eraseFromParent] at bound
    obtain ⟨body, last, split, terminator, plainBody⟩ := tidy.terminated block bound
    refine ⟨body.filter (·.id ≠ inst.id), last,
      tidy.insts_erase member plain split terminator, terminator, ?_⟩
    intro other inBody
    exact plainBody other (List.mem_of_mem_filter inBody)
  · have sublist : List.Sublist (F.eraseFromParent inst.id).allInsts F.allInsts := by
      simp only [Func.allInsts, Func.eraseFromParent, List.flatMap_map]
      generalize F.blocks = blocks
      induction blocks with
      | nil => simp
      | cons first rest ih =>
          simp only [List.flatMap_cons]
          exact List.Sublist.append (List.filter_sublist) ih
    exact tidy.idsUnique.sublist (sublist.map Inst.id)
  · intro user userMember id operand
    obtain ⟨userOld, _⟩ := (F.mem_allInsts_eraseFromParent _ _).mp userMember
    obtain ⟨definition, defined, same⟩ := tidy.operandsDefined user userOld id operand
    refine ⟨definition, (F.mem_allInsts_eraseFromParent _ _).mpr ⟨defined, ?_⟩, same⟩
    intro erased
    rw [← erased, same] at unused
    exact (F.useEmpty_iff id).mp unused user userOld operand

end LlvmGather
