import LlvmGather.Ir.Edit

/-!
Replacing instructions. `ReplaceInstWithValue` redirects every use of an instruction to
another value and erases it; `ReplaceInstWithInst` inserts the new instruction first.
-/

namespace LlvmGather

def Value.redirect (value : Value) (old : Nat) (new : Value) : Value :=
  if value = .inst old then new else value

def Shape.redirect (shape : Shape) (old : Nat) (new : Value) : Shape :=
  match shape with
  | .phi incoming => .phi (incoming.map fun entry => (entry.1.redirect old new, entry.2))
  | .binary op lhs rhs => .binary op (lhs.redirect old new) (rhs.redirect old new)
  | .terminator isReturn targets args =>
      .terminator isReturn targets (args.map (·.redirect old new))
  | .other args => .other (args.map (·.redirect old new))

/-- What `ReplaceInstWithValue` does to another instruction: its operands are redirected,
and an unnamed replacement takes the name of the replaced instruction. -/
def Inst.redirect (user old : Inst) (new : Value) : Inst :=
  { user with
    shape := user.shape.redirect old.id new
    name := if new = .inst user.id ∧ user.name = "" then old.name else user.name }

/-- `ReplaceInstWithValue(BIL, BI, V)`. -/
def Func.replaceInstWithValue (F : Func) (inst : Inst) (new : Value) : Func where
  argNames := F.argNames.mapIdx fun index name =>
    if new = .arg index ∧ name = "" then inst.name else name
  blocks := (F.eraseFromParent inst.id).blocks.map fun body =>
    ⟨body.insts.map (·.redirect inst new)⟩

def Func.insertBefore (F : Func) (block position : Nat) (news : List Inst) : Func :=
  { F with
    blocks := F.blocks.modify block fun body =>
      ⟨body.insts.take position ++ news ++ body.insts.drop position⟩ }

def Value.instId : Value → Option Nat
  | .inst id => some id
  | _ => none

def Func.freshId (F : Func) : Nat :=
  (F.allInsts.flatMap fun inst => inst.id :: inst.operands.filterMap Value.instId).foldr max 0 + 1

section Redirect

variable (user old : Inst) (new : Value)

@[simp] theorem Inst.redirect_id : (user.redirect old new).id = user.id := rfl

@[simp] theorem Inst.redirect_shape :
    (user.redirect old new).shape = user.shape.redirect old.id new := rfl

@[simp] theorem Inst.redirect_isPhi : (user.redirect old new).isPhi = user.isPhi := by
  cases shape : user.shape <;> simp [Inst.isPhi, Shape.redirect, shape]

@[simp] theorem Inst.redirect_isTerminator :
    (user.redirect old new).isTerminator = user.isTerminator := by
  cases shape : user.shape <;> simp [Inst.isTerminator, Shape.redirect, shape]

@[simp] theorem Inst.redirect_operands :
    (user.redirect old new).operands = user.operands.map (·.redirect old.id new) := by
  cases shape : user.shape <;> simp [Inst.operands, Shape.redirect, shape]

theorem Value.redirect_of_ne {value : Value} {id : Nat} (other : value ≠ .inst id) :
    value.redirect id new = value :=
  if_neg other

@[simp] theorem Value.redirect_self (id : Nat) : (Value.inst id).redirect id new = new :=
  if_pos rfl

theorem Value.redirect_idem (value : Value) (id : Nat) : value.redirect id value = value := by
  by_cases here : value = .inst id
  · rw [here, Value.redirect_self]
  · rw [Value.redirect_of_ne value here]

theorem Inst.redirect_binary {user old : Inst} {new : Value} {op : BinaryOps} {val1 val2 : Value}
    (shape : user.shape = .binary op val1 val2) :
    (user.redirect old new).shape =
      .binary op (val1.redirect old.id new) (val2.redirect old.id new) := by
  rw [Inst.redirect_shape, shape]
  rfl

theorem Inst.binary_of_redirect {user old : Inst} {new : Value} {op : BinaryOps} {left right : Value}
    (shape : (user.redirect old new).shape = .binary op left right) :
    ∃ val1 val2, user.shape = .binary op val1 val2 ∧
      val1.redirect old.id new = left ∧ val2.redirect old.id new = right := by
  rw [Inst.redirect_shape] at shape
  cases here : user.shape with
  | binary userOp val1 val2 =>
      rw [here] at shape
      obtain ⟨rfl, first, second⟩ := Shape.binary.inj shape
      exact ⟨val1, val2, rfl, first, second⟩
  | phi | terminator | other => simp [here, Shape.redirect] at shape

theorem Inst.mem_operands_redirect {value : Value} (operand : value ∈ (user.redirect old new).operands) :
    (value = new ∧ Value.inst old.id ∈ user.operands) ∨
      (value ∈ user.operands ∧ value ≠ .inst old.id) := by
  rw [Inst.redirect_operands] at operand
  obtain ⟨origin, member, rfl⟩ := List.mem_map.mp operand
  by_cases here : origin = .inst old.id
  · subst here
    exact Or.inl ⟨Value.redirect_self new _, member⟩
  · rw [Value.redirect_of_ne new here]
    exact Or.inr ⟨member, here⟩

end Redirect

section Blocks

variable (F : Func)

theorem Func.insts_replaceInstWithValue (inst : Inst) (new : Value) (block : Nat) :
    (F.replaceInstWithValue inst new).insts block =
      ((F.insts block).filter (·.id ≠ inst.id)).map (·.redirect inst new) := by
  rw [← F.insts_eraseFromParent]
  simp only [Func.insts, Func.replaceInstWithValue, List.getElem?_map]
  cases (F.eraseFromParent inst.id).blocks[block]? <;> rfl

theorem Func.mem_replaceInstWithValue {inst user : Inst} {new : Value} {block : Nat} :
    user ∈ (F.replaceInstWithValue inst new).insts block ↔
      ∃ origin ∈ F.insts block, origin.id ≠ inst.id ∧ origin.redirect inst new = user := by
  simp [F.insts_replaceInstWithValue, and_assoc]

theorem Func.allInsts_replaceInstWithValue (inst : Inst) (new : Value) :
    (F.replaceInstWithValue inst new).allInsts =
      (F.allInsts.filter (·.id ≠ inst.id)).map (·.redirect inst new) := by
  simp only [Func.allInsts, Func.replaceInstWithValue, Func.eraseFromParent]
  generalize F.blocks = blocks
  induction blocks with
  | nil => rfl
  | cons first rest ih =>
      simp only [List.map_cons, List.flatMap_cons, ih, List.filter_append, List.map_append]

@[simp] theorem Func.length_replaceInstWithValue (inst : Inst) (new : Value) :
    (F.replaceInstWithValue inst new).blocks.length = F.blocks.length := by
  simp [Func.replaceInstWithValue]

@[simp] theorem Func.length_insertBefore (block position : Nat) (news : List Inst) :
    (F.insertBefore block position news).blocks.length = F.blocks.length := by
  simp [Func.insertBefore]

theorem Func.insts_insertBefore {target : Nat} (bound : target < F.blocks.length)
    (block position : Nat) (news : List Inst) :
    (F.insertBefore target position news).insts block =
      if block = target then
        (F.insts block).take position ++ news ++ (F.insts block).drop position
      else F.insts block := by
  by_cases same : block = target
  · subst same
    simp [Func.insts, Func.insertBefore, List.getElem?_eq_getElem bound]
  · have other : target ≠ block := Ne.symm same
    simp [Func.insts, Func.insertBefore, same, other]

theorem lt_foldr_max {numbers : List Nat} {number : Nat} (member : number ∈ numbers) :
    number < numbers.foldr max 0 + 1 := by
  induction numbers with
  | nil => simp at member
  | cons first rest ih =>
      simp only [List.foldr_cons]
      rcases List.mem_cons.mp member with rfl | later
      · omega
      · have bound := ih later
        omega

variable {F} in
theorem Func.id_lt_freshId {inst : Inst} (member : inst ∈ F.allInsts) : inst.id < F.freshId :=
  lt_foldr_max (List.mem_flatMap.mpr ⟨inst, member, by simp⟩)

variable {F} in
theorem Func.operand_lt_freshId {inst : Inst} (member : inst ∈ F.allInsts) {id : Nat}
    (operand : Value.inst id ∈ inst.operands) : id < F.freshId :=
  lt_foldr_max (List.mem_flatMap.mpr ⟨inst, member,
    List.mem_cons_of_mem _ (List.mem_filterMap.mpr ⟨.inst id, operand, rfl⟩)⟩)

end Blocks

/-- The instructions of a block in an order that SSA form allows: the operands of all but
the phis are defined earlier in the block or are among the inputs from elsewhere. -/
structure Scoped (inputs : Nat → Prop) (insts : List Inst) : Prop where
  unique : (insts.map Inst.id).Nodup
  notInput : ∀ inst ∈ insts, ¬ inputs inst.id
  ordered : ∀ before inst after, insts = before ++ inst :: after → inst.isPhi = false →
    ∀ id, Value.inst id ∈ inst.operands → inputs id ∨ ∃ definition ∈ before, definition.id = id

theorem append_split {front back left right : List Inst} {inst : Inst}
    (split : front ++ back = left ++ inst :: right) :
    (∃ middle, left = front ++ middle ∧ back = middle ++ inst :: right) ∨
      ∃ middle, front = left ++ inst :: middle ∧ right = middle ++ back := by
  rcases List.append_eq_append_iff.mp split with found | ⟨middle, frontEq, restEq⟩
  · exact Or.inl found
  · cases middle with
    | nil => exact Or.inl ⟨[], by simpa using frontEq.symm, by simpa using restEq.symm⟩
    | cons first middle =>
        obtain ⟨rfl, rfl⟩ := List.cons.inj restEq
        exact Or.inr ⟨middle, frontEq, rfl⟩

section Scoped

variable {inputs : Nat → Prop} {before after : List Inst} {inst : Inst}

theorem Scoped.other_id (order : Scoped inputs (before ++ inst :: after)) {other : Inst}
    (member : other ∈ before ++ after) : other.id ≠ inst.id := by
  have unique := order.unique
  rw [List.map_append, List.map_cons, List.nodup_middle, List.nodup_cons, ← List.map_append] at unique
  intro same
  exact unique.1 (same ▸ List.mem_map_of_mem member)

theorem Scoped.filter_eq (order : Scoped inputs (before ++ inst :: after)) :
    (before ++ inst :: after).filter (·.id ≠ inst.id) = before ++ after :=
  filter_ids_split order.unique rfl

theorem Scoped.unused_before (order : Scoped inputs (before ++ inst :: after)) {user : Inst}
    (member : user ∈ before) (plain : user.isPhi = false) : Value.inst inst.id ∉ user.operands := by
  intro operand
  obtain ⟨front, back, rfl⟩ := List.append_of_mem member
  have split : (front ++ user :: back) ++ inst :: after =
      front ++ user :: (back ++ inst :: after) := by simp
  rcases order.ordered front user _ split plain inst.id operand with input | ⟨definition, earlier, same⟩
  · exact order.notInput inst (by simp) input
  · exact order.other_id (by simp [earlier]) same

theorem Scoped.operand_earlier (order : Scoped inputs (before ++ inst :: after))
    (plain : inst.isPhi = false) {other : Inst} (later : other ∈ inst :: after) :
    Value.inst other.id ∉ inst.operands := by
  intro operand
  rcases order.ordered before inst after rfl plain _ operand with input | ⟨definition, earlier, same⟩
  · exact order.notInput other (List.mem_append_right _ later) input
  · have unique := order.unique
    rw [List.map_append, List.nodup_append] at unique
    exact unique.2.2 _ (List.mem_map_of_mem earlier) _ (List.mem_map_of_mem later) same

theorem Scoped.replace (order : Scoped inputs (before ++ inst :: after))
    (plain : inst.isPhi = false) {new : Value}
    (source : new ∈ inst.operands ∨ ∀ id, new ≠ .inst id) :
    Scoped inputs ((before ++ after).map (·.redirect inst new)) := by
  have sublist : (before ++ after).Sublist (before ++ inst :: after) :=
    (List.sublist_cons_self inst after).append_left before
  refine ⟨?_, ?_, ?_⟩
  · rw [List.map_map]
    exact order.unique.sublist (sublist.map Inst.id)
  · intro user member
    obtain ⟨origin, inside, rfl⟩ := List.mem_map.mp member
    exact order.notInput origin (sublist.subset inside)
  · intro front user back split userPlain id operand
    obtain ⟨oldFront, rest, splitOld, rfl, restEq⟩ := List.map_eq_append_iff.mp split
    obtain ⟨origin, oldBack, rfl, rfl, rfl⟩ := List.map_eq_cons_iff.mp restEq
    rw [Inst.redirect_isPhi] at userPlain
    have kept : ∀ definition ∈ oldFront, definition.id = id →
        ∃ definition ∈ oldFront.map (·.redirect inst new), definition.id = id := by
      intro definition member same
      exact ⟨definition.redirect inst new, List.mem_map_of_mem member, same⟩
    rcases append_split splitOld with ⟨middle, rfl, rfl⟩ | ⟨middle, rfl, rfl⟩
    · have splitInsts : before ++ inst :: (middle ++ origin :: oldBack) =
          (before ++ inst :: middle) ++ origin :: oldBack := by
        simp
      rcases origin.mem_operands_redirect inst new operand with ⟨rfl, -⟩ | ⟨old, other⟩
      · have fromInst : Value.inst id ∈ inst.operands := source.resolve_right fun none => none id rfl
        rcases order.ordered before inst _ rfl plain id fromInst with
          input | ⟨definition, earlier, same⟩
        · exact Or.inl input
        · exact Or.inr (kept definition (by simp [earlier]) same)
      · rcases order.ordered _ origin _ splitInsts userPlain id old with
          input | ⟨definition, earlier, same⟩
        · exact Or.inl input
        · have notInst : definition ≠ inst := by
            rintro rfl
            exact other (by rw [same])
          exact Or.inr (kept definition (by simpa [notInst] using earlier) same)
    · have unused := order.unused_before (by simp : origin ∈ oldFront ++ origin :: middle) userPlain
      rcases origin.mem_operands_redirect inst new operand with ⟨-, used⟩ | ⟨old, -⟩
      · exact absurd used unused
      · rcases order.ordered oldFront origin (middle ++ inst :: after) (by simp) userPlain id old with
          input | ⟨definition, earlier, same⟩
        · exact Or.inl input
        · exact Or.inr (kept definition earlier same)

end Scoped

theorem StrictSSA.scoped_block {F : Func} (ssa : StrictSSA F) {block : Nat} (reachable : F.Reachable block) :
    Scoped (fun id => ¬ F.Defines block id) (F.insts block) := by
  refine ⟨ssa.nodup_insts block, ?_, ?_⟩
  · intro inst member outside
    exact outside ⟨inst, member, rfl⟩
  · intro before inst after split plain id operand
    rcases ssa.usesDominated block before inst after reachable split plain id operand with
      earlier | ⟨source, strict, origin, inside, rfl⟩
    · exact Or.inr earlier
    · left
      rintro ⟨definition, member, same⟩
      exact strict.1 (ssa.block_unique inside member same.symm)

end LlvmGather
