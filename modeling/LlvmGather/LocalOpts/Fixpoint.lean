import LlvmGather.LocalOpts.Passes

/-!
Strength reduction on a block in which the other two rules of `LocalOpts` find nothing. What
it inserts and redirects gives none of the three rules something to do, so that the block
it leaves is a fixed point although it reports no modification.
-/

namespace LlvmGather

variable {constants : Constants} {host : Host}

structure Quiet (constants : Constants) (host : Host) (width : Value → Option Nat) (inst : Inst) :
    Prop where
  identity : algebraicIdentity constants width inst = none
  folding : foldConstants constants host inst = .ok none

structure Settled (constants : Constants) (host : Host) (width : Value → Option Nat) (inst : Inst) :
    Prop extends Quiet constants host width inst where
  strength : reduceStrength constants host inst = .ok none

section Redirect

variable {old new : Nat}

@[simp] theorem constantInt_redirect (value : Value) :
    constants.constantInt (value.redirect old (.inst new)) = constants.constantInt value := by
  by_cases here : value = .inst old
  · subst here
    simp
  · rw [Value.redirect_of_ne _ here]

theorem Value.redirect_eq_iff {left right : Value} (leftOther : left ≠ .inst new)
    (rightOther : right ≠ .inst new) :
    left.redirect old (.inst new) = right.redirect old (.inst new) ↔ left = right := by
  unfold Value.redirect
  split <;> split <;> simp_all [eq_comm]

theorem constantInt_multiplier_redirect (val1 val2 : Value) :
    constants.constantInt (multiplier constants (val1.redirect old (.inst new))
      (val2.redirect old (.inst new))) = constants.constantInt (multiplier constants val1 val2) := by
  by_cases first : constants.classof val1 = true <;>
    simp_all [multiplier, Constants.classof]

theorem foldConstants_redirect (user inst : Inst) :
    foldConstants constants host (user.redirect inst (.inst new)) =
      foldConstants constants host user := by
  cases shape : user.shape <;> simp [foldConstants, shape, Shape.redirect]

theorem reduceStrength_redirect {user : Inst} (inst : Inst)
    (strength : reduceStrength constants host user = .ok none) :
    reduceStrength constants host (user.redirect inst (.inst new)) = .ok none := by
  have product : ∀ {val other ci2}, reduceProduct host val ci2 = .ok none →
      reduceProduct host other ci2 = .ok none := by
    intro val other ci2 quiet
    rcases reduceProduct_cases host val ci2 with all | ⟨_, _, some, _⟩ | ⟨fails, _⟩
    · exact all other
    · simp [some] at quiet
    · simp [fails] at quiet
  have quotient : ∀ {val other ci2}, reduceQuotient host val ci2 = .ok none →
      reduceQuotient host other ci2 = .ok none := by
    intro val other ci2 quiet
    rcases reduceQuotient_cases host val ci2 with all | ⟨_, some, _⟩ | ⟨fails, _⟩
    · exact all other
    · simp [some] at quiet
    · simp [fails] at quiet
  cases shape : user.shape with
  | binary op val1 val2 =>
      cases op <;>
        simp only [reduceStrength, Inst.redirect_shape, shape, Shape.redirect,
          constantInt_multiplier_redirect, constantInt_redirect] at strength ⊢
      case Mul =>
        split at strength
        · exact product strength
        · rfl
      case UDiv | SDiv =>
        split at strength
        · exact quotient strength
        · rfl
  | phi | terminator | other => simp [reduceStrength, shape, Shape.redirect]

theorem algebraicIdentity_redirect {user inst : Inst} {width width' : Value → Option Nat}
    (fresh : Value.inst new ∉ user.operands)
    (sameWidth : width' (.inst user.id) = width (.inst user.id))
    (identity : algebraicIdentity constants width user = none) :
    algebraicIdentity constants width' (user.redirect inst (.inst new)) = none := by
  cases shape : user.shape with
  | binary op val1 val2 =>
      have operands : val1 ≠ .inst new ∧ val2 ≠ .inst new := by
        simp only [Inst.operands, shape, List.mem_cons, List.not_mem_nil, or_false, not_or] at fresh
        exact ⟨Ne.symm fresh.1, Ne.symm fresh.2⟩
      simp only [algebraicIdentity, Inst.redirect_shape, shape, Shape.redirect, Inst.redirect_id,
        sameWidth, constantInt_redirect, Value.redirect_eq_iff operands.1 operands.2] at identity ⊢
      cases declared : width (.inst user.id) with
      | none => rfl
      | some itype =>
          rw [declared] at identity
          exact Option.map_eq_none_iff.mpr (Option.map_eq_none_iff.mp identity)
  | phi | terminator | other => simp [algebraicIdentity, shape, Shape.redirect]

end Redirect

section QuietOperands

variable {width : Value → Option Nat} {inst : Inst} (quiet : Quiet constants host width inst)
include quiet

theorem Quiet.not_folded {op : BinaryOps} {val1 val2 : Value} {ci1 ci2 : APInt}
    (shape : inst.shape = .binary op val1 val2) (first : constants.constantInt val1 = some ci1)
    (second : constants.constantInt val2 = some ci2) : host.fold op ci1 ci2 = .ok none := by
  have folding := quiet.folding
  simp only [foldConstants, shape, first, second] at folding
  cases folded : host.fold op ci1 ci2 with
  | error fault => simp [folded, Except.map] at folding
  | ok result =>
      rw [folded] at folding
      rw [Option.map_eq_none_iff.mp (Except.ok.inj folding)]

theorem Quiet.variable_multiplicand {val1 val2 : Value} {ci2 : APInt}
    (shape : inst.shape = .binary .Mul val1 val2)
    (found : constants.constantInt (multiplier constants val1 val2) = some ci2) :
    constants.constantInt (multiplicand constants val1 val2) = none := by
  by_cases first : constants.classof val1 = true
  · simp only [multiplicand, multiplier, first, if_true] at found ⊢
    by_contra constant
    obtain ⟨ci1, second⟩ := Option.ne_none_iff_exists'.mp constant
    have unfolded : host.combine (· * ·) ci2 ci1 = .ok none := quiet.not_folded shape found second
    rcases combine_cases host (· * ·) ci2 ci1 with ⟨number, folded, -⟩ | ⟨fails, -⟩
    · simp [folded] at unfolded
    · simp [fails] at unfolded
  · rw [multiplicand, if_neg first]
    simpa [Constants.classof] using first

theorem Quiet.variable_dividend {op : BinaryOps} (division : op = .UDiv ∨ op = .SDiv)
    {val1 val2 : Value} {ci2 : APInt} (shape : inst.shape = .binary op val1 val2)
    (found : constants.constantInt val2 = some ci2) (nonzero : host.getSExtValue ci2 ≠ .ok 0) :
    constants.constantInt val1 = none := by
  by_contra constant
  obtain ⟨ci1, first⟩ := Option.ne_none_iff_exists'.mp constant
  have unfolded : host.quotient ci1 ci2 = .ok none := by
    rcases division with rfl | rfl <;> exact quiet.not_folded shape first found
  rcases quotient_cases host ci1 ci2 with ⟨-, zero⟩ | ⟨number, folded, -⟩ | ⟨fails, -⟩ | ⟨fails, -⟩
  · exact nonzero zero
  · simp [folded] at unfolded
  · simp [fails] at unfolded
  · simp [fails] at unfolded

/-- In a quiet instruction the operand that is shifted is no constant, for a product or
quotient of constants would have been folded. -/
theorem Quiet.reduction {reduction : Reduction}
    (reduced : reduceStrength constants host inst = .ok (some reduction)) :
    reduction.operand ∈ inst.operands ∧ constants.constantInt reduction.operand = none ∧
      (reduction.shift = .Shl ∨ reduction.shift = .LShr) ∧
      (reduction.finish = none ∨ reduction.finish = some .Add ∨ reduction.finish = some .Sub) := by
  rcases reduceStrength_cases constants host inst with
    none | ⟨val1, val2, ci2, shape, found, same⟩ | ⟨op, val1, val2, ci2, division, shape, found, same⟩
  · simp [none] at reduced
  · rw [same] at reduced
    rcases reduceProduct_cases host (multiplicand constants val1 val2) ci2 with
      all | ⟨amount, finish, some, shapes⟩ | ⟨fails, -⟩
    · simp [all] at reduced
    · obtain rfl : _ = reduction := by simpa [some] using reduced
      refine ⟨?_, quiet.variable_multiplicand shape found, Or.inl rfl, shapes⟩
      simp only [multiplicand, Inst.operands, shape]
      split <;> simp
    · simp [fails] at reduced
  · rw [same] at reduced
    rcases reduceQuotient_cases host val1 ci2 with all | ⟨amount, some, nonzero⟩ | ⟨fails, -⟩
    · simp [all] at reduced
    · obtain rfl : _ = reduction := by simpa [some] using reduced
      refine ⟨by simp [Inst.operands, shape], ?_, Or.inr rfl, Or.inl rfl⟩
      exact quiet.variable_dividend division shape found nonzero
    · simp [fails] at reduced

end QuietOperands

section NewInstructions

variable {inst : Inst} {op : BinaryOps} {val1 val2 : Value} {width : Value → Option Nat}

theorem settled_shift (shape : inst.shape = .binary op val1 val2) (shift : op = .Shl ∨ op = .LShr)
    (variable1 : constants.constantInt val1 = none) : Settled constants host width inst := by
  rcases shift with rfl | rfl <;>
    refine ⟨⟨?_, ?_⟩, ?_⟩ <;>
    simp [algebraicIdentity, identity, foldConstants, reduceStrength, shape, variable1]
  all_goals split <;> rfl

theorem settled_finish (shape : inst.shape = .binary op val1 val2) (finish : op = .Add ∨ op = .Sub)
    (variable1 : constants.constantInt val1 = none) (variable2 : constants.constantInt val2 = none)
    (different : val1 ≠ val2) : Settled constants host width inst := by
  rcases finish with rfl | rfl <;>
    refine ⟨⟨?_, ?_⟩, ?_⟩ <;>
    simp [algebraicIdentity, identity, foldConstants, reduceStrength, shape, variable1, variable2,
      different]
  all_goals split <;> rfl

end NewInstructions

structure Progress (constants : Constants) (host : Host) (block : Nat) (code : Code) (cursor : Nat) :
    Prop where
  bound : block < code.func.blocks.length
  unique : ((code.func.insts block).map Inst.id).Nodup
  settled : ∀ inst ∈ (code.func.insts block).take cursor, Settled constants host code.width inst
  quiet : ∀ inst ∈ (code.func.insts block).drop cursor, Quiet constants host code.width inst

section Strength

variable {block cursor : Nat} {code : Code} {inst : Inst} {reduction : Reduction}

theorem fresh_le_id {fresh : Nat} {new : Inst} (member : new ∈ reduction.instructions constants fresh) :
    fresh ≤ new.id := by
  unfold Reduction.instructions at member
  cases finish : reduction.finish with
  | none =>
      simp only [finish, List.mem_singleton] at member
      simp [member, createBinary]
  | some op =>
      simp only [finish, List.mem_cons, List.not_mem_nil, or_false] at member
      rcases member with rfl | rfl <;> simp [createBinary]

theorem nodup_instructions (reduction : Reduction) (fresh : Nat) :
    ((reduction.instructions constants fresh).map Inst.id).Nodup := by
  unfold Reduction.instructions
  cases reduction.finish <;> simp [createBinary]

theorem nodup_inserted (constants : Constants) (reduction : Reduction) {before after : List Inst}
    (split : code.func.insts block = before ++ inst :: after)
    (unique : ((code.func.insts block).map Inst.id).Nodup) :
    ((before ++ reduction.instructions constants code.func.freshId ++ inst :: after).map Inst.id).Nodup := by
  have moved : (before ++ reduction.instructions constants code.func.freshId ++ inst :: after).Perm
      (reduction.instructions constants code.func.freshId ++ code.func.insts block) := by
    rw [split, List.append_assoc]
    exact List.perm_append_comm_assoc _ _ _
  rw [(moved.map Inst.id).nodup_iff, List.map_append, List.nodup_append]
  refine ⟨nodup_instructions reduction _, unique, ?_⟩
  intro id new id' old same
  obtain ⟨created, createdMember, rfl⟩ := List.mem_map.mp new
  obtain ⟨user, userMember, rfl⟩ := List.mem_map.mp old
  have above := fresh_le_id createdMember
  have below := Func.id_lt_freshId ((code.func.mem_allInsts user).mpr ⟨block, userMember⟩)
  omega

theorem insts_reduce (constants : Constants) (reduction : Reduction) {before after : List Inst}
    (bound : block < code.func.blocks.length)
    (split : code.func.insts block = before ++ inst :: after)
    (unique : ((code.func.insts block).map Inst.id).Nodup) :
    (code.reduce constants block before.length inst reduction).func.insts block =
      (before ++ reduction.instructions constants code.func.freshId ++ after).map
        (·.redirect inst (.inst (reduction.final code.func.freshId))) := by
  have inserted := nodup_inserted constants reduction split unique
  rw [Code.reduce, Func.insts_replaceInstWithValue, Func.insts_insertBefore _ bound, if_pos rfl, split,
    List.take_left, List.drop_left, filter_ids_split inserted rfl]

theorem Quiet.reduce {user : Inst} (member : user ∈ code.func.insts block)
    (quiet : Quiet constants host code.width user) :
    Quiet constants host (code.reduce constants block cursor inst reduction).width
      (user.redirect inst (.inst (reduction.final code.func.freshId))) := by
  have known := (code.func.mem_allInsts user).mpr ⟨block, member⟩
  have final : code.func.freshId ≤ reduction.final code.func.freshId := by
    unfold Reduction.final
    split <;> omega
  refine ⟨algebraicIdentity_redirect ?_ ?_ quiet.identity, ?_⟩
  · intro operand
    have below := Func.operand_lt_freshId known operand
    omega
  · have below := Func.id_lt_freshId known
    refine if_neg ?_
    simp only [Value.inst.injEq, not_or]
    omega
  · rw [foldConstants_redirect]
    exact quiet.folding

theorem Settled.reduce {user : Inst} (member : user ∈ code.func.insts block)
    (settled : Settled constants host code.width user) :
    Settled constants host (code.reduce constants block cursor inst reduction).width
      (user.redirect inst (.inst (reduction.final code.func.freshId))) :=
  ⟨settled.toQuiet.reduce member, reduceStrength_redirect inst settled.strength⟩

theorem settled_instructions (member : inst ∈ code.func.insts block)
    (quiet : Quiet constants host code.width inst)
    (reduced : reduceStrength constants host inst = .ok (some reduction)) {new : Inst}
    (created : new ∈ reduction.instructions constants code.func.freshId)
    (width : Value → Option Nat) :
    Settled constants host width
      (new.redirect inst (.inst (reduction.final code.func.freshId))) := by
  obtain ⟨operand, variable1, shift, finish⟩ := quiet.reduction reduced
  have known := (code.func.mem_allInsts inst).mpr ⟨block, member⟩
  have unused : ∀ id, code.func.freshId ≤ id → reduction.operand ≠ .inst id := by
    rintro id above same
    have below := Func.operand_lt_freshId known (same ▸ operand)
    omega
  have shifted : ∀ final, Settled constants host width ((createBinary code.func.freshId reduction.shift
      reduction.operand (constants.ofInt reduction.amount)).redirect inst (.inst final)) :=
    fun final => settled_shift rfl shift (by rw [constantInt_redirect, variable1])
  rcases finish with none | some
  · simp only [Reduction.instructions, none, List.mem_singleton] at created
    rw [created]
    exact shifted _
  · have combined : ∃ op, reduction.finish = Option.some op ∧ (op = .Add ∨ op = .Sub) := by
      rcases some with add | sub
      · exact ⟨_, add, Or.inl rfl⟩
      · exact ⟨_, sub, Or.inr rfl⟩
    obtain ⟨op, isSome, addOrSub⟩ := combined
    simp only [Reduction.instructions, isSome, List.mem_cons, List.not_mem_nil, or_false] at created
    rcases created with rfl | rfl
    · exact shifted _
    · have different : Value.inst code.func.freshId ≠ reduction.operand :=
        (unused _ (Nat.le_refl _)).symm
      refine settled_finish rfl addOrSub (by simp) (by rw [constantInt_redirect, variable1]) ?_
      simp only [Reduction.final, isSome]
      rw [Ne, Value.redirect_eq_iff (by simp) (unused _ (by omega))]
      exact different

theorem Progress.skip (progress : Progress constants host block code cursor)
    (found : (code.func.insts block)[cursor]? = some inst)
    (nothing : reduceStrength constants host inst = .ok none) :
    Progress constants host block code (cursor + 1) := by
  obtain ⟨inside, rfl⟩ := List.getElem?_eq_some_iff.mp found
  have rest := progress.quiet
  rw [List.drop_eq_getElem_cons inside, List.forall_mem_cons] at rest
  refine ⟨progress.bound, progress.unique, ?_, rest.2⟩
  rw [List.take_succ_eq_append_getElem inside]
  intro user member
  rcases List.mem_append.mp member with early | here
  · exact progress.settled user early
  · rw [List.mem_singleton.mp here]
    exact ⟨rest.1, nothing⟩

theorem Progress.reduce (progress : Progress constants host block code cursor)
    (found : (code.func.insts block)[cursor]? = some inst)
    (reduced : reduceStrength constants host inst = .ok (some reduction)) :
    Progress constants host block (code.reduce constants block cursor inst reduction)
        (cursor + (reduction.instructions constants code.func.freshId).length) ∧
      ((code.reduce constants block cursor inst reduction).func.insts block).length + 1 =
        (code.func.insts block).length +
          (reduction.instructions constants code.func.freshId).length := by
  obtain ⟨before, after, split, rfl⟩ : ∃ before after,
      code.func.insts block = before ++ inst :: after ∧ before.length = cursor := by
    obtain ⟨inside, rfl⟩ := List.getElem?_eq_some_iff.mp found
    refine ⟨(code.func.insts block).take cursor, (code.func.insts block).drop (cursor + 1), ?_, ?_⟩
    · rw [← List.drop_eq_getElem_cons inside, List.take_append_drop]
    · exact List.length_take_of_le inside.le
  have settled := progress.settled
  have quiet := progress.quiet
  rw [split, List.take_left] at settled
  rw [split, List.drop_left, List.forall_mem_cons] at quiet
  have member : ∀ user ∈ before ++ inst :: after, user ∈ code.func.insts block := by simp [split]
  have insts := insts_reduce constants reduction progress.bound split progress.unique
  have front : (before ++ reduction.instructions constants code.func.freshId).length =
      before.length + (reduction.instructions constants code.func.freshId).length := List.length_append
  refine ⟨⟨?_, ?_, ?_, ?_⟩, ?_⟩
  · simpa [Code.reduce] using progress.bound
  · rw [insts, List.map_map]
    have inserted := nodup_inserted constants reduction split progress.unique
    exact inserted.sublist (((List.sublist_cons_self inst after).append_left _).map Inst.id)
  · rw [insts, ← front, List.map_append, List.take_left' (by simp)]
    intro user created
    obtain ⟨origin, inside, rfl⟩ := List.mem_map.mp created
    rcases List.mem_append.mp inside with old | new
    · exact (settled origin old).reduce (member origin (by simp [old]))
    · exact settled_instructions (member inst (by simp)) quiet.1 reduced new _
  · rw [insts, ← front, List.map_append, List.drop_left' (by simp)]
    intro user later
    obtain ⟨origin, inside, rfl⟩ := List.mem_map.mp later
    exact (quiet.2 origin inside).reduce (member origin (by simp [inside]))
  · rw [insts, split]
    simp only [List.length_map, List.length_append, List.length_cons]
    omega

theorem Progress.finished (progress : Progress constants host block code cursor)
    (passed : (code.func.insts block).length ≤ cursor) :
    ∀ inst ∈ code.func.insts block, Settled constants host code.width inst := by
  simpa [List.take_of_length_le passed] using progress.settled

end Strength

end LlvmGather
