import LlvmGather.Ir.Rewrite
import LlvmGather.Ir.Simulation

/-!
Running a block in which an instruction has been replaced by another value. The two
environments differ only at the replaced instruction, whose value on the one side is that
of the replacement on the other.
-/

namespace LlvmGather

variable {Val World : Type} {sem : Semantics Val World} {args : Nat → Val}

def Semantics.ByValue (sem : Semantics Val World) : Prop :=
  ∀ user old new, sem.exec (user.redirect old new) = sem.exec user

theorem execInsts_cons_eq_some {inst : Inst} {rest : List Inst} {env : Nat → Val} {world : World}
    {final : (Nat → Val) × World} :
    (execInsts sem args (inst :: rest) (env, world)).2 = some final ↔
      ∃ value next, sem.exec inst (operandValues sem args inst env) world = some (value, next) ∧
        (execInsts sem args rest (Function.update env inst.id value, next)).2 = some final := by
  simp only [execInsts, execInst]
  cases sem.exec inst (operandValues sem args inst env) world with
  | none => simp
  | some result =>
      obtain ⟨value, next⟩ := result
      simp

theorem execInsts_append_eq_some {front back : List Inst} {memory final : (Nat → Val) × World} :
    (execInsts sem args (front ++ back) memory).2 = some final ↔
      ∃ middle, (execInsts sem args front memory).2 = some middle ∧
        (execInsts sem args back middle).2 = some final := by
  rw [execInsts_append]
  cases (execInsts sem args front memory).2 with
  | none => simp
  | some middle => simp

structure Linked (sem : Semantics Val World) (args : Nat → Val) (old : Inst) (new : Value)
    (left right : Nat → Val) : Prop where
  agree : Agree (· = old.id) left right
  replaced : left old.id = evalValue sem args right new

section Linked

variable {old : Inst} {new : Value} {left right : Nat → Val}

theorem Linked.evalValue_redirect (linked : Linked sem args old new left right) (value : Value) :
    evalValue sem args right (value.redirect old.id new) = evalValue sem args left value := by
  by_cases here : value = .inst old.id
  · subst here
    rw [Value.redirect_self]
    exact linked.replaced.symm
  · rw [Value.redirect_of_ne new here]
    refine (evalValue_agree linked.agree ?_).symm
    rintro id rfl same
    exact here (by rw [same])

theorem Linked.operandValues_redirect (linked : Linked sem args old new left right) (user : Inst) :
    operandValues sem args (user.redirect old new) right = operandValues sem args user left := by
  rw [operandValues, Inst.redirect_operands, List.map_map]
  exact List.map_congr_left fun value _ => linked.evalValue_redirect value

theorem Linked.update (linked : Linked sem args old new left right) {id : Nat} (value : Val)
    (notOld : id ≠ old.id) (notNew : new ≠ .inst id) :
    Linked sem args old new (Function.update left id value) (Function.update right id value) := by
  refine ⟨linked.agree.update id value, ?_⟩
  rw [Function.update_of_ne notOld.symm, linked.replaced]
  cases new with
  | inst other =>
      have apart : other ≠ id := fun same => notNew (by rw [same])
      simp [evalValue, apart]
  | arg index => rfl
  | const id => rfl

theorem execInsts_linked (byValue : sem.ByValue) {users : List Inst}
    (notOld : ∀ user ∈ users, user.id ≠ old.id) (notNew : ∀ user ∈ users, new ≠ .inst user.id)
    (linked : Linked sem args old new left right) {world : World} {final : (Nat → Val) × World}
    (executed : (execInsts sem args users (left, world)).2 = some final) :
    ∃ right', (execInsts sem args (users.map (·.redirect old new)) (right, world)).2 =
        some (right', final.2) ∧ Linked sem args old new final.1 right' := by
  induction users generalizing left right world with
  | nil =>
      obtain rfl := Option.some.inj executed
      exact ⟨right, rfl, linked⟩
  | cons user rest ih =>
      rw [List.forall_mem_cons] at notOld notNew
      obtain ⟨value, next, exec, executed⟩ := execInsts_cons_eq_some.mp executed
      obtain ⟨right', finished, linked'⟩ :=
        ih notOld.2 notNew.2 (linked.update value notOld.1 notNew.1) executed
      refine ⟨right', ?_, linked'⟩
      rw [List.map_cons, execInsts_cons_eq_some]
      refine ⟨value, next, ?_, finished⟩
      rw [byValue, linked.operandValues_redirect, exec]

theorem execInsts_unused (byValue : sem.ByValue) {users : List Inst}
    (unused : ∀ user ∈ users, Value.inst old.id ∉ user.operands) {env : Nat → Val} {world : World}
    {final : (Nat → Val) × World}
    (executed : (execInsts sem args users (env, world)).2 = some final) :
    (execInsts sem args (users.map (·.redirect old new)) (env, world)).2 = some final := by
  induction users generalizing env world with
  | nil => exact executed
  | cons user rest ih =>
      rw [List.forall_mem_cons] at unused
      obtain ⟨value, next, exec, executed⟩ := execInsts_cons_eq_some.mp executed
      rw [List.map_cons, execInsts_cons_eq_some]
      refine ⟨value, next, ?_, ih unused.2 executed⟩
      have values : operandValues sem args (user.redirect old new) env =
          operandValues sem args user env := by
        rw [operandValues, Inst.redirect_operands, List.map_map]
        apply List.map_congr_left
        intro operand member
        have other : operand ≠ .inst old.id := fun same => unused.1 (same ▸ member)
        simp [Value.redirect_of_ne new other]
      rw [byValue, values, exec]

theorem execInsts_replace (byValue : sem.ByValue) {front back : List Inst}
    (unused : ∀ user ∈ front, Value.inst old.id ∉ user.operands)
    (notOld : ∀ user ∈ back, user.id ≠ old.id) (notNew : ∀ user ∈ back, new ≠ .inst user.id)
    {memory final : (Nat → Val) × World}
    (executed : (execInsts sem args (front ++ old :: back) memory).2 = some final)
    (sound : ∀ middle value next, (execInsts sem args front memory).2 = some middle →
      sem.exec old (operandValues sem args old middle.1) middle.2 = some (value, next) →
      next = middle.2 ∧ evalValue sem args middle.1 new = value) :
    ∃ right, (execInsts sem args ((front ++ back).map (·.redirect old new)) memory).2 =
        some (right, final.2) ∧ Linked sem args old new final.1 right := by
  obtain ⟨middle, before, after⟩ := execInsts_append_eq_some.mp executed
  obtain ⟨value, next, exec, after⟩ := execInsts_cons_eq_some.mp after
  obtain ⟨rfl, same⟩ := sound middle value next before exec
  have linked : Linked sem args old new (Function.update middle.1 old.id value) middle.1 := by
    refine ⟨?_, by simp [same]⟩
    intro id other
    exact Function.update_of_ne other _ _
  obtain ⟨right, finished, linked'⟩ := execInsts_linked byValue notOld notNew linked after
  refine ⟨right, ?_, linked'⟩
  rw [List.map_append, execInsts_append_eq_some]
  exact ⟨middle, execInsts_unused byValue unused before, finished⟩

end Linked

end LlvmGather
