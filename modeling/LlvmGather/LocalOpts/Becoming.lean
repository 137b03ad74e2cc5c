import LlvmGather.LocalOpts.Fixpoint

/-!
What the identities and the foldings of `LocalOpts` can make of the operands of a block, in
whatever order they are applied, and the instructions at which the compiler itself would
then stop.
-/

namespace LlvmGather

variable {constants : Constants} {host : Host} {width : Value → Option Nat}

def Replacement (constants : Constants) (host : Host) (width : Value → Option Nat) (inst : Inst)
    (value : Value) : Prop :=
  algebraicIdentity constants width inst = some value ∨
    foldConstants constants host inst = .ok (some value)

inductive Simplifies (constants : Constants) (host : Host) (width : Value → Option Nat)
    (block : Nat) (F : Func) : Func → Prop
  | step {inst : Inst} {value : Value} : inst ∈ F.insts block →
      Replacement constants host width inst value →
      Simplifies constants host width block F (F.replaceInstWithValue inst value)

theorem localRule_replacement {inst : Inst} {value : Value}
    (replaces : Replacement constants host width inst value) :
    (∃ op val1 val2, inst.shape = .binary op val1 val2) ∧
      (value ∈ inst.operands ∨ ∀ id, value ≠ .inst id) := by
  rcases replaces with applies | applies
  · exact localRule_identity constants width inst value (congrArg Except.ok applies)
  · exact localRule_folding constants host inst value applies

theorem Simplifies.scoped_block {block : Nat} {F G : Func}
    (step : Simplifies constants host width block F G) {inputs : Nat → Prop}
    (order : Scoped inputs (F.insts block)) : Scoped inputs (G.insts block) := by
  obtain ⟨member, replaces⟩ := step
  obtain ⟨binary, source⟩ := localRule_replacement replaces
  exact scoped_replaceInstWithValue order member binary source

/-- What the replacements of a block can make of a value. -/
inductive Becomes (constants : Constants) (host : Host) (width : Value → Option Nat)
    (insts : List Inst) : Value → Value → Prop
  | refl (value : Value) : Becomes constants host width insts value value
  | trans {first second third : Value} : Becomes constants host width insts first second →
      Becomes constants host width insts second third →
      Becomes constants host width insts first third
  | replaced {inst : Inst} {op : BinaryOps} {val1 val2 left right value : Value} :
      inst ∈ insts → inst.shape = .binary op val1 val2 →
      Becomes constants host width insts val1 left → Becomes constants host width insts val2 right →
      Replacement constants host width { inst with shape := .binary op left right } value →
      Becomes constants host width insts (.inst inst.id) value

def Rewritten (constants : Constants) (host : Host) (width : Value → Option Nat)
    (insts : List Inst) (inst : Inst) : Prop :=
  ∃ origin ∈ insts, origin.id = inst.id ∧ ∀ op left right, inst.shape = .binary op left right →
    ∃ val1 val2, origin.shape = .binary op val1 val2 ∧
      Becomes constants host width insts val1 left ∧ Becomes constants host width insts val2 right

section Derivation

variable {insts : List Inst} {inst user : Inst} {value : Value}

theorem Rewritten.becomes (rewritten : Rewritten constants host width insts inst)
    (replaces : Replacement constants host width inst value) :
    Becomes constants host width insts (.inst inst.id) value := by
  obtain ⟨op, left, right, shape⟩ := (localRule_replacement replaces).1
  obtain ⟨origin, member, same, operands⟩ := rewritten
  obtain ⟨val1, val2, originShape, first, second⟩ := operands op left right shape
  rw [← same]
  refine .replaced member originShape first second ?_
  simpa only [Replacement, algebraicIdentity, foldConstants, shape, same] using replaces

theorem Becomes.redirect {start operand : Value}
    (becomes : Becomes constants host width insts start operand)
    (replaced : Becomes constants host width insts (.inst inst.id) value) :
    Becomes constants host width insts start (operand.redirect inst.id value) := by
  by_cases here : operand = .inst inst.id
  · rw [here, Value.redirect_self]
    exact (here ▸ becomes).trans replaced
  · rwa [Value.redirect_of_ne value here]

theorem Rewritten.redirect (rewritten : Rewritten constants host width insts user)
    (replaced : Becomes constants host width insts (.inst inst.id) value) :
    Rewritten constants host width insts (user.redirect inst value) := by
  obtain ⟨origin, member, same, operands⟩ := rewritten
  refine ⟨origin, member, same, ?_⟩
  intro op left right shape
  obtain ⟨lhs, rhs, userShape, rfl, rfl⟩ := Inst.binary_of_redirect shape
  obtain ⟨val1, val2, originShape, first, second⟩ := operands op lhs rhs userShape
  exact ⟨val1, val2, originShape, first.redirect replaced, second.redirect replaced⟩

end Derivation

section Stopping

variable {inst : Inst} {fault : Fault}

end Stopping

end LlvmGather
