import LlvmGather.Ir.Rewrite
import LlvmGather.LocalOpts.Identities
import LlvmGather.LocalOpts.Strength

/-!
The three transformations of `LocalOpts` as scans over the instructions of a block, and the
loop of `runOnModule` that repeats them.
-/

namespace LlvmGather

structure Code where
  func : Func
  width : Value → Option Nat

/-- The loop shared by `algebraic_optimizations` and `constant_folding`: an instruction for
which the rule has a value is replaced by it and the iterator moves on to the next one.
Replacing a value by itself never ends in `replaceAllUsesWith`. -/
def replaceScan (rule : Inst → Except Fault (Option Value)) (block : Nat) :
    (rounds cursor : Nat) → Func → Except (Fault × Inst) (Func × Bool)
  | 0, _, F => .ok (F, false)
  | rounds + 1, cursor, F =>
      match (F.insts block)[cursor]? with
      | none => .ok (F, false)
      | some inst =>
          match rule inst with
          | .error fault => .error (fault, inst)
          | .ok none => replaceScan rule block rounds (cursor + 1) F
          | .ok (some value) =>
              if value = .inst inst.id then .error (.ownReplacement, inst)
              else
                (replaceScan rule block rounds cursor (F.replaceInstWithValue inst value)).map
                  fun result => (result.1, true)

section Passes

variable (constants : Constants) (host : Host) (block : Nat)

def replacePass (rule : Inst → Except Fault (Option Value)) (code : Code) :
    Except (Fault × Inst) (Code × Bool) :=
  (replaceScan rule block (code.func.insts block).length 0 code.func).map
    fun result => (⟨result.1, code.width⟩, result.2)

def algebraicOptimizations (code : Code) : Except (Fault × Inst) (Code × Bool) :=
  replacePass block (fun inst => .ok (algebraicIdentity constants code.width inst)) code

def createBinary (id : Nat) (op : BinaryOps) (lhs rhs : Value) : Inst where
  id := id
  name := ""
  shape := .binary op lhs rhs
  isSafeToSpeculativelyExecute := true

def Reduction.instructions (reduction : Reduction) (fresh : Nat) : List Inst :=
  let modifiedInst := createBinary fresh reduction.shift reduction.operand
    (constants.ofInt reduction.amount)
  match reduction.finish with
  | none => [modifiedInst]
  | some op => [modifiedInst, createBinary (fresh + 1) op (.inst fresh) reduction.operand]

def Reduction.final (reduction : Reduction) (fresh : Nat) : Nat :=
  match reduction.finish with
  | none => fresh
  | some _ => fresh + 1

/-- The insertions, ending with `ReplaceInstWithInst`. A binary operator has the type of
its first operand. -/
def Code.reduce (code : Code) (cursor : Nat) (inst : Inst) (reduction : Reduction) : Code :=
  let fresh := code.func.freshId
  { func := (code.func.insertBefore block cursor
      (reduction.instructions constants fresh)).replaceInstWithValue inst (.inst (reduction.final fresh))
    width := fun value =>
      if value = .inst fresh ∨ value = .inst (reduction.final fresh) then
        code.width reduction.operand
      else code.width value }

end Passes

inductive Replaces (rule : Inst → Except Fault (Option Value)) (block : Nat) (F : Func) : Func → Prop
  | step {inst : Inst} {value : Value} : inst ∈ F.insts block → rule inst = .ok (some value) →
      value ≠ .inst inst.id → Replaces rule block F (F.replaceInstWithValue inst value)

def LocalRule (rule : Inst → Except Fault (Option Value)) : Prop :=
  ∀ inst value, rule inst = .ok (some value) →
    (∃ op val1 val2, inst.shape = .binary op val1 val2) ∧
      (value ∈ inst.operands ∨ ∀ id, value ≠ .inst id)

theorem Inst.not_isPhi_of_binary {inst : Inst}
    (binary : ∃ op val1 val2, inst.shape = .binary op val1 val2) : inst.isPhi = false := by
  obtain ⟨op, val1, val2, shape⟩ := binary
  simp [Inst.isPhi, shape]

inductive Scans (rule : Inst → Except Fault (Option Value)) (block : Nat) :
    Nat → Func → Except (Fault × Inst) (Func × Bool) → Prop
  | done {cursor : Nat} {F : Func} : (F.insts block).length ≤ cursor →
      Scans rule block cursor F (.ok (F, false))
  | skip {cursor : Nat} {F : Func} {inst : Inst} {result} :
      (F.insts block)[cursor]? = some inst → rule inst = .ok none →
      Scans rule block (cursor + 1) F result → Scans rule block cursor F result
  | fault {cursor : Nat} {F : Func} {inst : Inst} {fault : Fault} :
      (F.insts block)[cursor]? = some inst → rule inst = .error fault →
      Scans rule block cursor F (.error (fault, inst))
  | self {cursor : Nat} {F : Func} {inst : Inst} :
      (F.insts block)[cursor]? = some inst → rule inst = .ok (some (.inst inst.id)) →
      Scans rule block cursor F (.error (.ownReplacement, inst))
  | replace {cursor : Nat} {F : Func} {inst : Inst} {value : Value} {result} :
      (F.insts block)[cursor]? = some inst → rule inst = .ok (some value) → value ≠ .inst inst.id →
      Scans rule block cursor (F.replaceInstWithValue inst value) result →
      Scans rule block cursor F (result.map fun result => (result.1, true))

section Scan

variable {rule : Inst → Except Fault (Option Value)} {block rounds cursor : Nat} {F G : Func}

theorem length_replaceInstWithValue {inst : Inst} (member : inst ∈ F.insts block) (value : Value) :
    ((F.replaceInstWithValue inst value).insts block).length < (F.insts block).length := by
  rw [F.insts_replaceInstWithValue, List.length_map]
  exact List.length_filter_lt_length_iff_exists.mpr ⟨inst, member, by simp⟩

theorem replaceScan_scans (enough : (F.insts block).length ≤ cursor + rounds) :
    Scans rule block cursor F (replaceScan rule block rounds cursor F) := by
  induction rounds generalizing cursor F with
  | zero => exact .done enough
  | succ rounds ih =>
      rw [replaceScan]
      split
      · next found => exact .done (List.getElem?_eq_none_iff.mp found)
      · next inst found =>
          split
          · next fault fails => exact .fault found fails
          · next quiet => exact .skip found quiet (ih (by omega))
          · next value applies =>
              split
              · next own => exact .self found (own ▸ applies)
              · next other =>
                  have shorter := length_replaceInstWithValue (List.mem_of_getElem? found) value
                  exact .replace found applies other (ih (by omega))

theorem Scans.ok {result} (scans : Scans rule block cursor F result) {modified : Bool}
    (returns : result = .ok (G, modified)) :
    (modified = false → G = F ∧ ∀ inst ∈ (F.insts block).drop cursor, rule inst = .ok none) ∧
      (modified = true → Relation.TransGen (Replaces rule block) F G) := by
  induction scans generalizing G modified with
  | done end_ =>
      obtain ⟨rfl, rfl⟩ := Prod.mk.inj (Except.ok.inj returns)
      simp [List.drop_of_length_le end_]
  | skip found quiet _ ih =>
      obtain ⟨unmodified, replaced⟩ := ih returns
      refine ⟨fun none => ⟨(unmodified none).1, ?_⟩, replaced⟩
      obtain ⟨bound, rfl⟩ := List.getElem?_eq_some_iff.mp found
      rw [List.drop_eq_getElem_cons bound]
      exact List.forall_mem_cons.mpr ⟨quiet, (unmodified none).2⟩
  | fault | self => simp at returns
  | @replace cursor F inst value result found applies other _ ih =>
      have first : Replaces rule block F (F.replaceInstWithValue inst value) :=
        .step (List.mem_of_getElem? found) applies other
      cases result with
      | error => simp [Except.map] at returns
      | ok result =>
          obtain ⟨rfl, rfl⟩ := Prod.mk.inj (Except.ok.inj returns)
          refine ⟨by simp, fun _ => ?_⟩
          obtain ⟨unmodified, replaced⟩ := ih rfl
          cases modified : result.2 with
          | false =>
              rw [(unmodified modified).1]
              exact .single first
          | true => exact .head first (replaced modified)

theorem Scans.error {result} (scans : Scans rule block cursor F result) {fault : Fault} {inst : Inst}
    (fails : result = .error (fault, inst)) :
    ∃ G, Relation.ReflTransGen (Replaces rule block) F G ∧ inst ∈ G.insts block ∧
      (rule inst = .error fault ∨
        fault = .ownReplacement ∧ rule inst = .ok (some (.inst inst.id))) := by
  induction scans with
  | done => simp at fails
  | skip _ _ _ ih => exact ih fails
  | fault found failing =>
      obtain ⟨rfl, rfl⟩ := Prod.mk.inj (Except.error.inj fails)
      exact ⟨_, .refl, List.mem_of_getElem? found, Or.inl failing⟩
  | self found own =>
      obtain ⟨rfl, rfl⟩ := Prod.mk.inj (Except.error.inj fails)
      exact ⟨_, .refl, List.mem_of_getElem? found, Or.inr ⟨rfl, own⟩⟩
  | @replace cursor F replaced value result found applies other _ ih =>
      cases result with
      | ok result => simp [Except.map] at fails
      | error failure =>
          obtain ⟨G, steps, member, cause⟩ := ih fails
          exact ⟨G, .head (.step (List.mem_of_getElem? found) applies other) steps, member, cause⟩

theorem Scans.quiet {result} (scans : Scans rule block cursor F result)
    (quiet : ∀ inst ∈ F.insts block, rule inst = .ok none) : result = .ok (F, false) := by
  induction scans with
  | done => rfl
  | skip _ _ _ ih => exact ih quiet
  | fault found failing => simp [quiet _ (List.mem_of_getElem? found)] at failing
  | self found own => simp [quiet _ (List.mem_of_getElem? found)] at own
  | replace found applies _ _ _ => simp [quiet _ (List.mem_of_getElem? found)] at applies

theorem Replaces.length_lt (step : Replaces rule block F G) :
    (G.insts block).length < (F.insts block).length := by
  obtain ⟨member, _, _⟩ := step
  exact length_replaceInstWithValue member _

theorem Replaces.idsUnique (step : Replaces rule block F G)
    (unique : (F.allInsts.map Inst.id).Nodup) : (G.allInsts.map Inst.id).Nodup := by
  obtain ⟨_, _, _⟩ := step
  rw [F.allInsts_replaceInstWithValue, List.map_map]
  exact unique.sublist (List.filter_sublist.map _)

theorem scoped_replaceInstWithValue {inputs : Nat → Prop} (order : Scoped inputs (F.insts block))
    {inst : Inst} (member : inst ∈ F.insts block)
    (binary : ∃ op val1 val2, inst.shape = .binary op val1 val2) {value : Value}
    (source : value ∈ inst.operands ∨ ∀ id, value ≠ .inst id) :
    Scoped inputs ((F.replaceInstWithValue inst value).insts block) := by
  obtain ⟨before, after, split⟩ := List.append_of_mem member
  rw [F.insts_replaceInstWithValue, split]
  rw [split] at order
  rw [order.filter_eq]
  exact order.replace (Inst.not_isPhi_of_binary binary) source

theorem Replaces.scoped_block (step : Replaces rule block F G) (localRule : LocalRule rule)
    {inputs : Nat → Prop} (order : Scoped inputs (F.insts block)) :
    Scoped inputs (G.insts block) := by
  obtain ⟨member, applies, _⟩ := step
  obtain ⟨binary, source⟩ := localRule _ _ applies
  exact scoped_replaceInstWithValue order member binary source

theorem LocalRule.not_own (localRule : LocalRule rule) {inputs : Nat → Prop}
    (order : Scoped inputs (F.insts block)) {inst : Inst} (member : inst ∈ F.insts block) :
    rule inst ≠ .ok (some (.inst inst.id)) := by
  intro own
  obtain ⟨binary, source⟩ := localRule _ _ own
  obtain ⟨before, after, split⟩ := List.append_of_mem member
  rw [split] at order
  rcases source with operand | none
  · exact order.operand_earlier (Inst.not_isPhi_of_binary binary) List.mem_cons_self operand
  · exact none inst.id rfl

theorem scoped_of_replaces (localRule : LocalRule rule) {inputs : Nat → Prop}
    (order : Scoped inputs (F.insts block))
    (steps : Relation.ReflTransGen (Replaces rule block) F G) : Scoped inputs (G.insts block) := by
  induction steps with
  | refl => exact order
  | tail _ step ih => exact step.scoped_block localRule ih

theorem length_lt_of_replaces (steps : Relation.TransGen (Replaces rule block) F G) :
    (G.insts block).length < (F.insts block).length := by
  induction steps with
  | single step => exact step.length_lt
  | tail _ step ih => exact Nat.lt_trans step.length_lt ih

end Scan

section ReplacePass

variable {rule : Inst → Except Fault (Option Value)} {block : Nat} {code result : Code}

theorem replacePass_scans (rule : Inst → Except Fault (Option Value)) (block : Nat) (code : Code) :
    ∃ outcome, Scans rule block 0 code.func outcome ∧
      replacePass block rule code = outcome.map fun result => (⟨result.1, code.width⟩, result.2) :=
  ⟨_, replaceScan_scans (by omega), rfl⟩

theorem replacePass_ok {modified : Bool}
    (returns : replacePass block rule code = .ok (result, modified)) :
    Relation.ReflTransGen (Replaces rule block) code.func result.func ∧
      (modified = false → result = code ∧ ∀ inst ∈ code.func.insts block, rule inst = .ok none) ∧
      (modified = true →
        (result.func.insts block).length < (code.func.insts block).length) := by
  obtain ⟨outcome, scans, same⟩ := replacePass_scans rule block code
  rw [same] at returns
  cases outcome with
  | error failure => simp [Except.map] at returns
  | ok outcome =>
      obtain ⟨rfl, rfl⟩ := Prod.mk.inj (Except.ok.inj returns)
      obtain ⟨unmodified, replaced⟩ := scans.ok rfl
      refine ⟨?_, ?_, fun some => length_lt_of_replaces (replaced some)⟩
      · cases modified : outcome.2 with
        | false => rw [(unmodified modified).1]
        | true => exact (replaced modified).to_reflTransGen
      · intro none
        obtain ⟨unchanged, quiet⟩ := unmodified none
        exact ⟨by rw [unchanged], quiet⟩

theorem replacePass_error (localRule : LocalRule rule) {inputs : Nat → Prop}
    (order : Scoped inputs (code.func.insts block)) {fault : Fault} {inst : Inst}
    (fails : replacePass block rule code = .error (fault, inst)) :
    rule inst = .error fault ∧ ∃ G, Relation.ReflTransGen (Replaces rule block) code.func G ∧
      inst ∈ G.insts block := by
  obtain ⟨outcome, scans, same⟩ := replacePass_scans rule block code
  rw [same] at fails
  cases outcome with
  | ok outcome => simp [Except.map] at fails
  | error failure =>
      obtain rfl : failure = (fault, inst) := Except.error.inj fails
      obtain ⟨G, steps, member, cause | ⟨-, own⟩⟩ := scans.error rfl
      · exact ⟨cause, G, steps, member⟩
      · exact absurd own (localRule.not_own (scoped_of_replaces localRule order steps) member)

end ReplacePass

theorem localRule_identity (constants : Constants) (width : Value → Option Nat) :
    LocalRule fun inst => .ok (algebraicIdentity constants width inst) := by
  intro inst value applies
  obtain ⟨op, val1, val2, itype, simplified, shape, -, -, rfl⟩ :=
    algebraicIdentity_eq_some (Except.ok.inj applies)
  refine ⟨⟨op, val1, val2, shape⟩, ?_⟩
  cases simplified with
  | val1 => exact Or.inl (by simp [Inst.operands, shape, Simplified.value])
  | val2 => exact Or.inl (by simp [Inst.operands, shape, Simplified.value])
  | zero => exact Or.inr fun id => constants.ofInt_ne_inst _ id
  | one => exact Or.inr fun id => constants.ofInt_ne_inst _ id

theorem localRule_folding (constants : Constants) (host : Host) :
    LocalRule (foldConstants constants host) := by
  intro inst value applies
  rcases foldConstants_cases constants host inst with none | ⟨op, val1, val2, ci1, ci2, shape, -, -, folded⟩
  · simp [none] at applies
  · refine ⟨⟨op, val1, val2, shape⟩, Or.inr fun id => ?_⟩
    rw [folded] at applies
    cases result : host.fold op ci1 ci2 with
    | error fault => simp [result, Except.map] at applies
    | ok number =>
        rw [result] at applies
        obtain ⟨number, -, rfl⟩ := Option.map_eq_some_iff.mp (Except.ok.inj applies)
        exact constants.ofInt_ne_inst number id

end LlvmGather
