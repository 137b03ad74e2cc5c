import LlvmGather.Ir.Certificate
import LlvmGather.Ir.Redirection
import LlvmGather.LocalOpts.Passes

/-!
The algebraic identities keep the values of a block. Each replacement of the scan is sound
because the replaced instruction has the value of its replacement when it is reached, and
the values carry over from one replacement to the next.
-/

namespace LlvmGather

inductive Datum (Other : Type)
  | int (number : APInt)
  | other (value : Other)

def Inst.isPlain (inst : Inst) : Bool := !inst.isPhi && !inst.isTerminator

def Func.straightLine (F : Func) (block : Nat) : List Inst := (F.insts block).filter Inst.isPlain

section Typing

variable {Other World : Type}

/-- Integer constants and operators mean what they should, and a value of an integer type
is an integer of that width. Nothing is said about the other instructions. -/
structure IntegerSemantics (constants : Constants) (overShift : OverShift)
    (width : Value → Option Nat) (sem : Semantics (Datum Other) World) : Prop where
  byValue : sem.ByValue
  constant : ∀ number, sem.const (constants.get number) = .int number
  binary : ∀ {inst op val1 val2 bits}, inst.shape = .binary op val1 val2 →
    width (.inst inst.id) = some bits → ∀ left right world,
    sem.exec inst [.int ⟨bits, left⟩, .int ⟨bits, right⟩] world =
      (op.apply overShift left right).map fun result => (.int ⟨bits, result⟩, world)
  typed : ∀ {inst values world result next bits}, sem.exec inst values world = some (result, next) →
    width (.inst inst.id) = some bits → ∃ value, result = .int ⟨bits, value⟩

/-- The types of a block as the LLVM verifier checks them. -/
structure WellTyped (constants : Constants) (width : Value → Option Nat) (insts : List Inst) :
    Prop where
  constant : ∀ number, width (constants.ofInt number) = some number.width
  operands : ∀ inst ∈ insts, ∀ op val1 val2 bits, inst.shape = .binary op val1 val2 →
    width (.inst inst.id) = some bits → width val1 = some bits ∧ width val2 = some bits

def EnvTyped (width : Value → Option Nat) (sem : Semantics (Datum Other) World)
    (args : Nat → Datum Other) (env : Nat → Datum Other) : Prop :=
  ∀ value bits, width value = some bits →
    ∃ number, evalValue sem args env value = .int ⟨bits, number⟩

variable {constants : Constants} {overShift : OverShift} {width : Value → Option Nat}
  {sem : Semantics (Datum Other) World} {args : Nat → Datum Other}

theorem EnvTyped.exec (meaning : IntegerSemantics constants overShift width sem) {insts : List Inst}
    {memory final : (Nat → Datum Other) × World} (typed : EnvTyped width sem args memory.1)
    (executed : (execInsts sem args insts memory).2 = some final) :
    EnvTyped width sem args final.1 := by
  induction insts generalizing memory with
  | nil =>
      obtain rfl := Option.some.inj executed
      exact typed
  | cons inst rest ih =>
      obtain ⟨result, next, exec, executed⟩ := execInsts_cons_eq_some.mp executed
      refine ih ?_ executed
      intro value bits declared
      by_cases here : value = .inst inst.id
      · subst here
        simpa [evalValue] using meaning.typed exec declared
      · have same : evalValue sem args (Function.update memory.1 inst.id result) value =
            evalValue sem args memory.1 value := by
          cases value with
          | inst id => exact Function.update_of_ne (fun eq => here (by rw [eq])) _ _
          | arg index => rfl
          | const id => rfl
        rw [same]
        exact typed value bits declared

theorem evalValue_ofInt (meaning : IntegerSemantics constants overShift width sem)
    (env : Nat → Datum Other) (number : APInt) :
    evalValue sem args env (constants.ofInt number) = .int number :=
  meaning.constant number

theorem constant_reading (meaning : IntegerSemantics constants overShift width sem)
    {env : Nat → Datum Other} {value : Value} {number : APInt}
    (evaluated : evalValue sem args env value = .int number) {ci : APInt}
    (found : constants.constantInt value = some ci) : ci = number := by
  rw [constants.eq_ofInt found, evalValue_ofInt meaning] at evaluated
  exact Datum.int.inj evaluated

theorem algebraicIdentity_sound (meaning : IntegerSemantics constants overShift width sem)
    {insts : List Inst} (wellTyped : WellTyped constants width insts) {inst : Inst}
    (member : inst ∈ insts) {value : Value}
    (applies : algebraicIdentity constants width inst = some value) {env : Nat → Datum Other}
    (typed : EnvTyped width sem args env) {world next : World} {result : Datum Other}
    (exec : sem.exec inst (operandValues sem args inst env) world = some (result, next)) :
    next = world ∧ evalValue sem args env value = result := by
  obtain ⟨op, val1, val2, itype, simplified, shape, declared, found, rfl⟩ :=
    algebraicIdentity_eq_some applies
  obtain ⟨type1, type2⟩ := wellTyped.operands inst member op val1 val2 itype shape declared
  obtain ⟨left, leftValue⟩ := typed val1 itype type1
  obtain ⟨right, rightValue⟩ := typed val2 itype type2
  have values : operandValues sem args inst env = [.int ⟨itype, left⟩, .int ⟨itype, right⟩] := by
    simp [operandValues, Inst.operands, shape, leftValue, rightValue]
  rw [values, meaning.binary shape declared] at exec
  obtain ⟨bits, defined, outcome⟩ := Option.map_eq_some_iff.mp exec
  obtain ⟨rfl, rfl⟩ := Prod.mk.inj outcome
  refine ⟨rfl, ?_⟩
  have equal : decide (val1 = val2) = true → left = right := by
    intro same
    rw [of_decide_eq_true same, rightValue] at leftValue
    simpa using leftValue.symm
  have holds : Identity left right op simplified :=
    identity_cases (fun _ found => constant_reading meaning leftValue found)
      (fun _ found => constant_reading meaning rightValue found) equal found
  rw [← holds.sound defined]
  cases simplified with
  | val1 => exact leftValue
  | val2 => exact rightValue
  | zero => exact evalValue_ofInt meaning env _
  | one => exact evalValue_ofInt meaning env _

theorem algebraicIdentity_width {insts : List Inst} (wellTyped : WellTyped constants width insts)
    {inst : Inst} (member : inst ∈ insts) {value : Value}
    (applies : algebraicIdentity constants width inst = some value) :
    width value = width (.inst inst.id) := by
  obtain ⟨op, val1, val2, itype, simplified, shape, declared, -, rfl⟩ :=
    algebraicIdentity_eq_some applies
  obtain ⟨type1, type2⟩ := wellTyped.operands inst member op val1 val2 itype shape declared
  rw [declared]
  cases simplified with
  | val1 => exact type1
  | val2 => exact type2
  | zero => exact wellTyped.constant _
  | one => exact wellTyped.constant _

theorem width_redirect {inst : Inst} {value : Value} (same : width value = width (.inst inst.id))
    (operand : Value) : width (operand.redirect inst.id value) = width operand := by
  by_cases here : operand = .inst inst.id
  · rw [here, Value.redirect_self, same]
  · rw [Value.redirect_of_ne value here]

theorem WellTyped.replace {F : Func} {block : Nat} {inst : Inst} {value : Value}
    (wellTyped : WellTyped constants width (F.insts block))
    (same : width value = width (.inst inst.id)) :
    WellTyped constants width ((F.replaceInstWithValue inst value).insts block) := by
  refine ⟨wellTyped.constant, ?_⟩
  intro user member op val1 val2 bits shape declared
  obtain ⟨origin, inside, -, rfl⟩ := F.mem_replaceInstWithValue.mp member
  obtain ⟨lhs, rhs, originShape, rfl, rfl⟩ := Inst.binary_of_redirect shape
  rw [width_redirect same, width_redirect same]
  exact wellTyped.operands origin inside _ _ _ _ originShape declared

end Typing

/-- The same values before and after: in the instructions that remain in the block, and in
all the uses outside it. -/
structure SameValues {Val World : Type} (sem : Semantics Val World) (args : Nat → Val) (block : Nat)
    (F : Func) (left : Nat → Val) (G : Func) (right : Nat → Val) : Prop where
  remaining : ∀ user ∈ G.insts block, ∃ origin ∈ F.insts block, origin.id = user.id ∧
    right user.id = left user.id ∧
    operandValues sem args user right = operandValues sem args origin left
  outside : ∀ other, other ≠ block →
    (G.insts other).map (fun user => (user.id, operandValues sem args user right)) =
      (F.insts other).map fun user => (user.id, operandValues sem args user left)

section Preservation

variable {Val World : Type} {sem : Semantics Val World} {args : Nat → Val} {block : Nat}
  {F G H : Func} {left middle right : Nat → Val}

theorem SameValues.refl (sem : Semantics Val World) (args : Nat → Val) (block : Nat) (F : Func)
    (env : Nat → Val) : SameValues sem args block F env F env :=
  ⟨fun user member => ⟨user, member, rfl, rfl, rfl⟩, fun _ _ => rfl⟩

theorem SameValues.trans (first : SameValues sem args block F left G middle)
    (second : SameValues sem args block G middle H right) :
    SameValues sem args block F left H right := by
  refine ⟨?_, fun other apart => (second.outside other apart).trans (first.outside other apart)⟩
  intro user member
  obtain ⟨between, inside, sameId, value, operands⟩ := second.remaining user member
  obtain ⟨origin, originMember, originId, originValue, originOperands⟩ :=
    first.remaining between inside
  refine ⟨origin, originMember, originId.trans sameId, ?_, operands.trans originOperands⟩
  rw [value, ← sameId, originValue]

theorem Linked.sameValues {inst : Inst} {value : Value} (unique : (F.allInsts.map Inst.id).Nodup)
    (member : inst ∈ F.insts block) (linked : Linked sem args inst value left right) :
    SameValues sem args block F left (F.replaceInstWithValue inst value) right := by
  refine ⟨?_, ?_⟩
  · intro user userMember
    obtain ⟨origin, originMember, other, rfl⟩ := F.mem_replaceInstWithValue.mp userMember
    exact ⟨origin, originMember, rfl, (linked.agree _ other).symm,
      linked.operandValues_redirect origin⟩
  · intro other apart
    have stays : ∀ user ∈ F.insts other, decide (user.id ≠ inst.id) = true := by
      intro user userMember
      rw [decide_eq_true_eq]
      exact fun same => apart (Func.block_unique unique userMember member same)
    rw [F.insts_replaceInstWithValue, List.filter_eq_self.mpr stays, List.map_map]
    exact List.map_congr_left fun user _ => by simp [linked.operandValues_redirect user]

end Preservation

section Pass

variable {Other World : Type} {constants : Constants} {overShift : OverShift}
  {width : Value → Option Nat} {sem : Semantics (Datum Other) World} {args : Nat → Datum Other}
  {block : Nat} {inputs : Nat → Prop}

structure Reached (constants : Constants) (width : Value → Option Nat)
    (sem : Semantics (Datum Other) World) (args : Nat → Datum Other) (block : Nat)
    (inputs : Nat → Prop) (start final : (Nat → Datum Other) × World) (F G : Func) : Prop where
  unique : (G.allInsts.map Inst.id).Nodup
  order : Scoped inputs (G.insts block)
  wellTyped : WellTyped constants width (G.insts block)
  executed : ∃ env, (execInsts sem args (G.straightLine block) start).2 = some (env, final.2) ∧
    SameValues sem args block F final.1 G env

theorem Func.straightLine_split {F : Func} {inst : Inst} {before after : List Inst}
    (split : F.insts block = before ++ inst :: after)
    (binary : ∃ op val1 val2, inst.shape = .binary op val1 val2) :
    F.straightLine block = before.filter Inst.isPlain ++ inst :: after.filter Inst.isPlain := by
  obtain ⟨op, val1, val2, shape⟩ := binary
  rw [Func.straightLine, split, List.filter_append,
    List.filter_cons_of_pos (by simp [Inst.isPlain, Inst.isPhi, Inst.isTerminator, shape])]

theorem Func.straightLine_replace {F : Func} {inst : Inst} {value : Value}
    {before after : List Inst} (split : F.insts block = before ++ inst :: after)
    (order : Scoped inputs (before ++ inst :: after)) :
    (F.replaceInstWithValue inst value).straightLine block =
      (before.filter Inst.isPlain ++ after.filter Inst.isPlain).map (·.redirect inst value) := by
  have plain : Inst.isPlain ∘ (·.redirect inst value) = Inst.isPlain := by
    funext user
    simp [Inst.isPlain]
  rw [Func.straightLine, F.insts_replaceInstWithValue, split, order.filter_eq, List.filter_map,
    plain, List.filter_append]

theorem Reached.step (meaning : IntegerSemantics constants overShift width sem)
    {start final : (Nat → Datum Other) × World} (typed : EnvTyped width sem args start.1) {F G H : Func}
    (reached : Reached constants width sem args block inputs start final F G)
    (step : Replaces (fun inst => .ok (algebraicIdentity constants width inst)) block G H) :
    Reached constants width sem args block inputs start final F H := by
  have unique := step.idsUnique reached.unique
  have order := step.scoped_block (localRule_identity constants width) reached.order
  obtain ⟨env, executed, same⟩ := reached.executed
  obtain @⟨inst, value, member, applies, _⟩ := step
  obtain ⟨binary, source⟩ := localRule_identity constants width inst value applies
  have found := Except.ok.inj applies
  have plain := Inst.not_isPhi_of_binary binary
  obtain ⟨before, after, split⟩ := List.append_of_mem member
  have oldOrder := reached.order
  rw [split] at oldOrder
  rw [Func.straightLine_split split binary] at executed
  have unused : ∀ user ∈ before.filter Inst.isPlain, Value.inst inst.id ∉ user.operands := by
    intro user inside
    obtain ⟨early, userPlain⟩ := List.mem_filter.mp inside
    exact oldOrder.unused_before early (by simp_all [Inst.isPlain])
  have notOld : ∀ user ∈ after.filter Inst.isPlain, user.id ≠ inst.id := fun user inside =>
    oldOrder.other_id (List.mem_append_right _ (List.mem_of_mem_filter inside))
  have notNew : ∀ user ∈ after.filter Inst.isPlain, value ≠ .inst user.id := by
    rintro user inside rfl
    rcases source with operand | none
    · exact oldOrder.operand_earlier plain
        (List.mem_cons_of_mem _ (List.mem_of_mem_filter inside)) operand
    · exact none user.id rfl
  obtain ⟨right, finished, linked⟩ := execInsts_replace meaning.byValue unused notOld notNew executed
    fun middle result next begun exec =>
      algebraicIdentity_sound meaning reached.wellTyped member found (typed.exec meaning begun) exec
  refine ⟨unique, order, reached.wellTyped.replace
    (algebraicIdentity_width reached.wellTyped member found), right, ?_, ?_⟩
  · rw [Func.straightLine_replace split oldOrder]
    exact finished
  · exact same.trans (linked.sameValues reached.unique member)

theorem Reached.run (meaning : IntegerSemantics constants overShift width sem)
    {start final : (Nat → Datum Other) × World} (typed : EnvTyped width sem args start.1) {F G H : Func}
    (reached : Reached constants width sem args block inputs start final F G)
    (steps : Relation.ReflTransGen
      (Replaces (fun inst => .ok (algebraicIdentity constants width inst)) block) G H) :
    Reached constants width sem args block inputs start final F H := by
  induction steps with
  | refl => exact reached
  | tail _ step ih => exact ih.step meaning typed step

/-- The algebraic identities keep the values of the instructions that remain and of all
uses outside the block, and the operands that remain are still defined before their use. -/
theorem algebraicOptimizations_preserves {code : Code}
    (meaning : IntegerSemantics constants overShift code.width sem)
    (unique : (code.func.allInsts.map Inst.id).Nodup)
    (order : Scoped inputs (code.func.insts block))
    (wellTyped : WellTyped constants code.width (code.func.insts block))
    {start final : (Nat → Datum Other) × World} (typed : EnvTyped code.width sem args start.1)
    (executed : (execInsts sem args (code.func.straightLine block) start).2 = some final) :
    ∃ result modified, algebraicOptimizations constants block code = .ok (result, modified) ∧
      Scoped inputs (result.func.insts block) ∧
      ∃ env, (execInsts sem args (result.func.straightLine block) start).2 = some (env, final.2) ∧
        SameValues sem args block code.func final.1 result.func env := by
  cases returns : algebraicOptimizations constants block code with
  | error failure =>
      obtain ⟨fault, inst⟩ := failure
      have fails := (replacePass_error (localRule_identity constants code.width) order returns).1
      simp at fails
  | ok outcome =>
      obtain ⟨result, modified⟩ := outcome
      refine ⟨result, modified, rfl, ?_⟩
      have begun : Reached constants code.width sem args block inputs start final code.func code.func :=
        ⟨unique, order, wellTyped, final.1, executed, .refl sem args block code.func final.1⟩
      have reached := begun.run meaning typed (replacePass_ok returns).1
      exact ⟨reached.order, reached.executed⟩

end Pass

def integerResult (overShift : OverShift) (bits : Nat) (op : BinaryOps) :
    List (Datum Unit) → Option (Datum Unit)
  | [.int left, .int right] =>
      if left.width = bits ∧ right.width = bits then
        (op.apply overShift (left.value.setWidth bits) (right.value.setWidth bits)).map
          fun result => .int ⟨bits, result⟩
      else none
  | _ => none

def integerCode (constants : Constants) (overShift : OverShift) (width : Value → Option Nat) :
    Semantics (Datum Unit) Unit where
  const id :=
    match constants.asInt id with
    | some number => .int number
    | none => .other ()
  exec inst values world :=
    match width (.inst inst.id), inst.shape with
    | some bits, .binary op _ _ => (integerResult overShift bits op values).map fun result => (result, world)
    | some _, _ => none
    | none, _ => some (.other (), world)
  branch _ _ _ := none

theorem integerCode_meaning (constants : Constants) (overShift : OverShift)
    (width : Value → Option Nat) :
    IntegerSemantics constants overShift width (integerCode constants overShift width) := by
  refine ⟨?_, ?_, ?_, ?_⟩
  · intro user old new
    funext values world
    simp only [integerCode, Inst.redirect_id, Inst.redirect_shape]
    cases width (.inst user.id) <;> cases user.shape <;> rfl
  · intro number
    simp [integerCode, constants.asInt_get]
  · intro inst op val1 val2 bits shape declared left right world
    simp [integerCode, integerResult, declared, shape, Function.comp_def]
  · intro inst values world result next bits exec declared
    cases shape : inst.shape with
    | binary op lhs rhs =>
        simp only [integerCode, declared, shape] at exec
        obtain ⟨value, computed, outcome⟩ := Option.map_eq_some_iff.mp exec
        obtain ⟨rfl, -⟩ := Prod.mk.inj outcome
        unfold integerResult at computed
        split at computed
        · obtain ⟨-, computed⟩ := Option.ite_none_right_eq_some.mp computed
          obtain ⟨number, -, rfl⟩ := Option.map_eq_some_iff.mp computed
          exact ⟨number, rfl⟩
        · simp at computed
    | phi | terminator | other => simp [integerCode, declared, shape] at exec

def sampleIdentities : Code where
  func :=
    { argNames := ["x", "y"]
      blocks := [⟨[
        { id := 0, name := "sum",
          shape := .binary .Add (.arg 0) (Constants.standard.ofInt ⟨8, 0⟩) },
        { id := 1, name := "difference", shape := .binary .Sub (.inst 0) (.arg 0) },
        { id := 2, name := "product", shape := .binary .Mul (.inst 1) (.arg 1) },
        { id := 3, name := "", shape := .terminator true [] [.inst 2] }]⟩] }
  width
    | .const id => (Constants.standard.asInt id).map APInt.width
    | .inst id => if id < 3 then some 8 else none
    | .arg _ => some 8

def sampleStart : (Nat → Datum Unit) × Unit := (fun _ => .int ⟨8, 0⟩, ())

def sampleArgs (index : Nat) : Datum Unit := .int ⟨8, BitVec.ofNat 8 (index + 7)⟩

theorem sampleStart_typed : EnvTyped sampleIdentities.width
    (integerCode .standard sampleOverShift sampleIdentities.width) sampleArgs sampleStart.1 := by
  intro value bits declared
  cases value with
  | arg index =>
      obtain rfl := Option.some.inj declared
      exact ⟨_, rfl⟩
  | inst id =>
      obtain ⟨-, same⟩ := Option.ite_none_right_eq_some.mp declared
      obtain rfl := Option.some.inj same
      exact ⟨_, rfl⟩
  | const id =>
      obtain ⟨number, found, rfl⟩ := Option.map_eq_some_iff.mp declared
      exact ⟨number.value, by simp [evalValue, integerCode, found]⟩

theorem sampleIdentities_ssa : StrictSSA sampleIdentities.func :=
  checkSsa_sound (show sampleIdentities.func.checkSsa (fun _ => []) = true by decide +kernel)

theorem sampleIdentities_typed : WellTyped .standard sampleIdentities.width
    (sampleIdentities.func.insts 0) := by
  have constant : ∀ number, sampleIdentities.width (Constants.standard.ofInt number) =
      some number.width := by
    intro number
    simp [sampleIdentities, Constants.ofInt, Constants.asInt_get]
  refine ⟨constant, ?_⟩
  intro inst member op val1 val2 bits shape declared
  simp only [sampleIdentities, Func.insts, List.getElem?_cons_zero, List.mem_cons,
    List.not_mem_nil, or_false] at member
  rcases member with rfl | rfl | rfl | rfl
  · obtain ⟨rfl, rfl, rfl⟩ := Shape.binary.inj shape
    exact ⟨declared, (constant _).trans declared⟩
  · obtain ⟨rfl, rfl, rfl⟩ := Shape.binary.inj shape
    exact ⟨declared, declared⟩
  · obtain ⟨rfl, rfl, rfl⟩ := Shape.binary.inj shape
    exact ⟨declared, declared⟩
  · simp at shape

theorem algebraicOptimizations_preserves_sample :
    ∃ result modified final,
      algebraicOptimizations .standard 0 sampleIdentities = .ok (result, modified) ∧
      Scoped (fun id => ¬ sampleIdentities.func.Defines 0 id) (result.func.insts 0) ∧
      ∃ env, (execInsts (integerCode .standard sampleOverShift sampleIdentities.width)
          sampleArgs (result.func.straightLine 0) sampleStart).2 = some (env, ()) ∧
        SameValues (integerCode .standard sampleOverShift sampleIdentities.width)
          sampleArgs 0 sampleIdentities.func final result.func env := by
  obtain ⟨final, executed⟩ : ∃ final, (execInsts
      (integerCode .standard sampleOverShift sampleIdentities.width) sampleArgs
      (sampleIdentities.func.straightLine 0) sampleStart).2 = some final := ⟨_, rfl⟩
  obtain ⟨result, modified, returns, order, kept⟩ := algebraicOptimizations_preserves
    (integerCode_meaning _ _ _) sampleIdentities_ssa.idsUnique
    (sampleIdentities_ssa.scoped_block (Func.entry_reachable _)) sampleIdentities_typed
    sampleStart_typed executed
  exact ⟨result, modified, final.1, returns, order, kept⟩

end LlvmGather
