import LlvmGather.Ir.Semantics

/-!
Two runs side by side. The environments agree outside a set of values that nothing
reads, and the lemmas say that executing the same instructions on both sides keeps it so.
-/

namespace LlvmGather

variable {Val World : Type}

def Agree (differs : Nat → Prop) (left right : Nat → Val) : Prop :=
  ∀ id, ¬ differs id → left id = right id

inductive MemoryAgree (differs : Nat → Prop) :
    Option ((Nat → Val) × World) → Option ((Nat → Val) × World) → Prop
  | undefined : MemoryAgree differs none none
  | defined {left right : Nat → Val} {world : World} : Agree differs left right →
      MemoryAgree differs (some (left, world)) (some (right, world))

inductive Outcome.Rel (R : State Val World → State Val World → Prop) :
    Outcome Val World → Outcome Val World → Prop
  | running {left right : State Val World} : R left right →
      Outcome.Rel R (.running left) (.running right)
  | returned {values : List Val} : Outcome.Rel R (.returned values) (.returned values)
  | undefined : Outcome.Rel R .undefined .undefined

def Matches (exact : Bool) (R : State Val World → State Val World → Prop)
    (left right : List (Event Val) × Outcome Val World) : Prop :=
  (left.1 = right.1 ∧ Outcome.Rel R left.2 right.2) ∨
    (exact = false ∧ left.2 = .undefined ∧ left.1 <+: right.1)

def BodyMatches (exact : Bool) (differs : Nat → Prop)
    (left right : List (Event Val) × Option ((Nat → Val) × World)) : Prop :=
  (left.1 = right.1 ∧ MemoryAgree differs left.2 right.2) ∨
    (exact = false ∧ left.2 = none ∧ left.1 <+: right.1)

theorem MemoryAgree.split {differs : Nat → Prop} {left right : Option ((Nat → Val) × World)}
    (agree : MemoryAgree differs left right) : (left = none ∧ right = none) ∨
      ∃ env env' world, left = some (env, world) ∧ right = some (env', world) ∧
        Agree differs env env' := by
  cases agree with
  | undefined => exact Or.inl ⟨rfl, rfl⟩
  | defined agree => exact Or.inr ⟨_, _, _, rfl, rfl, agree⟩

theorem Agree.refl (differs : Nat → Prop) (env : Nat → Val) : Agree differs env env :=
  fun _ _ => rfl

theorem Agree.update {differs : Nat → Prop} {left right : Nat → Val} (agree : Agree differs left right)
    (id : Nat) (value : Val) :
    Agree differs (Function.update left id value) (Function.update right id value) := by
  intro other same
  by_cases here : other = id
  · subst here
    simp
  · simpa [here] using agree other same

theorem Matches.prepend {exact : Bool} {R : State Val World → State Val World → Prop}
    {left right : List (Event Val) × Outcome Val World} (matched : Matches exact R left right)
    (trace : List (Event Val)) :
    Matches exact R (trace ++ left.1, left.2) (trace ++ right.1, right.2) := by
  rcases matched with ⟨traces, outcomes⟩ | ⟨loose, stopped, before⟩
  · exact Or.inl ⟨by simp [traces], outcomes⟩
  · exact Or.inr ⟨loose, stopped, List.prefix_append_right_inj trace |>.mpr before⟩

section Execution

variable {sem : Semantics Val World} {args : Nat → Val} {differs : Nat → Prop}

theorem evalValue_agree {left right : Nat → Val} (agree : Agree differs left right) {value : Value}
    (unread : ∀ id, value = .inst id → ¬ differs id) :
    evalValue sem args left value = evalValue sem args right value := by
  cases value with
  | inst id => exact agree id (unread id rfl)
  | arg index => rfl
  | const id => rfl

theorem operandValues_agree {left right : Nat → Val} (agree : Agree differs left right) {inst : Inst}
    (unread : ∀ id, .inst id ∈ inst.operands → ¬ differs id) :
    operandValues sem args inst left = operandValues sem args inst right := by
  apply List.map_congr_left
  intro value member
  exact evalValue_agree agree fun id same => unread id (same ▸ member)

theorem assignPhis_agree {prev : Option Nat} {old old' : Nat → Val} {phis : List Inst}
    (reads : ∀ inst ∈ phis, ∀ entry ∈ inst.incoming, some entry.2 = prev →
      evalValue sem args old entry.1 = evalValue sem args old' entry.1)
    {left right : Nat → Val} (agree : Agree differs left right) :
    (assignPhis sem args prev old phis left = none ∧
      assignPhis sem args prev old' phis right = none) ∨
    ∃ env env', assignPhis sem args prev old phis left = some env ∧
      assignPhis sem args prev old' phis right = some env' ∧ Agree differs env env' := by
  induction phis generalizing left right with
  | nil => exact Or.inr ⟨left, right, rfl, rfl, agree⟩
  | cons inst rest ih =>
      have restReads := fun other member => reads other (List.mem_cons_of_mem inst member)
      simp only [assignPhis, phiValue]
      cases found : inst.incoming.find? (some ·.2 = prev) with
      | none => exact Or.inl ⟨rfl, rfl⟩
      | some entry =>
          have same := reads inst List.mem_cons_self entry (List.mem_of_find?_eq_some found)
            (by simpa using List.find?_some found)
          simp only [same]
          exact ih restReads (agree.update inst.id _)

theorem assignPhis_frame {prev : Option Nat} {old : Nat → Val} {phis : List Inst}
    {start final : Nat → Val} (assigned : assignPhis sem args prev old phis start = some final)
    {id : Nat} (other : ∀ inst ∈ phis, inst.id ≠ id) : final id = start id := by
  induction phis generalizing start with
  | nil =>
      obtain rfl := Option.some.inj assigned
      rfl
  | cons inst rest ih =>
      simp only [assignPhis] at assigned
      split at assigned
      · rename_i value _
        rw [ih assigned fun next member => other next (List.mem_cons_of_mem _ member),
          Function.update_of_ne (Ne.symm (other inst List.mem_cons_self))]
      · simp at assigned

theorem execInst_agree {inst : Inst} (unread : ∀ id, .inst id ∈ inst.operands → ¬ differs id)
    {left right : Nat → Val} (agree : Agree differs left right) (world : World) :
    (execInst sem args inst (left, world)).1 = (execInst sem args inst (right, world)).1 ∧
    MemoryAgree differs (execInst sem args inst (left, world)).2
      (execInst sem args inst (right, world)).2 := by
  have values : operandValues sem args inst left = operandValues sem args inst right :=
    operandValues_agree agree unread
  simp only [execInst, values, true_and]
  cases sem.exec inst (operandValues sem args inst right) world with
  | none => exact MemoryAgree.undefined
  | some result => exact MemoryAgree.defined (agree.update inst.id result.1)

theorem execInsts_agree {insts : List Inst}
    (unread : ∀ inst ∈ insts, ∀ id, .inst id ∈ inst.operands → ¬ differs id)
    {left right : Nat → Val} (agree : Agree differs left right) (world : World) :
    (execInsts sem args insts (left, world)).1 = (execInsts sem args insts (right, world)).1 ∧
    MemoryAgree differs (execInsts sem args insts (left, world)).2
      (execInsts sem args insts (right, world)).2 := by
  induction insts generalizing left right world with
  | nil => exact ⟨rfl, MemoryAgree.defined agree⟩
  | cons inst rest ih =>
      obtain ⟨traces, memories⟩ :
          (execInst sem args inst (left, world)).1 = (execInst sem args inst (right, world)).1 ∧
          MemoryAgree differs (execInst sem args inst (left, world)).2
            (execInst sem args inst (right, world)).2 :=
        execInst_agree (unread inst List.mem_cons_self) agree world
      simp only [execInsts, traces]
      rcases memories.split with ⟨none, none'⟩ | ⟨env, env', next, some, some', nextAgree⟩
      · simp only [none, none', true_and]
        exact MemoryAgree.undefined
      · obtain ⟨restTraces, restMemories⟩ :=
          ih (fun other member => unread other (List.mem_cons_of_mem inst member)) nextAgree next
        simp only [some, some', restTraces, true_and]
        exact restMemories

theorem execInsts_append (front back : List Inst) (memory : (Nat → Val) × World) :
    execInsts sem args (front ++ back) memory =
      match (execInsts sem args front memory).2 with
      | some next =>
          ((execInsts sem args front memory).1 ++ (execInsts sem args back next).1,
            (execInsts sem args back next).2)
      | none => ((execInsts sem args front memory).1, none) := by
  induction front generalizing memory with
  | nil => simp [execInsts]
  | cons inst rest ih =>
      simp only [List.cons_append, execInsts]
      cases (execInst sem args inst memory).2 with
      | none => rfl
      | some next =>
          simp only [ih next]
          cases (execInsts sem args rest next).2 with
          | none => rfl
          | some final => simp

theorem execInsts_frame {insts : List Inst} {start : (Nat → Val) × World}
    {final : (Nat → Val) × World} (executed : (execInsts sem args insts start).2 = some final)
    {id : Nat} (other : ∀ inst ∈ insts, inst.id ≠ id) : final.1 id = start.1 id := by
  induction insts generalizing start with
  | nil =>
      obtain rfl := Option.some.inj executed
      rfl
  | cons inst rest ih =>
      simp only [execInsts] at executed
      split at executed
      · rename_i next first
        rw [ih executed fun later member => other later (List.mem_cons_of_mem _ member)]
        simp only [execInst, Option.map_eq_some_iff] at first
        obtain ⟨result, _, rfl⟩ := first
        exact Function.update_of_ne (Ne.symm (other inst List.mem_cons_self)) _ _
      · simp at executed

theorem execTerminator_agree {block : Nat} {last : Inst}
    (unread : ∀ id, .inst id ∈ last.operands → ¬ differs id) {left right : Nat → Val}
    (agree : Agree differs left right) (world : World) {exact : Bool}
    {R : State Val World → State Val World → Prop}
    (arrives : ∀ target ∈ last.targets, ∀ value world',
      R ⟨target, some block, Function.update left last.id value, world'⟩
        ⟨target, some block, Function.update right last.id value, world'⟩) :
    Matches exact R (execTerminator sem args block last (left, world))
      (execTerminator sem args block last (right, world)) := by
  have values : operandValues sem args last left = operandValues sem args last right :=
    operandValues_agree agree unread
  left
  simp only [execTerminator, values]
  cases sem.exec last (operandValues sem args last right) world with
  | none => exact ⟨rfl, Outcome.Rel.undefined⟩
  | some result =>
      simp only
      split
      · exact ⟨rfl, Outcome.Rel.returned⟩
      · split
        · split
          · rename_i target _ inside
            exact ⟨rfl, Outcome.Rel.running (arrives target inside _ _)⟩
          · exact ⟨rfl, Outcome.Rel.undefined⟩
        · exact ⟨rfl, Outcome.Rel.undefined⟩

theorem execBody_matches {exact : Bool} {R : State Val World → State Val World → Prop}
    {block : Nat} {body body' : List Inst} {last : Option Inst} {memory memory' : (Nat → Val) × World}
    (bodies : BodyMatches exact differs (execInsts sem args body memory)
      (execInsts sem args body' memory'))
    (unread : ∀ inst, last = some inst → ∀ id, .inst id ∈ inst.operands → ¬ differs id)
    (arrives : ∀ left right world, (execInsts sem args body memory).2 = some (left, world) →
      (execInsts sem args body' memory').2 = some (right, world) → Agree differs left right →
      ∀ inst, last = some inst → ∀ target ∈ inst.targets, ∀ value world',
        R ⟨target, some block, Function.update left inst.id value, world'⟩
          ⟨target, some block, Function.update right inst.id value, world'⟩) :
    Matches exact R (execBody sem args block body last memory)
      (execBody sem args block body' last memory') := by
  unfold execBody
  rcases bodies with ⟨traces, memories⟩ | ⟨loose, stopped, before⟩
  · rw [traces]
    rcases memories.split with ⟨none, none'⟩ | ⟨left, right, world, some, some', agree⟩
    · rw [none, none']
      exact Or.inl ⟨rfl, Outcome.Rel.undefined⟩
    · rw [some, some']
      cases last with
      | none => exact Or.inl ⟨rfl, Outcome.Rel.undefined⟩
      | some inst =>
          exact (execTerminator_agree (unread inst rfl) agree world
            (arrives left right world some some' agree inst rfl)).prepend _
  · rw [stopped]
    refine Or.inr ⟨loose, rfl, ?_⟩
    cases (execInsts sem args body' memory').2 with
    | none => exact before
    | some next =>
        cases last with
        | none => exact before
        | some inst => exact before.trans (List.prefix_append _ _)

theorem run_matches {exact : Bool} {R : State Val World → State Val World → Prop} {F G : Func}
    (step : ∀ left right, R left right →
      Matches exact R (runBlock sem args F left) (runBlock sem args G right))
    (fuel : Nat) {left right : State Val World} (related : R left right) :
    Matches exact R (run sem args F fuel left) (run sem args G fuel right) := by
  induction fuel generalizing left right with
  | zero => exact Or.inl ⟨rfl, Outcome.Rel.running related⟩
  | succ fuel ih =>
      simp only [run]
      rcases step left right related with ⟨traces, outcomes⟩ | ⟨loose, stopped, before⟩
      · rw [traces]
        generalize (runBlock sem args F left).2 = first at outcomes
        generalize (runBlock sem args G right).2 = second at outcomes
        cases outcomes with
        | running next => exact (ih next).prepend _
        | returned => exact Or.inl ⟨rfl, Outcome.Rel.returned⟩
        | undefined => exact Or.inl ⟨rfl, Outcome.Rel.undefined⟩
      · refine Or.inr ⟨loose, ?_, ?_⟩
        · simp [stopped]
        · simp only [stopped]
          split
          · exact before.trans (List.prefix_append _ _)
          · exact before

end Execution

theorem Outcome.Rel.same {R : State Val World → State Val World → Prop}
    (observed : ∀ left right, R left right → left.block = right.block ∧ left.world = right.world)
    {left right : Outcome Val World} (related : Outcome.Rel R left right) :
    Outcome.Same left right := by
  cases related with
  | running related => exact Outcome.Same.running (observed _ _ related).1 (observed _ _ related).2
  | returned => exact Outcome.Same.returned
  | undefined => exact Outcome.Same.undefined

theorem Preserves.of_step {sem : Semantics Val World} {F G : Func}
    (R : (Nat → Val) → State Val World → State Val World → Prop)
    (observed : ∀ args left right, R args left right →
      left.block = right.block ∧ left.world = right.world)
    (start : ∀ args env world, R args (.start F env world) (.start G env world))
    (step : ∀ args left right, R args left right →
      Matches true (R args) (runBlock sem args F left) (runBlock sem args G right)) :
    Preserves sem F G := by
  intro args env world fuel
  rcases run_matches (step args) fuel (start args env world) with ⟨traces, outcomes⟩ | ⟨loose, _⟩
  · exact ⟨traces, outcomes.same (observed args)⟩
  · cases loose

theorem Refines.of_step {sem : Semantics Val World} {F G : Func}
    (R : (Nat → Val) → State Val World → State Val World → Prop)
    (observed : ∀ args left right, R args left right →
      left.block = right.block ∧ left.world = right.world)
    (start : ∀ args env world, R args (.start F env world) (.start G env world))
    (step : ∀ args left right, R args left right →
      Matches false (R args) (runBlock sem args F left) (runBlock sem args G right)) :
    Refines sem F G := by
  intro args env world fuel
  rcases run_matches (step args) fuel (start args env world) with
    ⟨traces, outcomes⟩ | ⟨_, stopped, before⟩
  · exact Or.inl ⟨traces, outcomes.same (observed args)⟩
  · exact Or.inr ⟨stopped, before⟩

theorem Outcome.Same.trans {first second third : Outcome Val World}
    (left : Outcome.Same first second) (right : Outcome.Same second third) :
    Outcome.Same first third := by
  cases left with
  | running blocks worlds =>
      cases right with
      | running blocks' worlds' =>
          exact Outcome.Same.running (blocks.trans blocks') (worlds.trans worlds')
  | returned => exact right
  | undefined => exact right

theorem Outcome.Same.refl (outcome : Outcome Val World) : Outcome.Same outcome outcome := by
  cases outcome with
  | running state => exact Outcome.Same.running rfl rfl
  | returned values => exact Outcome.Same.returned
  | undefined => exact Outcome.Same.undefined

theorem Preserves.refl (sem : Semantics Val World) (F : Func) : Preserves sem F F :=
  fun _ _ _ _ => ⟨rfl, Outcome.Same.refl _⟩

theorem Preserves.trans {sem : Semantics Val World} {F G H : Func} (first : Preserves sem F G)
    (second : Preserves sem G H) : Preserves sem F H := by
  intro args env world fuel
  obtain ⟨traces, outcomes⟩ := first args env world fuel
  obtain ⟨traces', outcomes'⟩ := second args env world fuel
  exact ⟨traces.trans traces', outcomes.trans outcomes'⟩

theorem Refines.refl (sem : Semantics Val World) (F : Func) : Refines sem F F :=
  fun _ _ _ _ => Or.inl ⟨rfl, Outcome.Same.refl _⟩

theorem Refines.trans {sem : Semantics Val World} {F G H : Func} (first : Refines sem F G)
    (second : Refines sem G H) : Refines sem F H := by
  intro args env world fuel
  rcases first args env world fuel with ⟨traces, outcomes⟩ | ⟨stopped, before⟩
  · rcases second args env world fuel with ⟨traces', outcomes'⟩ | ⟨stopped', before'⟩
    · exact Or.inl ⟨traces.trans traces', outcomes.trans outcomes'⟩
    · refine Or.inr ⟨?_, traces ▸ before'⟩
      rw [stopped'] at outcomes
      cases outcomes' : (run sem args F fuel (.start F env world)).2 with
      | undefined => rfl
      | running state => rw [outcomes'] at outcomes; cases outcomes
      | returned values => rw [outcomes'] at outcomes; cases outcomes
  · refine Or.inr ⟨stopped, ?_⟩
    rcases second args env world fuel with ⟨traces', _⟩ | ⟨_, before'⟩
    · exact traces' ▸ before
    · exact before.trans before'

end LlvmGather
