import LlvmGather.Ir.Certificate
import LlvmGather.Library.Scan
import Mathlib.Data.List.AList

/-!
The filter of `LoopMemoryAnalysis`: which loads and stores it takes for accesses to an
annotated variable. Pointers derived from one are recorded in a single pass over the
function as it is laid out.
-/

namespace LlvmGather

inductive MemoryOp
  | getElementPtr (pointer : Value)
  | load (pointer : Value)
  | store (pointer : Value)
deriving DecidableEq, Repr

def MemoryOp.pointer : MemoryOp → Value
  | .getElementPtr pointer => pointer
  | .load pointer => pointer
  | .store pointer => pointer

def MemoryOp.isAccess : MemoryOp → Bool
  | .getElementPtr _ => false
  | _ => true

structure MemoryFunc where
  func : Func
  op : Inst → Option MemoryOp
  pointerUsed : ∀ inst ∈ func.allInsts, ∀ found, op inst = some found →
    found.pointer ∈ inst.operands

structure Tracking where
  mapAccessToVar : AList fun _ : Value => Value
  examined : List Inst

def trackPointer (structures : List Value) (tracking : Tracking) (gep : Inst) (pointer : Value) :
    Tracking :=
  if pointer ∈ structures then
    { tracking with mapAccessToVar := tracking.mapAccessToVar.insert (.inst gep.id) pointer }
  else
    match tracking.mapAccessToVar.lookup pointer with
    | some origin =>
        { tracking with mapAccessToVar := tracking.mapAccessToVar.insert (.inst gep.id) origin }
    | none => tracking

def trackAccess (structures : List Value) (tracking : Tracking) (inst : Inst) (pointer : Value) :
    Tracking :=
  if pointer ∉ tracking.mapAccessToVar ∧ pointer ∉ structures then tracking
  else if .inst inst.id ∈ tracking.mapAccessToVar then tracking
  else { tracking with examined := tracking.examined ++ [inst] }

def trackInst (structures : List Value) (op : Inst → Option MemoryOp) (tracking : Tracking)
    (inst : Inst) : Tracking :=
  match op inst with
  | some (.getElementPtr pointer) => trackPointer structures tracking inst pointer
  | some (.load pointer) => trackAccess structures tracking inst pointer
  | some (.store pointer) => trackAccess structures tracking inst pointer
  | none => tracking

def MemoryFunc.track (code : MemoryFunc) (structures : List Value) : Tracking :=
  code.func.allInsts.foldl (trackInst structures code.op) ⟨∅, []⟩

/-- An annotated variable, or a pointer made from one by `getelementptr` instructions. -/
inductive Derived (code : MemoryFunc) (structures : List Value) : Value → Prop
  | annotated {value : Value} : value ∈ structures → Derived code structures value
  | pointer {gep : Inst} {pointer : Value} : gep ∈ code.func.allInsts →
      code.op gep = some (.getElementPtr pointer) → Derived code structures pointer →
      Derived code structures (.inst gep.id)

/-- A pointer whose `getelementptr` instructions are listed in the order of the chain. -/
inductive ChainListed (structures : List Value) (op : Inst → Option MemoryOp) :
    List Inst → Value → Prop
  | first {before after : List Inst} {gep : Inst} {pointer : Value} :
      op gep = some (.getElementPtr pointer) → pointer ∈ structures →
      ChainListed structures op (before ++ gep :: after) (.inst gep.id)
  | next {before after : List Inst} {gep : Inst} {pointer : Value} :
      op gep = some (.getElementPtr pointer) → ChainListed structures op before pointer →
      ChainListed structures op (before ++ gep :: after) (.inst gep.id)

section Scan

variable {structures : List Value} {op : Inst → Option MemoryOp}

theorem ChainListed.append {listed : List Inst} {value : Value}
    (chain : ChainListed structures op listed value) (more : List Inst) :
    ChainListed structures op (listed ++ more) value := by
  cases chain with
  | first made annotated =>
      rw [List.append_assoc, List.cons_append]
      exact .first made annotated
  | next made before =>
      rw [List.append_assoc, List.cons_append]
      exact .next made before

theorem chainListed_snoc {listed : List Inst} {last : Inst} {value : Value} :
    ChainListed structures op (listed ++ [last]) value ↔
      ChainListed structures op listed value ∨ value = .inst last.id ∧
        ∃ pointer, op last = some (.getElementPtr pointer) ∧
          (pointer ∈ structures ∨ ChainListed structures op listed pointer) := by
  constructor
  · intro chain
    generalize shape : listed ++ [last] = whole at chain
    cases chain with
    | first made annotated =>
        rcases Scan.snoc_split shape with ⟨rfl, rfl, rfl⟩ | ⟨rest, rfl, rfl⟩
        · exact Or.inr ⟨rfl, _, made, Or.inl annotated⟩
        · exact Or.inl (.first made annotated)
    | next made before =>
        rcases Scan.snoc_split shape with ⟨rfl, rfl, rfl⟩ | ⟨rest, rfl, rfl⟩
        · exact Or.inr ⟨rfl, _, made, Or.inr before⟩
        · exact Or.inl (.next made before)
  · rintro (chain | ⟨rfl, pointer, made, annotated | before⟩)
    · exact chain.append [last]
    · exact .first made annotated
    · exact .next made before

def Passes (structures : List Value) (op : Inst → Option MemoryOp) (before : List Inst)
    (inst : Inst) : Prop :=
  ∃ found, op inst = some found ∧ found.isAccess = true ∧
    (found.pointer ∈ structures ∨ ChainListed structures op before found.pointer) ∧
    ¬ ChainListed structures op before (.inst inst.id)

theorem listed_snoc {P : List Inst → Inst → Prop} {listed : List Inst} {last inst : Inst} :
    (∃ before after, listed ++ [last] = before ++ inst :: after ∧ P before inst) ↔
      (∃ before after, listed = before ++ inst :: after ∧ P before inst) ∨
        inst = last ∧ P listed last := by
  constructor
  · rintro ⟨before, after, split, holds⟩
    rcases Scan.snoc_split split with ⟨rfl, rfl, rfl⟩ | ⟨rest, rfl, rfl⟩
    · exact Or.inr ⟨rfl, holds⟩
    · exact Or.inl ⟨before, rest, rfl, holds⟩
  · rintro (⟨before, after, rfl, holds⟩ | ⟨rfl, holds⟩)
    · exact ⟨before, after ++ [last], by simp, holds⟩
    · exact ⟨listed, [], rfl, holds⟩

theorem not_passes {before : List Inst} {inst : Inst}
    (other : ∀ found, op inst = some found → found.isAccess = false) :
    ¬ Passes structures op before inst := by
  rintro ⟨found, kind, access, -⟩
  rw [other found kind] at access
  exact Bool.false_ne_true access

theorem not_passes_pointer {before : List Inst} {inst : Inst} {pointer : Value}
    (made : op inst = some (.getElementPtr pointer)) : ¬ Passes structures op before inst := by
  apply not_passes
  intro found kind
  obtain rfl := Option.some.inj (made.symm.trans kind)
  rfl

structure Tracking.Spec (structures : List Value) (op : Inst → Option MemoryOp)
    (scanned : List Inst) (tracking : Tracking) : Prop where
  recorded : ∀ value, value ∈ tracking.mapAccessToVar ↔ ChainListed structures op scanned value
  examined : ∀ inst, inst ∈ tracking.examined ↔
    ∃ before after, scanned = before ++ inst :: after ∧ Passes structures op before inst

namespace Tracking.Spec

variable {scanned : List Inst} {tracking : Tracking} {inst : Inst}

theorem initial : Tracking.Spec structures op [] ⟨∅, []⟩ where
  recorded value := by
    refine ⟨fun member => absurd member (AList.notMem_empty value), fun chain => ?_⟩
    generalize shape : ([] : List Inst) = listed at chain
    cases chain <;> simp at shape
  examined := by simp

theorem keepExamined (spec : tracking.Spec structures op scanned)
    (fails : ¬ Passes structures op scanned inst) (query : Inst) :
    query ∈ tracking.examined ↔ ∃ before after, scanned ++ [inst] = before ++ query :: after ∧
      Passes structures op before query := by
  rw [listed_snoc, spec.examined query]
  simp [fails]

theorem keepRecorded (spec : tracking.Spec structures op scanned)
    (other : ∀ pointer, op inst = some (.getElementPtr pointer) →
      pointer ∉ structures ∧ ¬ ChainListed structures op scanned pointer) (value : Value) :
    value ∈ tracking.mapAccessToVar ↔ ChainListed structures op (scanned ++ [inst]) value := by
  rw [chainListed_snoc, spec.recorded]
  refine (or_iff_left ?_).symm
  rintro ⟨-, pointer, made, annotated | before⟩
  · exact (other pointer made).1 annotated
  · exact (other pointer made).2 before

theorem record (spec : tracking.Spec structures op scanned) {pointer : Value} (origin : Value)
    (made : op inst = some (.getElementPtr pointer))
    (tracked : pointer ∈ structures ∨ ChainListed structures op scanned pointer) :
    Tracking.Spec structures op (scanned ++ [inst])
      { tracking with
        mapAccessToVar := tracking.mapAccessToVar.insert (.inst inst.id) origin } where
  recorded value := by
    rw [chainListed_snoc, ← spec.recorded, AList.mem_insert, or_comm]
    refine or_congr_right ⟨fun same => ⟨same, pointer, made, tracked⟩, fun same => same.1⟩
  examined := spec.keepExamined (not_passes_pointer made)

theorem trackPointer (spec : tracking.Spec structures op scanned) {pointer : Value}
    (made : op inst = some (.getElementPtr pointer)) :
    (trackPointer structures tracking inst pointer).Spec structures op (scanned ++ [inst]) := by
  unfold LlvmGather.trackPointer
  split
  · next annotated => exact spec.record pointer made (Or.inl annotated)
  · next plain =>
      split
      · next origin found =>
          have known : pointer ∈ tracking.mapAccessToVar :=
            AList.lookup_isSome.mp (by rw [found]; rfl)
          exact spec.record origin made (Or.inr ((spec.recorded pointer).mp known))
      · next missing =>
          have unknown := (not_congr (spec.recorded pointer)).mp (AList.lookup_eq_none.mp missing)
          refine ⟨spec.keepRecorded fun other same => ?_,
            spec.keepExamined (not_passes_pointer made)⟩
          obtain rfl := MemoryOp.getElementPtr.inj (Option.some.inj (same.symm.trans made))
          exact ⟨plain, unknown⟩

theorem trackAccess (spec : tracking.Spec structures op scanned) {found : MemoryOp}
    (kind : op inst = some found) (access : found.isAccess = true) :
    (trackAccess structures tracking inst found.pointer).Spec structures op
      (scanned ++ [inst]) := by
  have noPointer (pointer : Value) (made : op inst = some (.getElementPtr pointer)) :
      pointer ∉ structures ∧ ¬ ChainListed structures op scanned pointer := by
    obtain rfl := Option.some.inj (kind.symm.trans made)
    exact absurd access Bool.false_ne_true
  unfold LlvmGather.trackAccess
  split
  · next untracked =>
      rw [spec.recorded] at untracked
      refine ⟨spec.keepRecorded noPointer, spec.keepExamined ?_⟩
      rintro ⟨same, kind', -, annotated | before, -⟩
      · obtain rfl := Option.some.inj (kind.symm.trans kind')
        exact untracked.2 annotated
      · obtain rfl := Option.some.inj (kind.symm.trans kind')
        exact untracked.1 before
  · next tracked =>
      split
      · next itself =>
          rw [spec.recorded] at itself
          refine ⟨spec.keepRecorded noPointer, spec.keepExamined ?_⟩
          rintro ⟨_, _, _, _, fresh⟩
          exact fresh itself
      · next fresh =>
          rw [spec.recorded] at tracked fresh
          refine ⟨spec.keepRecorded noPointer, fun query => ?_⟩
          have passes : Passes structures op scanned inst := by
            refine ⟨found, kind, access, ?_, fresh⟩
            rw [not_and_or, not_not, not_not] at tracked
            exact tracked.symm
          rw [listed_snoc, ← spec.examined query]
          simp [passes]

end Tracking.Spec

theorem track_spec (code : MemoryFunc) (structures : List Value) :
    (code.track structures).Spec structures code.op code.func.allInsts := by
  apply Scan.foldl_rule code.func.allInsts Tracking.Spec.initial
  intro before inst after tracking split spec
  unfold trackInst
  split
  · next made => exact spec.trackPointer made
  · next made => exact spec.trackAccess made rfl
  · next made => exact spec.trackAccess made rfl
  · next none =>
      refine ⟨spec.keepRecorded fun pointer made => ?_,
        spec.keepExamined (not_passes fun found kind => ?_)⟩
      · rw [none] at made
        cases made
      · rw [none] at kind
        cases kind

end Scan

section Exact

variable {code : MemoryFunc} {structures : List Value}

theorem ChainListed.exists_mem {op : Inst → Option MemoryOp} {listed : List Inst} {value : Value}
    (chain : ChainListed structures op listed value) : ∃ gep ∈ listed, value = .inst gep.id := by
  cases chain with
  | first _ _ => exact ⟨_, by simp, rfl⟩
  | next _ _ => exact ⟨_, by simp, rfl⟩

theorem ChainListed.derived {listed : List Inst} {value : Value}
    (chain : ChainListed structures code.op listed value)
    (inside : ∀ inst ∈ listed, inst ∈ code.func.allInsts) : Derived code structures value := by
  induction chain with
  | first made annotated => exact .pointer (inside _ (by simp)) made (.annotated annotated)
  | next made _ ih =>
      exact .pointer (inside _ (by simp)) made (ih fun inst member => inside inst (by simp [member]))

theorem not_chainListed_itself (tidy : Tidy code.func) {before after : List Inst} {inst : Inst}
    (split : code.func.allInsts = before ++ inst :: after) :
    ¬ ChainListed structures code.op before (.inst inst.id) := by
  intro chain
  obtain ⟨gep, member, same⟩ := chain.exists_mem
  have unique := tidy.idsUnique
  rw [split, List.map_append, List.map_cons, List.nodup_append] at unique
  exact unique.2.2 gep.id (List.mem_map_of_mem member) inst.id (by simp) (Value.inst.inj same).symm

theorem mem_examined_iff (tidy : Tidy code.func) {inst : Inst} (member : inst ∈ code.func.allInsts)
    {found : MemoryOp} (kind : code.op inst = some found) (access : found.isAccess = true) :
    inst ∈ (code.track structures).examined ↔ found.pointer ∈ structures ∨
      ∃ before after, code.func.allInsts = before ++ inst :: after ∧
        ChainListed structures code.op before found.pointer := by
  rw [(track_spec code structures).examined]
  constructor
  · rintro ⟨before, after, split, other, kind', -, tracked, -⟩
    obtain rfl := Option.some.inj (kind.symm.trans kind')
    exact tracked.imp_right fun chain => ⟨before, after, split, chain⟩
  · rintro (annotated | ⟨before, after, split, chain⟩)
    · obtain ⟨before, after, split⟩ := List.append_of_mem member
      exact ⟨before, after, split, found, kind, access, Or.inl annotated,
        not_chainListed_itself tidy split⟩
    · exact ⟨before, after, split, found, kind, access, Or.inr chain,
        not_chainListed_itself tidy split⟩

/-- The filter finds the accesses to derived pointers exactly if every such access is
listed after the chain of its pointer. -/
theorem tracking_exact_iff (code : MemoryFunc) (structures : List Value)
    (ssa : StrictSSA code.func) :
    (∀ inst ∈ code.func.allInsts, ∀ found, code.op inst = some found → found.isAccess = true →
      (inst ∈ (code.track structures).examined ↔ Derived code structures found.pointer)) ↔
    ∀ inst ∈ code.func.allInsts, ∀ found, code.op inst = some found → found.isAccess = true →
      Derived code structures found.pointer → found.pointer ∈ structures ∨
        ∃ before after, code.func.allInsts = before ++ inst :: after ∧
          ChainListed structures code.op before found.pointer := by
  constructor
  · intro exact inst member found kind access derived
    exact (mem_examined_iff ssa.toTidy member kind access).mp
      ((exact inst member found kind access).mpr derived)
  · intro listed inst member found kind access
    rw [mem_examined_iff ssa.toTidy member kind access]
    refine ⟨?_, listed inst member found kind access⟩
    rintro (annotated | ⟨before, after, split, chain⟩)
    · exact .annotated annotated
    · exact chain.derived fun other earlier => by simp [split, earlier]

theorem chainListed_of_layout (tidy : Tidy code.func)
    (layout : ∀ before inst after, code.func.allInsts = before ++ inst :: after →
      ∀ found, code.op inst = some found → ∀ id, found.pointer = .inst id →
        ∃ definition ∈ before, definition.id = id)
    {value : Value} (derived : Derived code structures value) {before after : List Inst}
    {inst : Inst} (split : code.func.allInsts = before ++ inst :: after) {found : MemoryOp}
    (kind : code.op inst = some found) (uses : found.pointer = value) :
    value ∈ structures ∨ ChainListed structures code.op before value := by
  induction derived generalizing before after inst found with
  | annotated member => exact Or.inl member
  | @pointer gep pointer member made _ ih =>
      right
      obtain ⟨definition, earlier, same⟩ := layout before inst after split found kind gep.id uses
      obtain rfl : definition = gep :=
        tidy.inst_unique (by simp [split, earlier]) member same
      obtain ⟨front, back, rfl⟩ := List.append_of_mem earlier
      have place : code.func.allInsts = front ++ definition :: (back ++ inst :: after) := by
        simpa using split
      rcases ih place made rfl with annotated | chain
      · exact .first made annotated
      · exact .next made chain

theorem examined_of_layout (tidy : Tidy code.func)
    (layout : ∀ before inst after, code.func.allInsts = before ++ inst :: after →
      ∀ found, code.op inst = some found → ∀ id, found.pointer = .inst id →
        ∃ definition ∈ before, definition.id = id)
    {inst : Inst} (member : inst ∈ code.func.allInsts) {found : MemoryOp}
    (kind : code.op inst = some found) (access : found.isAccess = true)
    (derived : Derived code structures found.pointer) :
    inst ∈ (code.track structures).examined := by
  obtain ⟨before, after, split⟩ := List.append_of_mem member
  refine (mem_examined_iff tidy member kind access).mpr ?_
  exact (chainListed_of_layout tidy layout derived split kind rfl).imp_right fun chain =>
    ⟨before, after, split, chain⟩

end Exact

def sampleGep : Inst := { id := 0, name := "p", shape := .other [.arg 0] }

def sampleLoad : Inst := { id := 2, name := "x", shape := .other [.inst 0], mayReadFromMemory := true }

def sampleOp (inst : Inst) : Option MemoryOp :=
  if inst = sampleGep then some (.getElementPtr (.arg 0))
  else if inst = sampleLoad then some (.load (.inst 0))
  else none

theorem sampleOp_used (inst : Inst) (found : MemoryOp) (kind : sampleOp inst = some found) :
    found.pointer ∈ inst.operands := by
  unfold sampleOp at kind
  split at kind
  · next same =>
      obtain rfl := Option.some.inj kind
      rw [same]
      decide
  · split at kind
    · next same =>
        obtain rfl := Option.some.inj kind
        rw [same]
        decide
    · cases kind

def sampleOrdered : MemoryFunc where
  func := { argNames := ["a"], blocks :=
    [⟨[sampleGep, { id := 1, name := "", shape := .terminator false [1] [] }]⟩,
     ⟨[sampleLoad, { id := 3, name := "", shape := .terminator true [] [] }]⟩] }
  op := sampleOp
  pointerUsed := fun inst _ => sampleOp_used inst

def sampleOrderedDominators : Nat → List Nat
  | 1 => [0]
  | _ => []

def sampleReordered : MemoryFunc where
  func := { argNames := ["a"], blocks :=
    [⟨[{ id := 4, name := "", shape := .terminator false [2] [] }]⟩,
     ⟨[sampleLoad, { id := 3, name := "", shape := .terminator true [] [] }]⟩,
     ⟨[sampleGep, { id := 1, name := "", shape := .terminator false [1] [] }]⟩] }
  op := sampleOp
  pointerUsed := fun inst _ => sampleOp_used inst

def sampleReorderedDominators : Nat → List Nat
  | 1 => [2, 0]
  | 2 => [0]
  | _ => []

theorem sampleOp_gep : sampleOp sampleGep = some (.getElementPtr (.arg 0)) := by
  decide

theorem sampleOp_access {inst : Inst} {found : MemoryOp} (kind : sampleOp inst = some found)
    (access : found.isAccess = true) : inst = sampleLoad ∧ found = .load (.inst 0) := by
  unfold sampleOp at kind
  split at kind
  · obtain rfl := Option.some.inj kind
    exact absurd access Bool.false_ne_true
  · split at kind
    · next same => exact ⟨same, (Option.some.inj kind).symm⟩
    · cases kind

theorem tracking_exact_ordered :
    sampleLoad ∈ (sampleOrdered.track [.arg 0]).examined ↔
      Derived sampleOrdered [.arg 0] (.inst 0) := by
  have ssa : StrictSSA sampleOrdered.func :=
    checkSsa_sound (show sampleOrdered.func.checkSsa sampleOrderedDominators = true by decide +kernel)
  refine (tracking_exact_iff sampleOrdered [.arg 0] ssa).mpr ?_ sampleLoad (by decide)
    (.load (.inst 0)) (show sampleOp sampleLoad = _ by decide) rfl
  intro inst member found kind access _
  obtain ⟨rfl, rfl⟩ := sampleOp_access kind access
  have chain (after : List Inst) :
      ChainListed [.arg 0] sampleOp ([] ++ sampleGep :: after) (.inst 0) :=
    .first sampleOp_gep (by decide)
  exact Or.inr ⟨[sampleGep, { id := 1, name := "", shape := .terminator false [1] [] }], _, rfl,
    chain _⟩

/-- The block of the pointer dominates that of the load, but the load does not pass. -/
theorem tracking_misses : StrictSSA sampleReordered.func ∧
    Derived sampleReordered [.arg 0] (.inst 0) ∧
    sampleOp sampleLoad = some (.load (.inst 0)) ∧
    sampleLoad ∈ sampleReordered.func.allInsts ∧
    sampleLoad ∉ (sampleReordered.track [.arg 0]).examined := by
  have ssa : StrictSSA sampleReordered.func :=
    checkSsa_sound
      (show sampleReordered.func.checkSsa sampleReorderedDominators = true by decide +kernel)
  have listed : sampleGep ∈ sampleReordered.func.allInsts := by decide
  refine ⟨ssa, ?_, by decide, by decide, by decide⟩
  exact .pointer listed sampleOp_gep (.annotated (by decide))

end LlvmGather
