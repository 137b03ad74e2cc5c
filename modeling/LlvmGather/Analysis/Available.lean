import LlvmGather.DataFlow.Domain
import LlvmGather.DataFlow.Termination
import LlvmGather.Ir.Certificate

/-!
The available expressions analysis of `available.cpp`. Kills are found by comparing
names, so an unnamed definition kills nothing; in strict SSA form this makes no
difference, because no path computes an expression before its operands are defined.
-/

namespace LlvmGather

structure Expression where
  v1 : Value
  v2 : Value
  op : BinaryOps
deriving DecidableEq, Repr

def Expression.ofInst (inst : Inst) : Option Expression :=
  match inst.shape with
  | .binary op lhs rhs => some ⟨lhs, rhs, op⟩
  | _ => none

structure AvailableScan where
  genSet : BitVector
  killSet : BitVector

def generate (domain : List Expression) (domainToIndex : AList fun _ : Expression => Nat)
    (scan : AvailableScan) (inst : Inst) : AvailableScan :=
  match Expression.ofInst inst with
  | some expr =>
      match domain.find? (expr = ·) with
      | some found => { scan with genSet := scan.genSet.set (indexAt domainToIndex found) }
      | none => scan
  | none => scan

def killIfNamed (F : Func) (domainToIndex : AList fun _ : Expression => Nat) (name : String)
    (scan : AvailableScan) (expr : Expression) : AvailableScan :=
  if F.getName expr.v1 = name ∨ F.getName expr.v2 = name then
    match domainToIndex.lookup expr with
    | some index => { genSet := scan.genSet.reset index, killSet := scan.killSet.set index }
    | none => scan
  else scan

def killNamed (F : Func) (domainToIndex : AList fun _ : Expression => Nat) (name : String)
    (domain : List Expression) (scan : AvailableScan) : AvailableScan :=
  domain.foldl (killIfNamed F domainToIndex name) scan

def availableStep (F : Func) (domain : List Expression)
    (domainToIndex : AList fun _ : Expression => Nat) (scan : AvailableScan) (inst : Inst) :
    AvailableScan :=
  let generated := generate domain domainToIndex scan inst
  if inst.name ≠ "" then killNamed F domainToIndex inst.name domain generated else generated

def availableScan (F : Func) (domain : List Expression)
    (domainToIndex : AList fun _ : Expression => Nat) (insts : List Inst) : AvailableScan :=
  let domainSize := domainToIndex.entries.length
  insts.foldl (availableStep F domain domainToIndex)
    ⟨BitVector.ofSize domainSize false, BitVector.ofSize domainSize false⟩

def availableAnalysis : DataFlow Expression where
  direction := .forward
  meetOp := .intersection
  initialisesBoth := false
  transferFn F input domain domainToIndex block :=
    let scan := availableScan F domain domainToIndex (F.insts block)
    ⟨BitVector.genKill scan.killSet scan.genSet input, ∅⟩

def availableDomain (F : Func) : List Expression :=
  collectDomain (F.allInsts.filterMap Expression.ofInst)

def runAvailable (fuel : Nat) (F : Func) : Option (DataFlowResult Expression) :=
  let domain := availableDomain F
  let boundaryCond := BitVector.ofSize domain.length false
  let initCond := BitVector.ofSize domain.length true
  availableAnalysis.run fuel F domain boundaryCond initCond

/-- The instruction has a name, and it is the name of an operand of the expression. -/
def KillsByName (F : Func) (inst : Inst) (expr : Expression) : Prop :=
  inst.name ≠ "" ∧ (F.getName expr.v1 = inst.name ∨ F.getName expr.v2 = inst.name)

def Generated (F : Func) (insts : List Inst) (expr : Expression) : Prop :=
  ∃ before inst after, insts = before ++ inst :: after ∧ Expression.ofInst inst = some expr ∧
    ∀ later ∈ inst :: after, ¬ KillsByName F later expr

def Killed (F : Func) (insts : List Inst) (expr : Expression) : Prop :=
  ∃ inst ∈ insts, KillsByName F inst expr

theorem killed_append (F : Func) (left right : List Inst) (expr : Expression) :
    Killed F (left ++ right) expr ↔ Killed F left expr ∨ Killed F right expr := by
  simp [Killed, or_and_right, exists_or]

theorem generated_append (F : Func) (left right : List Inst) (expr : Expression) :
    Generated F (left ++ right) expr ↔
      Generated F right expr ∨ Generated F left expr ∧ ¬ Killed F right expr := by
  constructor
  · rintro ⟨before, inst, after, split, computes, alive⟩
    rcases List.append_eq_append_iff.mp split with ⟨middle, rfl, rest⟩ | ⟨middle, rfl, rest⟩
    · exact Or.inl ⟨middle, inst, after, rest, computes, alive⟩
    · cases middle with
      | nil => exact Or.inl ⟨[], inst, after, by simpa using rest.symm, computes, alive⟩
      | cons first middle =>
          simp only [List.cons_append, List.cons.injEq] at rest
          obtain ⟨rfl, rfl⟩ := rest
          refine Or.inr ⟨⟨before, inst, middle, rfl, computes, ?_⟩, ?_⟩
          · intro later member
            apply alive later
            simp only [List.mem_cons, List.mem_append] at member ⊢
            tauto
          · rintro ⟨later, member, kills⟩
            exact alive later (by simp [member]) kills
  · rintro (⟨before, inst, after, rfl, computes, alive⟩ |
      ⟨⟨before, inst, after, rfl, computes, alive⟩, kept⟩)
    · exact ⟨left ++ before, inst, after, by simp, computes, alive⟩
    · refine ⟨before, inst, after ++ right, by simp, computes, ?_⟩
      intro later member kills
      simp only [List.mem_cons, List.mem_append] at member
      rcases member with same | inAfter | inRight
      · exact alive later (by simp [same]) kills
      · exact alive later (by simp [inAfter]) kills
      · exact kept ⟨later, inRight, kills⟩

theorem generated_singleton (F : Func) (inst : Inst) (expr : Expression) :
    Generated F [inst] expr ↔ Expression.ofInst inst = some expr ∧ ¬ KillsByName F inst expr := by
  constructor
  · rintro ⟨before, other, after, split, computes, alive⟩
    obtain ⟨rfl, rfl, rfl⟩ : before = [] ∧ inst = other ∧ after = [] := by
      cases before <;> simp_all
    exact ⟨computes, alive inst List.mem_cons_self⟩
  · rintro ⟨computes, alive⟩
    exact ⟨[], inst, [], rfl, computes, by simpa using alive⟩

structure AvailableScan.Spec (F : Func) (domain : List Expression) (insts : List Inst)
    (scan : AvailableScan) : Prop where
  genSize : scan.genSet.size = domain.length
  killSize : scan.killSet.size = domain.length
  gens : ∀ expr ∈ domain, scan.genSet.test (domain.idxOf expr) = true ↔ Generated F insts expr
  kills : ∀ expr ∈ domain, scan.killSet.test (domain.idxOf expr) = true ↔ Killed F insts expr

theorem generate_spec {domain : List Expression} (nodup : domain.Nodup) {inst : Inst}
    (complete : ∀ expr, Expression.ofInst inst = some expr → expr ∈ domain)
    {scan : AvailableScan} (size : scan.genSet.size = domain.length) :
    (generate domain (indexDomain domain) scan inst).genSet.size = domain.length ∧
    (generate domain (indexDomain domain) scan inst).killSet = scan.killSet ∧
    ∀ expr ∈ domain,
      (generate domain (indexDomain domain) scan inst).genSet.test (domain.idxOf expr) = true ↔
        scan.genSet.test (domain.idxOf expr) = true ∨ Expression.ofInst inst = some expr := by
  unfold generate
  cases computed : Expression.ofInst inst with
  | none => simpa using size
  | some found =>
      have member := complete found computed
      have search : domain.find? (found = ·) = some found := by
        rw [List.find?_eq_some_iff_append]
        obtain ⟨before, after, split⟩ := List.append_of_mem member
        refine ⟨by simp, before, after, split, ?_⟩
        intro other otherMember
        rw [split, List.nodup_append] at nodup
        simpa using Ne.symm (nodup.2.2 other otherMember found List.mem_cons_self)
      simp only [search, indexAt_of_mem nodup member]
      refine ⟨by simpa using size, trivial, ?_⟩
      intro expr exprMember
      have small := List.idxOf_lt_length_of_mem member
      rw [BitVector.test_set, Bool.or_eq_true, decide_eq_true_eq, size]
      simp only [small, and_true, List.idxOf_inj exprMember, Option.some.injEq]
      exact or_congr_right ⟨Eq.symm, Eq.symm⟩

theorem killIfNamed_spec (F : Func) {domain : List Expression} (nodup : domain.Nodup)
    (name : String) {first : Expression} (member : first ∈ domain) {scan : AvailableScan}
    (genSize : scan.genSet.size = domain.length) (killSize : scan.killSet.size = domain.length) :
    (killIfNamed F (indexDomain domain) name scan first).genSet.size = domain.length ∧
    (killIfNamed F (indexDomain domain) name scan first).killSet.size = domain.length ∧
    ∀ expr ∈ domain,
      ((killIfNamed F (indexDomain domain) name scan first).genSet.test (domain.idxOf expr) = true ↔
        scan.genSet.test (domain.idxOf expr) = true ∧
          ¬ (expr = first ∧ (F.getName expr.v1 = name ∨ F.getName expr.v2 = name))) ∧
      ((killIfNamed F (indexDomain domain) name scan first).killSet.test (domain.idxOf expr) = true ↔
        scan.killSet.test (domain.idxOf expr) = true ∨
          expr = first ∧ (F.getName expr.v1 = name ∨ F.getName expr.v2 = name)) := by
  unfold killIfNamed
  have small := List.idxOf_lt_length_of_mem member
  by_cases hit : F.getName first.v1 = name ∨ F.getName first.v2 = name
  · simp only [hit, if_true, lookup_indexDomain nodup, member]
    refine ⟨by simpa using genSize, by simpa using killSize, ?_⟩
    intro expr exprMember
    rw [BitVector.test_reset, BitVector.test_set, killSize]
    simp only [Bool.and_eq_true, Bool.or_eq_true, decide_eq_true_eq, ne_eq,
      List.idxOf_inj exprMember, small, and_true]
    constructor
    · exact and_congr_right fun _ => not_congr ⟨fun same => ⟨same, same ▸ hit⟩, And.left⟩
    · exact or_congr_right ⟨fun same => ⟨same, same ▸ hit⟩, And.left⟩
  · simp only [hit, if_false]
    refine ⟨genSize, killSize, ?_⟩
    intro expr _
    have miss : ¬ (expr = first ∧ (F.getName expr.v1 = name ∨ F.getName expr.v2 = name)) :=
      fun found => hit (found.1 ▸ found.2)
    simp [miss]

theorem killNamed_cons (F : Func) (domainToIndex : AList fun _ : Expression => Nat) (name : String)
    (first : Expression) (rest : List Expression) (scan : AvailableScan) :
    killNamed F domainToIndex name (first :: rest) scan =
      killNamed F domainToIndex name rest (killIfNamed F domainToIndex name scan first) := rfl

theorem killNamed_spec (F : Func) {domain : List Expression} (nodup : domain.Nodup)
    (name : String) (part : List Expression) (inside : ∀ expr ∈ part, expr ∈ domain)
    {scan : AvailableScan} (genSize : scan.genSet.size = domain.length)
    (killSize : scan.killSet.size = domain.length) :
    (killNamed F (indexDomain domain) name part scan).genSet.size = domain.length ∧
    (killNamed F (indexDomain domain) name part scan).killSet.size = domain.length ∧
    ∀ expr ∈ domain,
      ((killNamed F (indexDomain domain) name part scan).genSet.test (domain.idxOf expr) = true ↔
        scan.genSet.test (domain.idxOf expr) = true ∧
          ¬ (expr ∈ part ∧ (F.getName expr.v1 = name ∨ F.getName expr.v2 = name))) ∧
      ((killNamed F (indexDomain domain) name part scan).killSet.test (domain.idxOf expr) = true ↔
        scan.killSet.test (domain.idxOf expr) = true ∨
          expr ∈ part ∧ (F.getName expr.v1 = name ∨ F.getName expr.v2 = name)) := by
  induction part generalizing scan with
  | nil => simp [killNamed, genSize, killSize]
  | cons first rest ih =>
      obtain ⟨genFirst, killFirst, bitsFirst⟩ :=
        killIfNamed_spec F nodup name (inside first List.mem_cons_self) genSize killSize
      obtain ⟨gens, kills, bits⟩ := ih
        (fun expr found => inside expr (List.mem_cons_of_mem first found)) genFirst killFirst
      rw [killNamed_cons]
      refine ⟨gens, kills, ?_⟩
      intro expr exprMember
      rw [(bits expr exprMember).1, (bits expr exprMember).2, (bitsFirst expr exprMember).1,
        (bitsFirst expr exprMember).2, List.mem_cons]
      simp only [or_and_right, not_or, and_assoc, or_assoc, and_self]

theorem AvailableScan.Spec.step {F : Func} {domain : List Expression} (nodup : domain.Nodup)
    {insts : List Inst} {scan : AvailableScan} (spec : AvailableScan.Spec F domain insts scan)
    {inst : Inst} (complete : ∀ expr, Expression.ofInst inst = some expr → expr ∈ domain) :
    AvailableScan.Spec F domain (insts ++ [inst])
      (availableStep F domain (indexDomain domain) scan inst) := by
  obtain ⟨genSize, killSet, gens⟩ := generate_spec nodup complete spec.genSize
  have killSize := spec.killSize
  rw [← killSet] at killSize
  have killsOne : ∀ expr, Killed F [inst] expr ↔ KillsByName F inst expr := by simp [Killed]
  unfold availableStep
  by_cases named : inst.name ≠ ""
  · obtain ⟨genSize', killSize', bits⟩ :=
      killNamed_spec F nodup inst.name domain (fun _ member => member) genSize killSize
    rw [if_pos named]
    refine ⟨genSize', killSize', ?_, ?_⟩
    · intro expr member
      rw [(bits expr member).1, gens expr member, spec.gens expr member, generated_append,
        generated_singleton, killsOne]
      simp only [KillsByName, member]
      tauto
    · intro expr member
      rw [(bits expr member).2, killSet, spec.kills expr member, killed_append, killsOne]
      simp only [KillsByName, member]
      tauto
  · have harmless : ∀ expr, ¬ KillsByName F inst expr := fun expr kills => named kills.1
    rw [if_neg named]
    refine ⟨genSize, killSize, ?_, ?_⟩
    · intro expr member
      rw [gens expr member, spec.gens expr member, generated_append, generated_singleton, killsOne]
      simp only [harmless]
      tauto
    · intro expr member
      rw [killSet, spec.kills expr member, killed_append, killsOne]
      simp only [harmless]
      tauto

theorem nodup_availableDomain (F : Func) : (availableDomain F).Nodup := nodup_collectDomain _

theorem mem_availableDomain (F : Func) (expr : Expression) :
    expr ∈ availableDomain F ↔ ∃ inst ∈ F.allInsts, Expression.ofInst inst = some expr := by
  simp [availableDomain, mem_collectDomain]

theorem availableScan_spec (F : Func) (block : Nat) :
    AvailableScan.Spec F (availableDomain F) (F.insts block)
      (availableScan F (availableDomain F) (indexDomain (availableDomain F)) (F.insts block)) := by
  have nodup := nodup_availableDomain F
  unfold availableScan
  rw [length_indexDomain nodup]
  apply Scan.foldl_rule (F.insts block)
  · exact ⟨by simp, by simp, by simp [Generated], by simp [Killed]⟩
  · intro before inst after scan split spec
    have here : inst ∈ F.allInsts := (F.mem_allInsts inst).mpr ⟨block, by simp [split]⟩
    exact spec.step nodup fun expr computed =>
      (mem_availableDomain F expr).mpr ⟨inst, here, computed⟩

theorem available_lawful (F : Func) : availableAnalysis.Lawful F (availableDomain F) := by
  apply DataFlow.Lawful.of_plain rfl rfl
  · intro block vector
    rfl
  · intro block left right _ _ subset index found
    simp only [DataFlow.transfer, availableAnalysis, BitVector.test_genKill] at found ⊢
    exact found.imp id fun kept => ⟨kept.1, kept.2.1, subset index kept.2.2⟩
  · intro block vector _
    have spec := availableScan_spec F block
    simp [DataFlow.transfer, availableAnalysis, spec.genSize, spec.killSize]

theorem available_valueFor (F : Func) {source block : Nat} {expr : Expression} (vector : BitVector)
    (member : expr ∈ availableDomain F) :
    ((availableAnalysis.transfer F (availableDomain F) source vector).valueFor block).test
        ((availableDomain F).idxOf expr) = true ↔
      Generated F (F.insts source) expr ∨
        vector.test ((availableDomain F).idxOf expr) = true ∧ ¬ Killed F (F.insts source) expr := by
  have spec := availableScan_spec F source
  have small := List.idxOf_lt_length_of_mem member
  simp only [TransferOutput.valueFor, DataFlow.transfer, availableAnalysis, AList.lookup_empty,
    BitVector.test_genKill, spec.killSize, small, true_and, ← Bool.not_eq_true,
    spec.kills expr member, spec.gens expr member]
  tauto

def pathInsts (F : Func) (trail : List Nat) : List Inst := trail.reverse.flatMap F.insts

theorem pathInsts_cons (F : Func) (source : Nat) (trail : List Nat) :
    pathInsts F (source :: trail) = pathInsts F trail ++ F.insts source := by
  simp [pathInsts]

open FlowGraph in
/-- On all paths to the block some computation is not followed by a kill by name. -/
def AvailableByName (F : Func) (block : Nat) (expr : Expression) : Prop :=
  ∀ trail, Walk F.succs F.entry trail block → Generated F (pathInsts F trail) expr

open FlowGraph in
theorem availableByName_iff {F : Func} (valid : ValidCfg F) {block : Nat}
    (interior : block ≠ F.entry) (expr : Expression) :
    AvailableByName F block expr ↔ ∀ source ∈ F.preds block, F.Reachable source →
      Generated F (F.insts source) expr ∨
        AvailableByName F source expr ∧ ¬ Killed F (F.insts source) expr := by
  constructor
  · intro available source member reachable
    by_cases generated : Generated F (F.insts source) expr
    · exact Or.inl generated
    · have split : ∀ trail, Walk F.succs F.entry trail source →
          Generated F (pathInsts F trail) expr ∧ ¬ Killed F (F.insts source) expr := by
        intro trail walk
        have here := available _ (walk.step ((F.mem_preds _ _).mp member).2)
        rw [pathInsts_cons, generated_append] at here
        exact here.resolve_left generated
      obtain ⟨trail, walk⟩ := reachable_iff_walk.mp reachable
      exact Or.inr ⟨fun other walk => (split other walk).1, (split trail walk).2⟩
  · intro all trail walk
    cases walk with
    | start => exact absurd rfl interior
    | step previous edge =>
        rename_i trail source
        have reachable : F.Reachable source := previous.reachable
        have member := (F.mem_preds _ _).mpr ⟨valid.reachable_lt reachable, edge⟩
        rw [pathInsts_cons, generated_append]
        exact (all source member reachable).imp id fun both => ⟨both.1 trail previous, both.2⟩

open Classical in
noncomputable def availableVector (F : Func) (block : Nat) : BitVector :=
  ⟨(availableDomain F).map fun expr => decide (AvailableByName F block expr)⟩

theorem size_availableVector (F : Func) (block : Nat) :
    (availableVector F block).size = (availableDomain F).length := by
  simp [availableVector, BitVector.size]

theorem test_availableVector (F : Func) (block : Nat) {expr : Expression}
    (member : expr ∈ availableDomain F) :
    (availableVector F block).test ((availableDomain F).idxOf expr) = true ↔
      AvailableByName F block expr := by
  have small := List.idxOf_lt_length_of_mem member
  simp [availableVector, BitVector.test, List.getD_eq_getElem?_getD, small]

theorem availableVector_equations {F : Func} (valid : ValidCfg F) :
    availableAnalysis.Equations F (availableDomain F) (availableVector F) fun block =>
      (availableAnalysis.transfer F (availableDomain F) block (availableVector F block)).element := by
  have nodup := nodup_availableDomain F
  refine ⟨?_, ?_, ?_, fun _ _ _ => rfl⟩
  · intro block _
    exact DataFlow.fits_of_size (size_availableVector F block)
  · intro block reachable alone index
    obtain rfl := (DataFlow.neighbors_eq_nil_iff valid rfl reachable).mp alone
    have none : (availableVector F F.entry).test index ≠ true := by
      intro found
      have small := size_availableVector F F.entry ▸ BitVector.lt_size_of_test found
      obtain ⟨expr, member, rfl⟩ := exists_idxOf nodup small
      obtain ⟨before, inst, after, split, _⟩ :=
        (test_availableVector F F.entry member).mp found [] FlowGraph.Walk.start
      simp [pathInsts] at split
    simpa [DataFlow.boundaryCond] using none
  · intro block reachable company index small
    have interior := (DataFlow.neighbors_eq_nil_iff valid rfl reachable).not.mp company
    obtain ⟨expr, member, rfl⟩ := exists_idxOf nodup small
    rw [test_availableVector F block member, availableByName_iff valid interior]
    apply forall_congr'
    intro source
    apply imp_congr_right
    intro _
    apply imp_congr_right
    intro _
    rw [available_valueFor F _ member, test_availableVector F source member]

theorem generated_of_solution {F : Func} (valid : ValidCfg F) {inputs outputs : Nat → BitVector}
    (solution : availableAnalysis.Equations F (availableDomain F) inputs outputs)
    {expr : Expression} (member : expr ∈ availableDomain F) {trail : List Nat} {block : Nat}
    (walk : FlowGraph.Walk F.succs F.entry trail block)
    (found : (inputs block).test ((availableDomain F).idxOf expr) = true) :
    Generated F (pathInsts F trail) expr := by
  refine solution.walk_rule (P := fun trail => Generated F (pathInsts F trail) expr) valid rfl rfl
    (List.idxOf_lt_length_of_mem member) ?_ walk found
  intro trail source target _ ih shown
  rw [available_valueFor F _ member] at shown
  rw [pathInsts_cons, generated_append]
  exact shown.imp id fun both => ⟨ih both.1, both.2⟩

def Redefines (inst : Inst) (expr : Expression) : Prop :=
  Value.inst inst.id = expr.v1 ∨ Value.inst inst.id = expr.v2

/-- The list computes the expression after the last definition of its operands. -/
def ComputedSince (insts : List Inst) (expr : Expression) : Prop :=
  ∃ before inst after, insts = before ++ inst :: after ∧ Expression.ofInst inst = some expr ∧
    ∀ later ∈ inst :: after, ¬ Redefines later expr

theorem Verified.getName_eq {F : Func} (verified : Verified F) {inst : Inst}
    (member : inst ∈ F.allInsts) (named : inst.name ≠ "") {value : Value}
    (same : F.getName value = inst.name) : value = .inst inst.id := by
  obtain ⟨unique, notArgument⟩ := verified.namesUnique inst member named
  cases value with
  | inst id =>
      simp only [Func.getName] at same
      split at same
      · rename_i found search
        have id_eq := List.find?_some search
        simp only [decide_eq_true_eq] at id_eq
        rw [← id_eq, unique found (List.mem_of_find?_eq_some search) same]
      · exact absurd same.symm named
  | arg index =>
      simp only [Func.getName] at same
      by_cases bound : index < F.argNames.length
      · rw [List.getD_eq_getElem?_getD, List.getElem?_eq_getElem bound, Option.getD_some] at same
        exact absurd (same ▸ List.getElem_mem bound) notArgument
      · rw [List.getD_eq_getElem?_getD, List.getElem?_eq_none (Nat.le_of_not_lt bound),
          Option.getD_none] at same
        exact absurd same.symm named
  | const id => exact absurd same.symm named

theorem KillsByName.redefines {F : Func} (verified : Verified F) {inst : Inst} {expr : Expression}
    (member : inst ∈ F.allInsts) (kills : KillsByName F inst expr) : Redefines inst expr :=
  kills.2.imp (fun same => (verified.getName_eq member kills.1 same).symm)
    (fun same => (verified.getName_eq member kills.1 same).symm)

theorem mem_pathInsts {F : Func} {trail : List Nat} {inst : Inst} :
    inst ∈ pathInsts F trail ↔ ∃ block ∈ trail, inst ∈ F.insts block := by
  simp [pathInsts]

theorem ComputedSince.generated {F : Func} (verified : Verified F) {trail : List Nat}
    {expr : Expression} (computed : ComputedSince (pathInsts F trail) expr) :
    Generated F (pathInsts F trail) expr := by
  obtain ⟨before, inst, after, split, computes, clear⟩ := computed
  refine ⟨before, inst, after, split, computes, ?_⟩
  intro later member kills
  have onPath : later ∈ pathInsts F trail := by
    rw [split]
    exact List.mem_append_right _ member
  obtain ⟨block, _, inside⟩ := mem_pathInsts.mp onPath
  exact clear later member (kills.redefines verified ((F.mem_allInsts later).mpr ⟨block, inside⟩))

theorem ofInst_operand {inst : Inst} {expr : Expression}
    (computes : Expression.ofInst inst = some expr) :
    inst.isPhi = false ∧ expr.v1 ∈ inst.operands ∧ expr.v2 ∈ inst.operands := by
  unfold Expression.ofInst at computes
  split at computes
  · rename_i op lhs rhs shape
    obtain rfl := Option.some.inj computes
    simp [Inst.isPhi, Inst.operands, shape]
  · simp at computes

open FlowGraph in
theorem computes_after_definition {F : Func} (ssa : StrictSSA F) {expr : Expression}
    {origin : Nat} {before after : List Inst} {definition : Inst} {trail : List Nat}
    (split : F.insts origin = before ++ definition :: after)
    (redefines : Redefines definition expr) (walk : Walk F.succs F.entry trail origin)
    (fresh : origin ∉ trail) {inst : Inst} (computes : Expression.ofInst inst = some expr)
    (member : inst ∈ pathInsts F trail ++ F.insts origin) : inst ∈ after := by
  obtain ⟨notPhi, first, second⟩ := ofInst_operand computes
  have operand : Value.inst definition.id ∈ inst.operands := by
    rcases redefines with same | same
    · exact same ▸ first
    · exact same ▸ second
  have defined : definition ∈ F.insts origin := by simp [split]
  rcases List.mem_append.mp member with earlier | here
  · exfalso
    obtain ⟨block, passed, inside⟩ := mem_pathInsts.mp earlier
    obtain ⟨front, back, blockSplit⟩ := List.append_of_mem inside
    obtain ⟨recent, shorter, trailSplit, cut⟩ := walk.cut passed
    rcases ssa.use_after_definition cut.reachable blockSplit notPhi operand defined with
      ⟨same, _⟩ | strict
    · exact fresh (same ▸ passed)
    · apply fresh
      rw [trailSplit]
      exact List.mem_append_right _ (strict.2 shorter cut)
  · obtain ⟨front, back, blockSplit⟩ := List.append_of_mem here
    rcases ssa.use_after_definition walk.reachable blockSplit notPhi operand defined with
      ⟨_, inFront⟩ | strict
    · obtain ⟨front', middle, rfl⟩ := List.append_of_mem inFront
      have blockSplit' : F.insts origin = front' ++ definition :: (middle ++ inst :: back) := by
        simpa using blockSplit
      rw [(ssa.split_unique split blockSplit' rfl).2.2]
      simp
    · exact absurd rfl strict.1

open FlowGraph in
/-- If every path generates the expression, then on every path it is computed after the
last definition of its operands: otherwise the part of the path before that definition
could be replaced by one that reaches it for the first time. -/
theorem AvailableByName.computedSince {F : Func} (ssa : StrictSSA F) {block : Nat}
    {expr : Expression} (available : AvailableByName F block expr) {trail : List Nat}
    (walk : Walk F.succs F.entry trail block) : ComputedSince (pathInsts F trail) expr := by
  by_cases redefined : ∃ inst ∈ pathInsts F trail, Redefines inst expr
  · obtain ⟨before, definition, after, split, redefines, clear⟩ := Scan.exists_last redefined
    by_cases computed : ∃ inst ∈ after, Expression.ofInst inst = some expr
    · obtain ⟨inst, member, computes⟩ := computed
      obtain ⟨front, back, rfl⟩ := List.append_of_mem member
      refine ⟨before ++ definition :: front, inst, back, by simp [split], computes, ?_⟩
      exact fun later inBack => clear later (List.mem_append_right _ inBack)
    · exfalso
      obtain ⟨earlier, origin, later, front, back, order, inside, -, rest⟩ := Scan.flatMap_split split
      have trailSplit : trail = later.reverse ++ origin :: earlier.reverse := by
        rw [← List.reverse_reverse trail, order]
        simp
      have reachable : F.Reachable origin := walk.passed_reachable (by simp [trailSplit])
      have avoiding := not_always_revisited reachable
      push Not at avoiding
      obtain ⟨other, first, fresh⟩ := avoiding
      have spliced := first.extend (walk.after trailSplit) rfl
      obtain ⟨_, inst, _, splicedSplit, computes, _⟩ := available _ spliced
      have member : inst ∈ (pathInsts F other ++ F.insts origin) ++ later.flatMap F.insts := by
        have onPath : inst ∈ pathInsts F (later.reverse ++ [origin] ++ other) := by
          rw [splicedSplit]
          simp
        simpa [pathInsts] using onPath
      apply computed
      refine ⟨inst, ?_, computes⟩
      rw [rest]
      rcases List.mem_append.mp member with upTo | beyond
      · exact List.mem_append_left _
          (computes_after_definition ssa inside redefines first fresh computes upTo)
      · exact List.mem_append_right _ beyond
  · push Not at redefined
    obtain ⟨before, inst, after, split, computes, _⟩ := available trail walk
    refine ⟨before, inst, after, split, computes, ?_⟩
    intro later member
    apply redefined later
    rw [split]
    exact List.mem_append_right _ member

theorem runAvailable_total {F : Func} (valid : ValidCfg F) :
    ∃ enough, ∀ fuel, enough ≤ fuel → ∃ output, runAvailable fuel F = some output :=
  DataFlow.run_total valid (available_lawful F)

theorem available_in_iff {F : Func} (ssa : StrictSSA F) {fuel : Nat}
    {output : DataFlowResult Expression} (returns : runAvailable fuel F = some output) {block : Nat}
    (reachable : F.Reachable block) {expr : Expression} (member : expr ∈ availableDomain F) :
    (output.result block).inVec.test (indexAt output.domainToIndex expr) = true ↔
      ∀ trail, FlowGraph.Walk F.succs F.entry trail block →
        ComputedSince (pathInsts F trail) expr := by
  have valid := ssa.toValidCfg
  obtain ⟨converged, index⟩ := DataFlow.run_eq_some returns
  rw [index, indexAt_of_mem (nodup_availableDomain F) member]
  constructor
  · intro found trail walk
    have solution := DataFlow.converge_equations valid (available_lawful F) converged
    have available : AvailableByName F block expr :=
      fun trail walk => generated_of_solution valid solution member walk found
    exact available.computedSince ssa walk
  · intro computed
    have greatest := DataFlow.converge_extremal valid (available_lawful F) converged
      (availableVector_equations valid) reachable
    apply greatest.1
    rw [test_availableVector F block member]
    exact fun trail walk => (computed trail walk).generated ssa.toVerified

/-- An expression is in the output of the analysis at the start of a reachable block
exactly if every path computes it after the last definition of its operands. -/
theorem available_exact {F : Func} (ssa : StrictSSA F) {block : Nat} (reachable : F.Reachable block)
    {expr : Expression} (member : expr ∈ availableDomain F) :
    (∃ enough, ∀ fuel, enough ≤ fuel → ∃ output, runAvailable fuel F = some output) ∧
    ∀ fuel output, runAvailable fuel F = some output →
      ((output.result block).inVec.test (indexAt output.domainToIndex expr) = true ↔
        ∀ trail, FlowGraph.Walk F.succs F.entry trail block →
          ComputedSince (pathInsts F trail) expr) :=
  ⟨runAvailable_total ssa.toValidCfg,
    fun _ _ returns => available_in_iff ssa returns reachable member⟩

theorem available_exact_sampleLoop :
    (∃ enough, ∀ fuel, enough ≤ fuel → ∃ output, runAvailable fuel sampleLoop = some output) ∧
    ∀ fuel output, runAvailable fuel sampleLoop = some output →
      ((output.result 2).inVec.test
          (indexAt output.domainToIndex ⟨.inst 2, .inst 4, .Mul⟩) = true ↔
        ∀ trail, FlowGraph.Walk sampleLoop.succs sampleLoop.entry trail 2 →
          ComputedSince (pathInsts sampleLoop trail) ⟨.inst 2, .inst 4, .Mul⟩) :=
  available_exact sampleLoop_ssa (sampleLoop_reachable 2 (by decide)) (by decide)

end LlvmGather
