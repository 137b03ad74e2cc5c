import LlvmGather.Library.Dominator
import LlvmGather.Transform.DominatorTree

/-!
What `computeIdom` makes of the dominance relation. For reachable blocks the candidates
that its loops leave are the immediate dominators. The relation says of an unreachable
block that everything dominates it, which is where the assertion can fail.
-/

namespace LlvmGather

theorem getElem?_indexed (entries : List (Sigma fun _ : Nat => Nat)) (list : List Nat)
    (distinct : (entries.map Sigma.snd).Nodup) (index : Nat) :
    (entries.foldl (fun domain entry => domain.set entry.2 entry.1) list)[index]? =
      if index < list.length then
        match entries.find? (·.2 = index) with
        | some entry => some entry.1
        | none => list[index]?
      else none := by
  induction entries generalizing list with
  | nil => simp
  | cons next rest ih =>
      obtain ⟨fresh, restDistinct⟩ := List.nodup_cons.mp distinct
      rw [List.foldl_cons, ih _ restDistinct, List.length_set]
      by_cases inside : index < list.length
      · rw [if_pos inside, if_pos inside]
        by_cases same : next.2 = index
        · have absent : rest.find? (·.2 = index) = none := by
            rw [List.find?_eq_none]
            intro entry member
            have differs : entry.2 ≠ next.2 := fun equal =>
              fresh (equal ▸ List.mem_map_of_mem member)
            simpa [← same] using differs
          simp [absent, same, inside]
        · simp [same]
      · rw [if_neg inside, if_neg inside]

theorem mem_entries_indexDomain {domain : List Nat} (nodup : domain.Nodup)
    {entry : Sigma fun _ : Nat => Nat} :
    entry ∈ (indexDomain domain).entries ↔
      entry.1 ∈ domain ∧ entry.2 = domain.idxOf entry.1 := by
  have looked := AList.mem_lookup_iff (s := indexDomain domain) (a := entry.1) (b := entry.2)
  rw [lookup_indexDomain nodup] at looked
  rw [← looked]
  by_cases member : entry.1 ∈ domain
  · simp [member, eq_comm]
  · simp [member]

theorem indexedBlocks_indexDomain {domain : List Nat} (nodup : domain.Nodup) :
    indexedBlocks (indexDomain domain) = domain := by
  have distinct : ((indexDomain domain).entries.map Sigma.snd).Nodup := by
    refine List.Nodup.map_on ?_ (indexDomain domain).nodupKeys.nodup
    intro first firstMember second secondMember same
    obtain ⟨inFirst, firstIndex⟩ := (mem_entries_indexDomain nodup).mp firstMember
    obtain ⟨inSecond, secondIndex⟩ := (mem_entries_indexDomain nodup).mp secondMember
    have keys : first.1 = second.1 :=
      (List.idxOf_inj inFirst).mp (firstIndex.symm.trans (same.trans secondIndex))
    exact Sigma.ext keys (heq_of_eq same)
  apply List.ext_getElem?
  intro index
  rw [indexedBlocks, getElem?_indexed _ _ distinct, List.length_replicate,
    length_indexDomain nodup]
  by_cases inside : index < domain.length
  · have present : (⟨domain[index], index⟩ : Sigma fun _ : Nat => Nat) ∈
        (indexDomain domain).entries := (mem_entries_indexDomain nodup).mpr
      ⟨List.getElem_mem inside, (List.Nodup.idxOf_getElem nodup index inside).symm⟩
    rw [if_pos inside]
    split
    · rename_i entry found
      have atIndex : entry.2 = index := by simpa using List.find?_some found
      obtain ⟨member, position⟩ :=
        (mem_entries_indexDomain nodup).mp (List.mem_of_find?_eq_some found)
      rw [← atIndex, position, List.getElem?_idxOf member]
    · rename_i absent
      simpa using List.find?_eq_none.mp absent _ present
  · rw [if_neg inside, List.getElem?_eq_none (Nat.le_of_not_lt inside)]

def selectIdom (dominanceResult : DataFlowResult Nat) (B : Nat)
    (idom : AList fun _ : Nat => Nat) : Option (AList fun _ : Nat => Nat) :=
  let domain := indexedBlocks dominanceResult.domainToIndex
  domain.foldlM (addIdom domain dominanceResult B) idom

theorem computeIdom_eq (dominanceResult : DataFlowResult Nat) :
    computeIdom dominanceResult = (indexedBlocks dominanceResult.domainToIndex).foldlM
      (fun idom B => selectIdom dominanceResult B idom) ∅ :=
  rfl

def idomCandidates (dominanceResult : DataFlowResult Nat) (B : Nat) : List Nat :=
  let domain := indexedBlocks dominanceResult.domainToIndex
  domain.filter fun A => isIdom domain dominanceResult A B

def enterIdom (idom : AList fun _ : Nat => Nat) (B : Nat) :
    List Nat → Option (AList fun _ : Nat => Nat)
  | [] => some idom
  | A :: rest => if (idom.lookup B).isNone ∧ rest = [] then some (idom.insert B A) else none

theorem foldlM_addIdom (domain list : List Nat) (dominanceResult : DataFlowResult Nat) (B : Nat)
    (idom : AList fun _ : Nat => Nat) :
    list.foldlM (addIdom domain dominanceResult B) idom =
      enterIdom idom B (list.filter fun A => isIdom domain dominanceResult A B) := by
  induction list generalizing idom with
  | nil => rfl
  | cons A rest ih =>
      rw [List.foldlM_cons, addIdom]
      by_cases accepted : isIdom domain dominanceResult A B = true
      · rw [if_pos accepted, List.filter_cons, if_pos accepted]
        cases present : idom.lookup B with
        | some _ => simp [enterIdom, present]
        | none =>
            simp only [Option.bind_eq_bind, Option.bind_some, ih]
            cases rest.filter fun A => isIdom domain dominanceResult A B with
            | nil => simp [enterIdom, present]
            | cons second more => simp [enterIdom]
      · rw [if_neg accepted, List.filter_cons, if_neg accepted]
        simp [ih]

theorem selectIdom_eq (dominanceResult : DataFlowResult Nat) (B : Nat)
    (idom : AList fun _ : Nat => Nat) :
    selectIdom dominanceResult B idom = enterIdom idom B (idomCandidates dominanceResult B) :=
  foldlM_addIdom _ _ _ _ _

theorem enterIdom_eq_none_iff {idom : AList fun _ : Nat => Nat} {B : Nat}
    (absent : idom.lookup B = none) (candidates : List Nat) :
    enterIdom idom B candidates = none ↔ 1 < candidates.length := by
  match candidates with
  | [] => simp [enterIdom]
  | [A] => simp [enterIdom, absent]
  | A :: second :: more => simp [enterIdom]

theorem lookup_enterIdom {idom next : AList fun _ : Nat => Nat} {B : Nat}
    (absent : idom.lookup B = none) {candidates : List Nat}
    (entered : enterIdom idom B candidates = some next) (other : Nat) :
    next.lookup other = if other = B then candidates.head? else idom.lookup other := by
  match candidates with
  | [] =>
      obtain rfl := Option.some.inj entered
      split_ifs with same
      · rw [same, absent]
        rfl
      · rfl
  | [A] =>
      simp only [enterIdom, absent, Option.isNone_none, and_self, if_true] at entered
      obtain rfl := Option.some.inj entered
      split_ifs with same
      · rw [same, AList.lookup_insert]
        rfl
      · exact AList.lookup_insert_ne same
  | A :: second :: more => simp [enterIdom] at entered

theorem foldlM_selectIdom (dominanceResult : DataFlowResult Nat) (list : List Nat)
    (nodup : list.Nodup) (idom : AList fun _ : Nat => Nat)
    (fresh : ∀ B ∈ list, idom.lookup B = none) :
    (list.foldlM (fun idom B => selectIdom dominanceResult B idom) idom = none ↔
      ∃ B ∈ list, 1 < (idomCandidates dominanceResult B).length) ∧
    ∀ final, list.foldlM (fun idom B => selectIdom dominanceResult B idom) idom = some final →
      ∀ B, final.lookup B =
        if B ∈ list then (idomCandidates dominanceResult B).head? else idom.lookup B := by
  induction list generalizing idom with
  | nil => simp
  | cons B rest ih =>
      obtain ⟨notInRest, restNodup⟩ := List.nodup_cons.mp nodup
      have absent := fresh B List.mem_cons_self
      have failure := enterIdom_eq_none_iff absent (idomCandidates dominanceResult B)
      rw [List.foldlM_cons, selectIdom_eq]
      cases entered : enterIdom idom B (idomCandidates dominanceResult B) with
      | none =>
          have many := failure.mp entered
          simp [many]
      | some next =>
          have lookup := lookup_enterIdom absent entered
          have few : ¬ 1 < (idomCandidates dominanceResult B).length := by
            rw [← failure, entered]
            exact Option.some_ne_none next
          have restFresh : ∀ other ∈ rest, next.lookup other = none := by
            intro other member
            have different : other ≠ B := by
              rintro rfl
              exact notInRest member
            rw [lookup, if_neg different]
            exact fresh other (List.mem_cons_of_mem _ member)
          obtain ⟨fails, returns⟩ := ih restNodup next restFresh
          rw [Option.bind_eq_bind, Option.bind_some]
          refine ⟨fails.trans (by simp [few]), fun final found other => ?_⟩
          rw [returns final found other, lookup]
          by_cases same : other = B
          · simp [same, notInRest]
          · simp [same]

section Dominance

variable {F : Func} {fuel : Nat} {dom : DataFlowResult Nat}

theorem indexedBlocks_computeDom (computed : computeDom fuel F = some dom) :
    indexedBlocks dom.domainToIndex = F.blockIds := by
  rw [(DataFlow.run_eq_some computed).2]
  exact indexedBlocks_indexDomain List.nodup_range

theorem dominates_of_unreachable (valid : ValidCfg F) (computed : computeDom fuel F = some dom)
    {X Y : Nat} (block : X < F.blocks.length) (target : Y < F.blocks.length)
    (unreachable : ¬ F.Reachable Y) : dominates X Y dom = true := by
  obtain ⟨converged, index⟩ := DataFlow.run_eq_some computed
  have initial : dom.result Y = dominanceAnalysis.start F F.blockIds Y := by
    have keeps : ∀ result block, F.Reachable block →
        result Y = dominanceAnalysis.start F F.blockIds Y →
        Function.update result block (dominanceAnalysis.processBlock F F.blockIds result block) Y =
          dominanceAnalysis.start F F.blockIds Y := by
      intro result visited reachable kept
      have different : Y ≠ visited := by
        rintro rfl
        exact unreachable reachable
      rw [Function.update_of_ne different, kept]
    exact DataFlow.converge_rule (fun result => DataFlow.sweep_rule valid keeps result)
      (DataFlow.sweep_rule valid keeps _ rfl) converged
  have notEntry : Y ≠ F.entry := by
    rintro rfl
    exact unreachable F.entry_reachable
  have full : (dominanceAnalysis.start F F.blockIds Y).inVec =
      BitVector.ofSize F.blockIds.length true := by
    simp [DataFlow.start, DataFlow.initialResult, DataFlow.boundaryBlocks, dominanceAnalysis,
      notEntry, target, DataFlow.interiorRes, BlockResult.ofSides, DataFlow.initCond]
  rw [dominates, index, indexAt_blockIds block, initial, full]
  simpa [Func.blockIds] using block

theorem mem_idomCandidates (computed : computeDom fuel F = some dom) {A B : Nat} :
    A ∈ idomCandidates dom B ↔
      A < F.blocks.length ∧ A ≠ B ∧ dominates A B dom = true ∧
      ∀ C < F.blocks.length, C ≠ A → C ≠ B →
        ¬ (dominates A C dom = true ∧ dominates C B dom = true) := by
  simp only [idomCandidates, indexedBlocks_computeDom computed, List.mem_filter, Func.blockIds,
    List.mem_range, isIdom, Bool.and_eq_true, decide_eq_true_eq, List.all_eq_true, Bool.or_eq_true,
    Bool.not_eq_true', Bool.and_eq_false_iff, and_assoc, not_and, Bool.not_eq_true, or_assoc]
  constructor
  · rintro ⟨inside, different, dominated, nothing⟩
    refine ⟨inside, different, dominated, fun C bound notA notB before => ?_⟩
    rcases nothing C bound with same | same | fails | fails
    · exact absurd same notA
    · exact absurd same notB
    · exact absurd (before.symm.trans fails) (by decide)
    · exact fails
  · rintro ⟨inside, different, dominated, nothing⟩
    refine ⟨inside, different, dominated, fun C bound => ?_⟩
    by_cases isA : C = A
    · exact Or.inl isA
    · by_cases isB : C = B
      · exact Or.inr (Or.inl isB)
      · cases before : dominates A C dom with
        | false => exact Or.inr (Or.inr (Or.inl rfl))
        | true => exact Or.inr (Or.inr (Or.inr (nothing C bound isA isB before)))

theorem nodup_idomCandidates (computed : computeDom fuel F = some dom) (B : Nat) :
    (idomCandidates dom B).Nodup := by
  rw [idomCandidates, indexedBlocks_computeDom computed]
  exact List.nodup_range.filter _

open FlowGraph in
theorem mem_idomCandidates_reachable (valid : ValidCfg F)
    (computed : computeDom fuel F = some dom) {A B : Nat} (reachable : F.Reachable B) :
    A ∈ idomCandidates dom B ↔ ImmediatelyDominates F.succs F.entry A B := by
  rw [mem_idomCandidates computed, immediatelyDominates_iff reachable]
  constructor
  · rintro ⟨inside, different, dominated, nothing⟩
    have strict := (dominates_iff valid computed inside reachable).mp dominated
    refine ⟨strict, fun C notA ⟨after, before⟩ => ?_⟩
    have passed : F.Reachable C := before.2.reachable reachable
    have bound := valid.reachable_lt passed
    exact nothing C bound notA before.1
      ⟨(dominates_iff valid computed inside passed).mpr after,
        (dominates_iff valid computed bound reachable).mpr before⟩
  · rintro ⟨strict, nothing⟩
    have inside := valid.reachable_lt (strict.2.reachable reachable)
    refine ⟨inside, strict.1, (dominates_iff valid computed inside reachable).mpr strict, ?_⟩
    intro C bound notA notB ⟨after, before⟩
    have beforeB := (dominates_iff valid computed bound reachable).mp before
    have passed : F.Reachable C := beforeB.2.reachable reachable
    exact nothing C notA ⟨(dominates_iff valid computed inside passed).mp after, beforeB⟩

open FlowGraph in
theorem idomCandidates_eq (valid : ValidCfg F) (computed : computeDom fuel F = some dom)
    {A B : Nat} (reachable : F.Reachable B)
    (immediate : ImmediatelyDominates F.succs F.entry A B) : idomCandidates dom B = [A] := by
  refine List.perm_singleton.mp ((List.perm_ext_iff_of_nodup
    (nodup_idomCandidates computed B) (List.nodup_singleton A)).mpr fun other => ?_)
  rw [mem_idomCandidates_reachable valid computed reachable, List.mem_singleton]
  constructor
  · exact fun same => same.unique reachable immediate
  · rintro rfl
    exact immediate

theorem lookup_computeIdom (valid : ValidCfg F) (computed : computeDom fuel F = some dom)
    {B : Nat} (reachable : F.Reachable B) {idom : AList fun _ : Nat => Nat}
    (returns : computeIdom dom = some idom) :
    idom.lookup B = (idomCandidates dom B).head? := by
  rw [computeIdom_eq, indexedBlocks_computeDom computed] at returns
  have found := (foldlM_selectIdom dom F.blockIds List.nodup_range ∅ (by simp)).2 idom returns B
  have listed : B ∈ F.blockIds := List.mem_range.mpr (valid.reachable_lt reachable)
  rwa [if_pos listed] at found

/-- A block that is not reachable, while all others are. -/
structure OnlyUnreachable (F : Func) (U : Nat) : Prop where
  inside : U < F.blocks.length
  unreachable : ¬ F.Reachable U
  only : ∀ block < F.blocks.length, ¬ F.Reachable block → block = U

theorem mem_idomCandidates_unreachable (valid : ValidCfg F) (computed : computeDom fuel F = some dom)
    {U : Nat} (inside : U < F.blocks.length) (unreachable : ¬ F.Reachable U) {A : Nat} :
    A ∈ idomCandidates dom U ↔ A < F.blocks.length ∧ A ≠ U ∧
      ∀ C < F.blocks.length, C ≠ A → C ≠ U → ¬ dominates A C dom = true := by
  rw [mem_idomCandidates computed]
  constructor
  · rintro ⟨bound, different, -, nothing⟩
    exact ⟨bound, different, fun C below notA notU before => nothing C below notA notU
      ⟨before, dominates_of_unreachable valid computed below inside unreachable⟩⟩
  · rintro ⟨bound, different, nothing⟩
    exact ⟨bound, different, dominates_of_unreachable valid computed bound inside unreachable,
      fun C below notA notU both => nothing C below notA notU both.1⟩

theorem OnlyUnreachable.mem_idomCandidates (valid : ValidCfg F)
    (computed : computeDom fuel F = some dom) {U : Nat} (only : OnlyUnreachable F U) {A : Nat} :
    A ∈ idomCandidates dom U ↔ FlowGraph.DominatorLeaf F.succs F.entry A := by
  rw [mem_idomCandidates_unreachable valid computed only.inside only.unreachable]
  constructor
  · rintro ⟨bound, notU, nothing⟩
    refine ⟨by_contra fun other => notU (only.only A bound other), fun C passed strict => ?_⟩
    refine nothing C (valid.reachable_lt passed) (Ne.symm strict.1) ?_
      ((dominates_iff valid computed bound passed).mpr strict)
    rintro rfl
    exact only.unreachable passed
  · intro isLeaf
    have bound := valid.reachable_lt isLeaf.reachable
    refine ⟨bound, ?_, fun C below notA notU dominated => ?_⟩
    · rintro rfl
      exact only.unreachable isLeaf.reachable
    · have passed : F.Reachable C := by_contra fun other => notU (only.only C below other)
      exact isLeaf.leaf C passed ((dominates_iff valid computed bound passed).mp dominated)

open FlowGraph in
theorem two_idomCandidates_iff (valid : ValidCfg F) (computed : computeDom fuel F = some dom)
    {U : Nat} (inside : U < F.blocks.length) (unreachable : ¬ F.Reachable U) :
    (∃ first ∈ idomCandidates dom U, ∃ second ∈ idomCandidates dom U, first ≠ second) ↔
      OnlyUnreachable F U ∧ ∃ first second, first ≠ second ∧
        DominatorLeaf F.succs F.entry first ∧ DominatorLeaf F.succs F.entry second := by
  constructor
  · rintro ⟨first, firstMember, second, secondMember, differ⟩
    have isCandidate : ∀ A ∈ idomCandidates dom U, ∀ block < F.blocks.length,
        ¬ F.Reachable block → block ≠ U → block = A := by
      intro A member block bound other notU
      obtain ⟨below, -, nothing⟩ :=
        (mem_idomCandidates_unreachable valid computed inside unreachable).mp member
      by_contra notA
      exact nothing block bound notA notU
        (dominates_of_unreachable valid computed below bound other)
    have only : OnlyUnreachable F U := by
      refine ⟨inside, unreachable, fun block bound other => ?_⟩
      by_contra notU
      exact differ ((isCandidate first firstMember block bound other notU).symm.trans
        (isCandidate second secondMember block bound other notU))
    exact ⟨only, first, second, differ, (only.mem_idomCandidates valid computed).mp firstMember,
      (only.mem_idomCandidates valid computed).mp secondMember⟩
  · rintro ⟨only, first, second, differ, firstLeaf, secondLeaf⟩
    exact ⟨first, (only.mem_idomCandidates valid computed).mpr firstLeaf, second,
      (only.mem_idomCandidates valid computed).mpr secondLeaf, differ⟩

theorem one_lt_length_iff {list : List Nat} (nodup : list.Nodup) :
    1 < list.length ↔ ∃ first ∈ list, ∃ second ∈ list, first ≠ second := by
  rw [← List.toFinset_card_of_nodup nodup, Finset.one_lt_card]
  simp

theorem computeIdom_eq_none_iff (valid : ValidCfg F) (computed : computeDom fuel F = some dom) :
    computeIdom dom = none ↔ ∃ B < F.blocks.length, ¬ F.Reachable B ∧
      ∃ first ∈ idomCandidates dom B, ∃ second ∈ idomCandidates dom B, first ≠ second := by
  rw [computeIdom_eq, indexedBlocks_computeDom computed,
    (foldlM_selectIdom dom F.blockIds List.nodup_range ∅ (by simp)).1]
  simp only [one_lt_length_iff (nodup_idomCandidates computed _)]
  constructor
  · rintro ⟨B, listed, first, firstMember, second, secondMember, differ⟩
    refine ⟨B, List.mem_range.mp listed, ?_, first, firstMember, second, secondMember, differ⟩
    intro reachable
    have isFirst := (mem_idomCandidates_reachable valid computed reachable).mp firstMember
    have isSecond := (mem_idomCandidates_reachable valid computed reachable).mp secondMember
    exact differ (isFirst.unique reachable isSecond)
  · rintro ⟨B, inside, -, candidates⟩
    exact ⟨B, List.mem_range.mpr inside, candidates⟩

open FlowGraph in
/-- The assertion holds unless there is exactly one unreachable block and the dominator
tree of the others has more than one leaf. -/
theorem computeIdom_isSome_iff (valid : ValidCfg F) (computed : computeDom fuel F = some dom) :
    (computeIdom dom).isSome = true ↔
      ¬ ((∃ U, OnlyUnreachable F U) ∧ ∃ first second, first ≠ second ∧
        DominatorLeaf F.succs F.entry first ∧ DominatorLeaf F.succs F.entry second) := by
  rw [Option.isSome_iff_ne_none, Ne, computeIdom_eq_none_iff valid computed]
  apply not_congr
  constructor
  · rintro ⟨B, inside, unreachable, candidates⟩
    obtain ⟨only, leaves⟩ :=
      (two_idomCandidates_iff valid computed inside unreachable).mp candidates
    exact ⟨⟨B, only⟩, leaves⟩
  · rintro ⟨⟨U, only⟩, leaves⟩
    exact ⟨U, only.inside, only.unreachable,
      (two_idomCandidates_iff valid computed only.inside only.unreachable).mpr ⟨only, leaves⟩⟩

end Dominance

def sampleUnreachable : Func :=
  { sampleLoop with blocks := sampleLoop.blocks ++
    [⟨[{ id := 9, name := "", shape := .terminator true [] [.arg 0] }]⟩] }

/-- The body of the loop and its exit are both taken for the immediate dominator of the
unreachable block. -/
theorem computeIdom_fails : StrictSSA sampleUnreachable ∧
    ∃ dom, computeDom 4 sampleUnreachable = some dom ∧ idomCandidates dom 4 = [2, 3] ∧
      computeIdom dom = none := by
  refine ⟨checkSsa_sound
    (show sampleUnreachable.checkSsa sampleDominators = true by decide +kernel), ?_⟩
  have outcome : (computeDom 4 sampleUnreachable).map (fun dom =>
      (idomCandidates dom 4, (computeIdom dom).isNone)) = some ([2, 3], true) := by
    decide
  obtain ⟨dom, computed, found⟩ := Option.map_eq_some_iff.mp outcome
  obtain ⟨two, none⟩ := Prod.mk.inj found
  exact ⟨dom, computed, two, Option.isNone_iff_eq_none.mp none⟩

theorem computeIdom_isSome_iff_sampleLoop : ∃ dom, computeDom 4 sampleLoop = some dom ∧
    (computeIdom dom).isSome = true := by
  obtain ⟨dom, computed⟩ := Option.isSome_iff_exists.mp
    (by decide : (computeDom 4 sampleLoop).isSome = true)
  refine ⟨dom, computed, (computeIdom_isSome_iff sampleLoop_ssa.toValidCfg computed).mpr ?_⟩
  rintro ⟨⟨U, only⟩, -⟩
  exact only.unreachable (sampleLoop_reachable U only.inside)

end LlvmGather
