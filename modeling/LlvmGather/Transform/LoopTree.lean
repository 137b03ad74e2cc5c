import LlvmGather.Transform.Hoisting
import LlvmGather.Transform.ImmediateDominator

/-!
The dominator tree of a loop holds every block of the loop once, below its immediate
dominator, so that the stack of `runOnLoop` goes through all of them from the header
downwards.
-/

namespace LlvmGather

@[simp] theorem DomTree.parent_attach (tree : DomTree) (block : Nat) (parent key : Option Nat) :
    ((tree.attach block parent).node key).parent =
      if key = some block then some parent else (tree.node key).parent := by
  by_cases own : key = parent
  · subst own
    by_cases here : key = some block <;> simp [DomTree.attach, here]
  · by_cases here : key = some block
    · subst here
      simp [DomTree.attach, own]
    · simp [DomTree.attach, own, here]

theorem parent_getDominanceTree (idom : AList fun _ : Nat => Nat) (header : Nat)
    (blocks : List Nat) {block : Nat} (member : block ∈ blocks) :
    ((getDominanceTree idom header blocks).node (some block)).parent = some (idom.lookup block) := by
  have general : ∀ (rest : List Nat) (tree : DomTree),
      ((rest.foldl (fun tree block => tree.attach block (idom.lookup block)) tree).node
        (some block)).parent =
          if block ∈ rest then some (idom.lookup block) else (tree.node (some block)).parent := by
    intro rest
    induction rest with
    | nil => simp
    | cons next rest ih =>
        intro tree
        rw [List.foldl_cons, ih, DomTree.parent_attach]
        by_cases here : block = next
        · subst here
          simp
        · simp [here]
  rw [getDominanceTree, general, if_pos member]

theorem nodes_getDominanceTree (idom : AList fun _ : Nat => Nat) (header : Nat)
    (blocks : List Nat) : (getDominanceTree idom header blocks).nodes = header :: blocks := by
  have general : ∀ (rest : List Nat) (tree : DomTree),
      (rest.foldl (fun tree block => tree.attach block (idom.lookup block)) tree).nodes =
        tree.nodes ++ rest := by
    intro rest
    induction rest with
    | nil => simp
    | cons next rest ih =>
        intro tree
        rw [List.foldl_cons, ih]
        simp [DomTree.attach]
  rw [getDominanceTree, general]
  rfl

def DomTree.visitOrder (tree : DomTree) : Nat → List Nat → Option (List Nat)
  | 0, _ => none
  | _ + 1, [] => some []
  | fuel + 1, block :: worklist =>
      (tree.visitOrder fuel ((tree.node (some block)).children.reverse ++ worklist)).map
        (block :: ·)

theorem traverse_eq (F : Func) (L : Loop) (tree : DomTree) {fuel : Nat} {worklist order : List Nat}
    (visits : tree.visitOrder fuel worklist = some order) (invStmts : List Inst) :
    LICM.traverse F L tree fuel worklist invStmts =
      some (if order.all L.isInnermost then some (order.foldl (LICM.scanBlock F L) invStmts)
        else none) := by
  induction fuel generalizing worklist order invStmts with
  | zero => simp [DomTree.visitOrder] at visits
  | succ fuel ih =>
      cases worklist with
      | nil =>
          simp only [DomTree.visitOrder, Option.some.injEq] at visits
          subst visits
          simp [LICM.traverse]
      | cons block worklist =>
          simp only [DomTree.visitOrder, Option.map_eq_some_iff] at visits
          obtain ⟨later, visits, rfl⟩ := visits
          rw [LICM.traverse]
          by_cases innermost : L.isInnermost block = true
          · rw [if_pos innermost, ih visits]
            simp [innermost]
          · simp [innermost]

section Loop

variable {F : Func} {L : Loop} {idom : AList fun _ : Nat => Nat}

def Frontier.Closed (L : Loop) (idom : AList fun _ : Nat => Nat) (worklist visited : List Nat) :
    Prop :=
  L.header ∈ worklist ++ visited ∧
    ∀ block ∈ L.rest, ∀ parent ∈ visited, idom.lookup block = some parent →
      block ∈ worklist ++ visited

theorem Frontier.Closed.visit {worklist visited : List Nat} {block : Nat}
    (closed : Frontier.Closed L idom (block :: worklist) visited) :
    Frontier.Closed L idom
      (((getDominanceTree idom L.header L.rest).node (some block)).children.reverse ++ worklist)
      (block :: visited) := by
  have kept : ∀ other ∈ block :: worklist ++ visited, other ∈
      ((getDominanceTree idom L.header L.rest).node (some block)).children.reverse ++ worklist ++
        block :: visited := by
    intro other member
    simp only [List.cons_append, List.mem_cons, List.mem_append] at member ⊢
    tauto
  refine ⟨kept _ closed.1, fun child inRest parent visitedParent looked => ?_⟩
  rcases List.mem_cons.mp visitedParent with rfl | earlier
  · have isChild : child ∈
        ((getDominanceTree idom L.header L.rest).node (some parent)).children := by
      rw [children_getDominanceTree]
      simp [inRest, looked]
    simp [isChild]
  · exact kept child (closed.2 child inRest parent earlier looked)

theorem Frontier.run (nodup : L.getBlocks.Nodup) {fuel : Nat} {worklist visited : List Nat}
    (frontier : Frontier L idom worklist visited)
    (closed : Frontier.Closed L idom worklist visited)
    (enough : L.getBlocks.length < fuel + visited.length) :
    ∃ order, (getDominanceTree idom L.header L.rest).visitOrder fuel worklist = some order ∧
      Frontier L idom [] (order.reverse ++ visited) ∧
      Frontier.Closed L idom [] (order.reverse ++ visited) ∧
      ∀ before block after, order = before ++ block :: after →
        block = L.header ∨ ∃ parent, (parent ∈ before ∨ parent ∈ visited) ∧
          idom.lookup block = some parent := by
  have few : (worklist ++ visited).length ≤ L.getBlocks.length :=
    (List.subperm_of_subset frontier.nodup frontier.inside).length_le
  rw [List.length_append] at few
  induction fuel generalizing worklist visited with
  | zero => omega
  | succ fuel ih =>
      cases worklist with
      | nil => exact ⟨[], rfl, frontier, closed, by simp⟩
      | cons block worklist =>
          have next := frontier.visit nodup
          have few' := (List.subperm_of_subset next.nodup next.inside).length_le
          rw [List.length_append] at few'
          obtain ⟨later, visits, finalFrontier, finalClosed, ordered⟩ := ih next closed.visit
            (by simp only [List.length_cons]; omega) few'
          refine ⟨block :: later, by simp [DomTree.visitOrder, visits], ?_, ?_, ?_⟩
          · simpa using finalFrontier
          · simpa using finalClosed
          · intro before other after split
            cases before with
            | nil =>
                obtain ⟨rfl, -⟩ := List.cons.inj split
                rcases frontier.parents block (by simp) with isHeader | ⟨parent, seen, looked⟩
                · exact Or.inl isHeader
                · exact Or.inr ⟨parent, Or.inr seen, looked⟩
            | cons first before =>
                obtain ⟨rfl, rest⟩ := List.cons.inj split
                refine (ordered before other after rest).imp_right ?_
                rintro ⟨parent, seen, looked⟩
                refine ⟨parent, ?_, looked⟩
                simp only [List.mem_cons] at seen ⊢
                tauto

open FlowGraph in
/-- What is closed under children and holds the header holds the whole loop, since going
from block to immediate dominator shortens the walks. -/
theorem Frontier.Closed.covers (loop : NaturalLoop F.succs F.entry L.getBlocks L.header)
    (immediate : ∀ block ∈ L.rest, ∃ parent, idom.lookup block = some parent ∧
      ImmediatelyDominates F.succs F.entry parent block)
    (headerOnce : L.header ∉ L.rest) {visited : List Nat}
    (closed : Frontier.Closed L idom [] visited) :
    ∀ block ∈ L.getBlocks, block ∈ visited := by
  intro block member
  obtain ⟨trail, walk⟩ := reachable_iff_walk.mp (loop.reachable block member)
  generalize lengthEq : trail.length = length
  induction length using Nat.strongRecOn generalizing block trail with
  | ind length ih =>
      rcases List.mem_cons.mp member with rfl | inRest
      · simpa using closed.1
      · obtain ⟨parent, looked, dominates⟩ := immediate block inRest
        have interior : block ≠ L.header := by
          rintro rfl
          exact headerOnce inRest
        have passed := (List.mem_cons.mp (dominates.strict.2 trail walk)).resolve_left
          dominates.strict.1
        obtain ⟨recent, shorter, split, cut⟩ := walk.cut passed
        have parentIn := loop.immediatelyDominates_mem member interior dominates
        have seen := ih shorter.length (by rw [← lengthEq, split]; simp; omega) parent parentIn
          shorter cut rfl
        simpa using closed.2 block inRest parent seen looked

theorem count_children (nodup : L.getBlocks.Nodup) {block : Nat} (inRest : block ∈ L.rest)
    (key : Option Nat) :
    ((getDominanceTree idom L.header L.rest).node key).children.count block =
      if key = idom.lookup block then 1 else 0 := by
  obtain ⟨headerOnce, restNodup⟩ := List.nodup_cons.mp nodup
  have notHeader : L.header ≠ block := by
    rintro rfl
    exact headerOnce inRest
  have noHeader : (if none = key then [L.header] else []).count block = 0 := by
    split <;> simp [notHeader]
  rw [children_getDominanceTree, List.count_append, noHeader, Nat.zero_add]
  split
  · rename_i same
    rw [List.count_filter (by simp [same])]
    exact List.count_eq_one_of_mem restNodup inRest
  · rename_i differ
    apply List.count_eq_zero_of_not_mem
    intro member
    have looked := (List.mem_filter.mp member).2
    exact differ (by simpa [eq_comm] using looked)

open FlowGraph in
theorem lookup_immediate (valid : ValidCfg F) (nodup : L.getBlocks.Nodup)
    (loop : NaturalLoop F.succs F.entry L.getBlocks L.header) {fuel : Nat}
    {dom : DataFlowResult Nat} (computed : computeDom fuel F = some dom)
    (idoms : computeIdom dom = some idom) {block : Nat} (inRest : block ∈ L.rest) :
    ∃ parent, idom.lookup block = some parent ∧
      ImmediatelyDominates F.succs F.entry parent block := by
  have member : block ∈ L.getBlocks := List.mem_cons_of_mem _ inRest
  have notEntry : block ≠ F.entry := by
    rintro rfl
    have isHeader := dominates_entry (loop.dominated _ member)
    exact (List.nodup_cons.mp nodup).1 (isHeader ▸ inRest)
  obtain ⟨parent, dominates⟩ := exists_immediatelyDominates (loop.reachable block member) notEntry
  refine ⟨parent, ?_, dominates⟩
  rw [lookup_computeIdom valid computed (loop.reachable block member) idoms,
    idomCandidates_eq valid computed (loop.reachable block member) dominates]
  rfl

open FlowGraph in
theorem visitOrder_covers (valid : ValidCfg F) (nodup : L.getBlocks.Nodup)
    (loop : NaturalLoop F.succs F.entry L.getBlocks L.header) {fuel : Nat}
    {dom : DataFlowResult Nat} (computed : computeDom fuel F = some dom)
    (idoms : computeIdom dom = some idom) {steps : Nat} (enough : L.getBlocks.length < steps) :
    ∃ order, (getDominanceTree idom L.header L.rest).visitOrder steps [L.header] = some order ∧
      order.Perm L.getBlocks ∧
      ∀ before block after, order = before ++ block :: after → block ≠ L.header →
        ∃ parent ∈ before, ImmediatelyDominates F.succs F.entry parent block := by
  have immediate : ∀ block ∈ L.rest, _ :=
    fun _ => lookup_immediate valid nodup loop computed idoms
  obtain ⟨order, visits, frontier, closed, ordered⟩ := Frontier.run nodup
    (Frontier.initial idom) ⟨by simp, by simp⟩ (by simpa using enough)
  simp only [List.append_nil] at frontier closed
  refine ⟨order, visits, ?_, ?_⟩
  · have distinct : order.Nodup := List.nodup_reverse.mp (by simpa using frontier.nodup)
    refine (List.perm_ext_iff_of_nodup distinct nodup).mpr fun block => ⟨fun visited => ?_,
      fun member => ?_⟩
    · exact frontier.inside block (by simpa using visited)
    · simpa using closed.covers loop immediate (List.nodup_cons.mp nodup).1 block member
  · intro before block after split notHeader
    obtain ⟨parent, seen, looked⟩ := (ordered before block after split).resolve_left notHeader
    have member : block ∈ L.getBlocks := frontier.inside block (by simp [split])
    obtain ⟨other, lookedOther, dominates⟩ := immediate block
      ((List.mem_cons.mp member).resolve_left notHeader)
    rw [looked, Option.some_inj] at lookedOther
    exact ⟨parent, by simpa using seen, lookedOther ▸ dominates⟩

open FlowGraph in
/-- The tree has the header as its root and every other block of the loop once, as a child
of its immediate dominator; the traversal visits each block once, and after it. -/
theorem getDominanceTree_covers (valid : ValidCfg F) (nodup : L.getBlocks.Nodup)
    (loop : NaturalLoop F.succs F.entry L.getBlocks L.header) {fuel : Nat}
    {dom : DataFlowResult Nat} (computed : computeDom fuel F = some dom)
    (idoms : computeIdom dom = some idom) :
    (getDominanceTree idom L.header L.rest).root = L.header ∧
    (getDominanceTree idom L.header L.rest).nodes = L.getBlocks ∧
    (∀ block ∈ L.rest, ∃ parent ∈ L.getBlocks,
      ImmediatelyDominates F.succs F.entry parent block ∧
      ((getDominanceTree idom L.header L.rest).node (some block)).parent = some (some parent) ∧
      ∀ key, ((getDominanceTree idom L.header L.rest).node key).children.count block =
        if key = some parent then 1 else 0) ∧
    (∀ key, L.header ∈ ((getDominanceTree idom L.header L.rest).node key).children ↔ key = none) ∧
    ∀ steps, L.getBlocks.length < steps → ∃ order,
      (getDominanceTree idom L.header L.rest).visitOrder steps
        [(getDominanceTree idom L.header L.rest).root] = some order ∧
      (∀ invStmts, LICM.traverse F L (getDominanceTree idom L.header L.rest) steps
        [(getDominanceTree idom L.header L.rest).root] invStmts =
          some (if order.all L.isInnermost then some (order.foldl (LICM.scanBlock F L) invStmts)
            else none)) ∧
      order.Perm L.getBlocks ∧
      ∀ before block after, order = before ++ block :: after → block ≠ L.header →
        ∃ parent ∈ before, ImmediatelyDominates F.succs F.entry parent block := by
  obtain ⟨headerOnce, restNodup⟩ := List.nodup_cons.mp nodup
  have interior : ∀ block ∈ L.rest, block ≠ L.header := by
    rintro block inRest rfl
    exact headerOnce inRest
  have immediate : ∀ block ∈ L.rest, _ :=
    fun _ => lookup_immediate valid nodup loop computed idoms
  rw [root_getDominanceTree]
  refine ⟨rfl, nodes_getDominanceTree idom L.header L.rest, ?_, ?_, ?_⟩
  · intro block inRest
    obtain ⟨parent, looked, dominates⟩ := immediate block inRest
    refine ⟨parent, loop.immediatelyDominates_mem (List.mem_cons_of_mem _ inRest)
      (interior block inRest) dominates, dominates, ?_, fun key => ?_⟩
    · rw [parent_getDominanceTree idom L.header L.rest inRest, looked]
    · rw [count_children nodup inRest, looked]
  · intro key
    rw [children_getDominanceTree]
    by_cases isNull : key = none
    · simp [isNull]
    · simp [headerOnce, isNull, Ne.symm isNull]
  · intro steps enough
    obtain ⟨order, visits, perm, ordered⟩ := visitOrder_covers valid nodup loop computed idoms enough
    exact ⟨order, visits, traverse_eq F L _ visits, perm, ordered⟩

end Loop

theorem getDominanceTree_covers_sampleNest : ∃ dom idom,
    computeDom 4 sampleLoop = some dom ∧ computeIdom dom = some idom ∧
    ∃ order, (getDominanceTree idom 1 [2]).visitOrder 3
        [(getDominanceTree idom 1 [2]).root] = some order ∧ order.Perm [1, 2] := by
  obtain ⟨idom, found⟩ := Option.isSome_iff_exists.mp
    (by decide : ((computeDom 4 sampleLoop).bind computeIdom).isSome = true)
  obtain ⟨dom, computed, idoms⟩ := Option.bind_eq_some_iff.mp found
  obtain ⟨-, -, -, -, visits⟩ := getDominanceTree_covers sampleLoop_ssa.toValidCfg
    sampleNest_natural.nodup sampleNest_natural.natural computed idoms
  obtain ⟨order, visited, -, perm, -⟩ := visits 3 (by decide)
  exact ⟨dom, idom, computed, idoms, order, visited, perm⟩

end LlvmGather
