import LlvmGather.Analysis.Dominance

/-!
Immediate dominators and the dominator tree of a loop, as `dominance.cpp` computes them.
A null pointer to a block is `none`.
-/

namespace LlvmGather

def indexedBlocks (domainToIndex : AList fun _ : Nat => Nat) : List Nat :=
  domainToIndex.entries.foldl (fun domain entry => domain.set entry.2 entry.1)
    (List.replicate domainToIndex.entries.length 0)

/-- `A` dominates `B` and no third block lies between them. -/
def isIdom (domain : List Nat) (dominanceResult : DataFlowResult Nat) (A B : Nat) : Bool :=
  decide (A ≠ B) && dominates A B dominanceResult && domain.all fun C =>
    decide (C = A) || decide (C = B) ||
      !(dominates A C dominanceResult && dominates C B dominanceResult)

/-- One candidate; `none` is the failing assertion that a block has only one. -/
def addIdom (domain : List Nat) (dominanceResult : DataFlowResult Nat) (B : Nat)
    (idom : AList fun _ : Nat => Nat) (A : Nat) : Option (AList fun _ : Nat => Nat) :=
  if isIdom domain dominanceResult A B then
    match idom.lookup B with
    | some _ => none
    | none => some (idom.insert B A)
  else some idom

def computeIdom (dominanceResult : DataFlowResult Nat) : Option (AList fun _ : Nat => Nat) :=
  let domain := indexedBlocks dominanceResult.domainToIndex
  domain.foldlM
    (fun idom B => domain.foldlM (addIdom domain dominanceResult B) idom) ∅

/-- The names of the immediate dominators are read through `idom[block]`, which is null
for a block without one. -/
def printIdom (idom : AList fun _ : Nat => Nat) (blocks : List Nat) : Option Unit :=
  if blocks.all fun block => (idom.lookup block).isSome then some () else none

structure DomTreeNode where
  children : List Nat
  parent : Option (Option Nat)

/-- `node` is the table `lookup`, where a block without a node reads as a new one. The
node of the null block is the parent of the header. -/
structure DomTree where
  node : Option Nat → DomTreeNode
  nodes : List Nat
  root : Nat

def DomTree.attach (tree : DomTree) (block : Nat) (parent : Option Nat) : DomTree :=
  let linked := Function.update tree.node (some block)
    { tree.node (some block) with parent := some parent }
  { tree with
    node := Function.update linked parent
      { linked parent with children := (linked parent).children ++ [block] }
    nodes := tree.nodes ++ [block] }

/-- The parent of the first block, the header, is null; that of any other block is its
immediate dominator. -/
def getDominanceTree (idom : AList fun _ : Nat => Nat) (header : Nat) (blocks : List Nat) :
    DomTree :=
  let empty : DomTree := ⟨fun _ => ⟨[], none⟩, [], header⟩
  blocks.foldl (fun tree block => tree.attach block (idom.lookup block)) (empty.attach header none)

@[simp] theorem DomTree.children_attach (tree : DomTree) (block : Nat) (parent key : Option Nat) :
    ((tree.attach block parent).node key).children =
      (tree.node key).children ++ if parent = key then [block] else [] := by
  by_cases own : key = parent
  · subst own
    by_cases here : key = some block
    · simp [DomTree.attach, here]
    · simp [DomTree.attach, here]
  · by_cases here : key = some block
    · subst here
      simp [DomTree.attach, own, Ne.symm own]
    · simp [DomTree.attach, own, here, Ne.symm own]

theorem root_getDominanceTree (idom : AList fun _ : Nat => Nat) (header : Nat)
    (blocks : List Nat) : (getDominanceTree idom header blocks).root = header := by
  unfold getDominanceTree
  apply Scan.foldl_rule (P := fun _ (tree : DomTree) => tree.root = header) blocks
  · rfl
  · intro _ _ _ tree _ same
    exact same

theorem children_getDominanceTree (idom : AList fun _ : Nat => Nat) (header : Nat)
    (blocks : List Nat) (key : Option Nat) :
    ((getDominanceTree idom header blocks).node key).children =
      (if none = key then [header] else []) ++ blocks.filter (idom.lookup · = key) := by
  unfold getDominanceTree
  have general : ∀ (rest : List Nat) (tree : DomTree),
      ((rest.foldl (fun tree block => tree.attach block (idom.lookup block)) tree).node
        key).children = (tree.node key).children ++ rest.filter (idom.lookup · = key) := by
    intro rest
    induction rest with
    | nil => simp
    | cons block rest ih =>
        intro tree
        rw [List.foldl_cons, ih, DomTree.children_attach, List.append_assoc]
        by_cases isChild : idom.lookup block = key
        · simp [isChild]
        · simp [isChild]
  rw [general]
  simp

end LlvmGather
