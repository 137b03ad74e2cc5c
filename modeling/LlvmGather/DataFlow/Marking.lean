import LlvmGather.DataFlow.Domain
import LlvmGather.DataFlow.Solution

/-!
How the backward analyses record the operands of an instruction: in a vector, or for
a phi among the values kept for its incoming blocks, where the first operand of a
block creates the vector.
-/

namespace LlvmGather

def markOperands (accepts : Value → Bool) (index : Value → Nat) (operands : List Value)
    (useSet : BitVector) : BitVector :=
  operands.foldl (fun useSet val => if accepts val then useSet.set (index val) else useSet) useSet

theorem markOperands_spec (accepts : Value → Bool) (index : Value → Nat) (operands : List Value)
    (useSet : BitVector) :
    (markOperands accepts index operands useSet).size = useSet.size ∧
    ∀ bit, (markOperands accepts index operands useSet).test bit = true ↔
      useSet.test bit = true ∨ bit < useSet.size ∧
        ∃ val ∈ operands, accepts val = true ∧ index val = bit := by
  induction operands generalizing useSet with
  | nil => simp [markOperands]
  | cons first rest ih =>
      by_cases accepted : accepts first = true
      · obtain ⟨size, bits⟩ := ih (useSet.set (index first))
        simp only [markOperands, List.foldl_cons, accepted, if_true] at size bits ⊢
        refine ⟨by simpa using size, ?_⟩
        intro bit
        rw [bits, BitVector.test_set, BitVector.size_set]
        simp only [Bool.or_eq_true, decide_eq_true_eq, List.mem_cons, exists_eq_or_imp, accepted,
          true_and]
        constructor
        · rintro ((old | ⟨rfl, small⟩) | ⟨small, later⟩)
          · exact Or.inl old
          · exact Or.inr ⟨small, Or.inl rfl⟩
          · exact Or.inr ⟨small, Or.inr later⟩
        · rintro (old | ⟨small, rfl | later⟩)
          · exact Or.inl (Or.inl old)
          · exact Or.inl (Or.inr ⟨rfl, small⟩)
          · exact Or.inr ⟨small, later⟩
      · obtain ⟨size, bits⟩ := ih useSet
        simp only [markOperands, List.foldl_cons, accepted] at size bits ⊢
        refine ⟨size, ?_⟩
        intro bit
        rw [if_neg Bool.false_ne_true, bits]
        simp [accepted]

def markNeighbor (domainSize valBlock valInd : Nat) (neighborVals : AList fun _ : Nat => BitVector) :
    AList fun _ : Nat => BitVector :=
  let present := (neighborVals.lookup valBlock).getD (BitVector.ofSize domainSize false)
  neighborVals.insert valBlock (present.set valInd)

def markIncoming (accepts : Value → Bool) (domainSize : Nat) (index : Value → Nat)
    (incoming : List (Value × Nat)) (neighborVals : AList fun _ : Nat => BitVector) :
    AList fun _ : Nat => BitVector :=
  incoming.foldl
    (fun vals entry =>
      if accepts entry.1 then markNeighbor domainSize entry.2 (index entry.1) vals else vals)
    neighborVals

structure Marked (size : Nat) (vals : AList fun _ : Nat => BitVector)
    (marks : Nat → Nat → Prop) : Prop where
  key : ∀ block, (vals.lookup block).isSome ↔ ∃ index, marks block index
  bits : ∀ block extra, vals.lookup block = some extra → extra.size = size ∧
    ∀ index, extra.test index = true ↔ marks block index ∧ index < size

theorem Marked.empty (size : Nat) : Marked size ∅ fun _ _ => False :=
  ⟨by simp, by simp⟩

theorem Marked.congr {size : Nat} {vals : AList fun _ : Nat => BitVector}
    {marks marks' : Nat → Nat → Prop} (marked : Marked size vals marks)
    (same : ∀ block index, marks block index ↔ marks' block index) : Marked size vals marks' := by
  have equal : marks = marks' := by
    funext block index
    exact propext (same block index)
  exact equal ▸ marked

theorem Marked.getD {size : Nat} {vals : AList fun _ : Nat => BitVector}
    {marks : Nat → Nat → Prop} (marked : Marked size vals marks) (block : Nat) :
    let present := (vals.lookup block).getD (BitVector.ofSize size false)
    present.size = size ∧ ∀ index, present.test index = true ↔ marks block index ∧ index < size := by
  cases entry : vals.lookup block with
  | none =>
      have unmarked : ∀ index, ¬ marks block index := by
        intro index mark
        have isSome := (marked.key block).mpr ⟨index, mark⟩
        simp [entry] at isSome
      simp [unmarked]
  | some old => exact marked.bits block old entry

theorem Marked.mark {size : Nat} {vals : AList fun _ : Nat => BitVector}
    {marks : Nat → Nat → Prop} (marked : Marked size vals marks) (valBlock valInd : Nat) :
    Marked size (markNeighbor size valBlock valInd vals)
      fun block index => marks block index ∨ (block = valBlock ∧ index = valInd) := by
  unfold markNeighbor
  refine ⟨?_, ?_⟩
  · intro block
    by_cases same : block = valBlock
    · subst same
      simp only [AList.lookup_insert, Option.isSome_some, true_and, true_iff]
      exact ⟨valInd, Or.inr rfl⟩
    · rw [AList.lookup_insert_ne same, marked.key]
      simp [same]
  · intro block extra found
    by_cases same : block = valBlock
    · subst same
      rw [AList.lookup_insert, Option.some.injEq] at found
      subst found
      obtain ⟨sized, bits⟩ := marked.getD block
      refine ⟨by simpa using sized, ?_⟩
      intro index
      simp only [BitVector.test_set, Bool.or_eq_true, decide_eq_true_eq, sized, bits, true_and]
      constructor
      · rintro (⟨mark, small⟩ | ⟨rfl, small⟩)
        · exact ⟨Or.inl mark, small⟩
        · exact ⟨Or.inr rfl, small⟩
      · rintro ⟨mark | rfl, small⟩
        · exact Or.inl ⟨mark, small⟩
        · exact Or.inr ⟨rfl, small⟩
    · rw [AList.lookup_insert_ne same] at found
      obtain ⟨sized, bits⟩ := marked.bits block extra found
      refine ⟨sized, ?_⟩
      intro index
      simp [bits, same]

theorem Marked.incoming {size : Nat} {vals : AList fun _ : Nat => BitVector}
    {marks : Nat → Nat → Prop} (marked : Marked size vals marks) (accepts : Value → Bool)
    (index : Value → Nat) (incoming : List (Value × Nat)) :
    Marked size (markIncoming accepts size index incoming vals) fun block bit =>
      marks block bit ∨ ∃ value, (value, block) ∈ incoming ∧ accepts value = true ∧
        index value = bit := by
  induction incoming generalizing vals marks with
  | nil => simpa [markIncoming] using marked
  | cons entry rest ih =>
      obtain ⟨value, source⟩ := entry
      rw [markIncoming, List.foldl_cons]
      by_cases accepted : accepts value = true
      · simp only [accepted, if_true]
        apply (ih (marked.mark source (index value))).congr
        intro block bit
        constructor
        · rintro ((mark | ⟨rfl, rfl⟩) | ⟨other, member, rest⟩)
          · exact Or.inl mark
          · exact Or.inr ⟨value, List.mem_cons_self, accepted, rfl⟩
          · exact Or.inr ⟨other, List.mem_cons_of_mem _ member, rest⟩
        · rintro (mark | ⟨other, member, ok, same⟩)
          · exact Or.inl (Or.inl mark)
          · rcases List.mem_cons.mp member with first | later
            · obtain ⟨rfl, rfl⟩ := Prod.mk.inj first
              exact Or.inl (Or.inr ⟨rfl, same.symm⟩)
            · exact Or.inr ⟨other, later, ok, same⟩
      · simp only [accepted]
        apply (ih marked).congr
        intro block bit
        apply or_congr_right
        constructor
        · rintro ⟨other, member, rest⟩
          exact ⟨other, List.mem_cons_of_mem _ member, rest⟩
        · rintro ⟨other, member, ok, same⟩
          rcases List.mem_cons.mp member with first | later
          · obtain ⟨rfl, rfl⟩ := Prod.mk.inj first
            exact absurd ok accepted
          · exact ⟨other, later, ok, same⟩

theorem Marked.le {size : Nat} {left right : TransferOutput} {leftMarks rightMarks : Nat → Nat → Prop}
    (leftMarked : Marked size left.neighborVals leftMarks)
    (rightMarked : Marked size right.neighborVals rightMarks)
    (element : BitVector.Subset left.element right.element)
    (marks : ∀ block index, leftMarks block index → rightMarks block index) : left.Le right := by
  refine ⟨element, ?_⟩
  intro block extra found
  obtain ⟨index, mark⟩ := (leftMarked.key block).mp (by simp [found])
  obtain ⟨extra', found'⟩ := Option.isSome_iff_exists.mp
    ((rightMarked.key block).mpr ⟨index, marks block index mark⟩)
  refine ⟨extra', found', ?_⟩
  intro bit inLeft
  have here := ((leftMarked.bits block extra found).2 bit).mp inLeft
  exact ((rightMarked.bits block extra' found').2 bit).mpr ⟨marks block bit here.1, here.2⟩

theorem Marked.sized {size : Nat} {output : TransferOutput} {marks : Nat → Nat → Prop}
    (marked : Marked size output.neighborVals marks) (element : output.element.size = size) :
    output.Sized size := by
  intro block
  unfold TransferOutput.valueFor
  split
  · rename_i extra found
    simp [element, (marked.bits block extra found).1]
  · exact element

theorem Marked.test_valueFor {size : Nat} {output : TransferOutput} {marks : Nat → Nat → Prop}
    (marked : Marked size output.neighborVals marks) {block index : Nat} (small : index < size) :
    (output.valueFor block).test index = true ↔
      output.element.test index = true ∨ marks block index := by
  rw [TransferOutput.test_valueFor]
  apply or_congr_right
  constructor
  · rintro ⟨extra, found, bit⟩
    exact (((marked.bits block extra found).2 index).mp bit).1
  · intro mark
    obtain ⟨extra, found⟩ := Option.isSome_iff_exists.mp ((marked.key block).mpr ⟨index, mark⟩)
    exact ⟨extra, found, ((marked.bits block extra found).2 index).mpr ⟨mark, small⟩⟩

end LlvmGather
