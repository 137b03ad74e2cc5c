import Mathlib.Data.Finset.Card
import Mathlib.Tactic

/-!
Bit vectors that carry their size. Disjunction grows the left operand, conjunction
keeps its size, and comparison pads the shorter operand with zeros.
-/

structure BitVector where
  bits : List Bool
deriving DecidableEq, Repr

namespace BitVector

def empty : BitVector := ⟨[]⟩

def ofSize (size : Nat) (value : Bool) : BitVector := ⟨List.replicate size value⟩

def size (vector : BitVector) : Nat := vector.bits.length

def test (vector : BitVector) (index : Nat) : Bool := vector.bits.getD index false

def set (vector : BitVector) (index : Nat) : BitVector := ⟨vector.bits.set index true⟩

def reset (vector : BitVector) (index : Nat) : BitVector := ⟨vector.bits.set index false⟩

def flip (vector : BitVector) : BitVector := ⟨vector.bits.map not⟩

def or (left right : BitVector) : BitVector :=
  ⟨(List.range (max left.size right.size)).map fun index => left.test index || right.test index⟩

def and (left right : BitVector) : BitVector :=
  ⟨(List.range left.size).map fun index => left.test index && right.test index⟩

/-- Comparison of the set bits; trailing zeros do not count. -/
def same (left right : BitVector) : Bool :=
  (List.range (max left.size right.size)).all fun index => left.test index == right.test index

theorem test_eq_false_of_size_le (vector : BitVector) {index : Nat}
    (beyond : vector.size ≤ index) : vector.test index = false := by
  simp only [size] at beyond
  simp [test, List.getD_eq_getElem?_getD, beyond]

theorem lt_size_of_test {vector : BitVector} {index : Nat} (found : vector.test index = true) :
    index < vector.size := by
  by_contra beyond
  rw [test_eq_false_of_size_le _ (by omega)] at found
  exact Bool.false_ne_true found

@[simp] theorem size_ofSize (size : Nat) (value : Bool) : (ofSize size value).size = size := by
  simp [ofSize, BitVector.size]

@[simp] theorem size_set (vector : BitVector) (index : Nat) :
    (vector.set index).size = vector.size := by
  simp [set, size]

@[simp] theorem size_reset (vector : BitVector) (index : Nat) :
    (vector.reset index).size = vector.size := by
  simp [reset, size]

@[simp] theorem size_flip (vector : BitVector) : vector.flip.size = vector.size := by
  simp [flip, size]

@[simp] theorem size_or (left right : BitVector) :
    (left.or right).size = max left.size right.size := by
  simp [or, size]

@[simp] theorem size_and (left right : BitVector) : (left.and right).size = left.size := by
  simp [and, size]

@[simp] theorem test_empty (index : Nat) : empty.test index = false := by
  simp [empty, test]

@[simp] theorem test_ofSize (size : Nat) (value : Bool) (index : Nat) :
    (ofSize size value).test index = (decide (index < size) && value) := by
  by_cases bound : index < size
  · simp [ofSize, test, List.getD_eq_getElem?_getD, bound]
  · rw [test_eq_false_of_size_le _ (by simpa using bound)]
    simp [bound]

theorem test_map_range (count : Nat) (bit : Nat → Bool) (index : Nat) :
    (BitVector.mk ((List.range count).map bit)).test index = (decide (index < count) && bit index) := by
  by_cases bound : index < count
  · simp [test, List.getD_eq_getElem?_getD, bound]
  · rw [test_eq_false_of_size_le _ (by simpa [size] using bound)]
    simp [bound]

@[simp] theorem test_or (left right : BitVector) (index : Nat) :
    (left.or right).test index = (left.test index || right.test index) := by
  rw [or, test_map_range]
  by_cases bound : index < max left.size right.size
  · simp [bound]
  · rw [test_eq_false_of_size_le left (by omega),
      test_eq_false_of_size_le right (by omega)]
    simp

@[simp] theorem test_and (left right : BitVector) (index : Nat) :
    (left.and right).test index = (left.test index && right.test index) := by
  rw [and, test_map_range]
  by_cases bound : index < left.size
  · simp [bound]
  · rw [test_eq_false_of_size_le left (by omega)]
    simp

theorem test_flip {vector : BitVector} {index : Nat} (bound : index < vector.size) :
    vector.flip.test index = !vector.test index := by
  simp only [size] at bound
  simp [flip, test, List.getD_eq_getElem?_getD, bound]

theorem getD_set (bits : List Bool) (index query : Nat) (value : Bool) :
    (bits.set index value).getD query false =
      if query = index ∧ index < bits.length then value else bits.getD query false := by
  simp only [List.getD_eq_getElem?_getD, List.getElem?_set]
  by_cases same : index = query
  · subst query
    by_cases bound : index < bits.length
    · simp [bound]
    · simp [bound]
  · simp [same, Ne.symm same]

theorem test_set (vector : BitVector) (index query : Nat) :
    (vector.set index).test query =
      (vector.test query || decide (query = index ∧ index < vector.size)) := by
  simp only [set, test, size, getD_set]
  split_ifs with hit
  · simp [hit]
  · simp [hit]

theorem test_reset (vector : BitVector) (index query : Nat) :
    (vector.reset index).test query = (vector.test query && decide (query ≠ index)) := by
  simp only [reset, test, getD_set]
  split_ifs with hit
  · simp [hit.1]
  · by_cases same : query = index
    · simp [same, Nat.le_of_not_lt fun bound => hit ⟨same, bound⟩]
    · simp [same]

theorem same_iff (left right : BitVector) :
    left.same right = true ↔ ∀ index, left.test index = right.test index := by
  simp only [same, List.all_eq_true, List.mem_range, beq_iff_eq]
  constructor
  · intro equal index
    by_cases bound : index < max left.size right.size
    · exact equal index bound
    · rw [test_eq_false_of_size_le left (by omega),
        test_eq_false_of_size_le right (by omega)]
  · intro equal index _
    exact equal index

def genKill (kill gen input : BitVector) : BitVector := (kill.flip.and input).or gen

@[simp] theorem size_genKill (kill gen input : BitVector) :
    (genKill kill gen input).size = max kill.size gen.size := by
  simp [genKill]

theorem test_genKill (kill gen input : BitVector) (index : Nat) :
    (genKill kill gen input).test index = true ↔ gen.test index = true ∨
      index < kill.size ∧ kill.test index = false ∧ input.test index = true := by
  by_cases bound : index < kill.size
  · simp [genKill, test_flip bound, bound, or_comm]
  · simp [genKill, test_eq_false_of_size_le kill.flip (by simpa using bound), bound]

theorem ext_test {left right : BitVector} (size : left.size = right.size)
    (bits : ∀ index, left.test index = right.test index) : left = right := by
  obtain ⟨left⟩ := left
  obtain ⟨right⟩ := right
  refine congrArg BitVector.mk (List.ext_getElem size fun index inLeft inRight => ?_)
  simpa [test, List.getD_eq_getElem?_getD, inLeft, inRight] using bits index

theorem genKill_set {kill gen : BitVector} (same : gen.size = kill.size) (input : BitVector)
    (index : Nat) : genKill kill (gen.set index) input = (genKill kill gen input).set index := by
  refine ext_test (by simp) fun query => Bool.eq_iff_iff.mpr ?_
  rw [test_genKill, test_set, test_set, Bool.or_eq_true, Bool.or_eq_true, test_genKill]
  simp only [size_genKill, same, max_self]
  tauto

theorem genKill_reset (kill gen input : BitVector) (index : Nat) :
    genKill (kill.set index) (gen.reset index) input = (genKill kill gen input).reset index := by
  refine ext_test (by simp) fun query => Bool.eq_iff_iff.mpr ?_
  rw [test_genKill, test_reset, test_reset, test_set, Bool.and_eq_true, Bool.and_eq_true,
    test_genKill, Bool.or_eq_false_iff]
  by_cases hit : query = index
  · subst hit
    simp only [size_set, ne_eq, true_and, decide_eq_false_iff_not, decide_eq_true_eq]
    tauto
  · simp [hit]

theorem genKill_none {size : Nat} {input : BitVector} (full : input.size = size) :
    genKill (ofSize size false) (ofSize size false) input = input := by
  refine ext_test (by simp [full]) fun query => Bool.eq_iff_iff.mpr ?_
  rw [test_genKill]
  simp only [test_ofSize, Bool.and_false, Bool.false_eq_true, false_or, true_and, size_ofSize]
  exact and_iff_right_of_imp fun found => full ▸ lt_size_of_test found

section Checked

def readAt (vector : BitVector) (index : Nat) : Option Bool := vector.bits[index]?

def setAt (vector : BitVector) (index : Nat) : Option BitVector :=
  if index < vector.size then some (vector.set index) else none

def resetAt (vector : BitVector) (index : Nat) : Option BitVector :=
  if index < vector.size then some (vector.reset index) else none

variable {vector : BitVector} {index : Nat}

theorem readAt_of_lt (bound : index < vector.size) :
    vector.readAt index = some (vector.test index) := by
  simp only [size] at bound
  simp [readAt, test, List.getD_eq_getElem?_getD, bound]

theorem readAt_of_le (beyond : vector.size ≤ index) : vector.readAt index = none := by
  simpa [readAt, size] using beyond

theorem setAt_of_lt (bound : index < vector.size) : vector.setAt index = some (vector.set index) :=
  if_pos bound

theorem resetAt_of_lt (bound : index < vector.size) :
    vector.resetAt index = some (vector.reset index) :=
  if_pos bound

end Checked

def Subset (left right : BitVector) : Prop :=
  ∀ index, left.test index = true → right.test index = true

theorem Subset.refl (vector : BitVector) : Subset vector vector := fun _ found => found

theorem Subset.trans {first second third : BitVector} (left : Subset first second)
    (right : Subset second third) : Subset first third :=
  fun index found => right index (left index found)

end BitVector
