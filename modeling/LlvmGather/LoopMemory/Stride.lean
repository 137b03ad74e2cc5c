import Mathlib.Tactic

/-!
The cost model of `LoopMemoryAnalysis`: the constants of an access function are collected
from its add-recurrences, and the last two of them decide whether the access goes along the
rows or down the columns.
-/

namespace LlvmGather

inductive NAryKind
  | add | mul | umax | smax
deriving DecidableEq, Repr

inductive CastKind
  | truncate | zeroExtend | signExtend
deriving DecidableEq, Repr

/-- A scalar-evolution expression of some width. An add-recurrence has a start and at
least one step; what a cast is applied to has another width and is never looked at. -/
inductive SCEV (width : Nat)
  | constant (value : BitVec width)
  | addRec (start step : SCEV width) (further : List (SCEV width))
  | nAry (kind : NAryKind) (operands : List (SCEV width))
  | udiv (lhs rhs : SCEV width)
  | cast (kind : CastKind)
  | unknown (value : Nat)
  | couldNotCompute

namespace SCEV

variable {width : Nat}

mutual

/-- One round of the loop of `parseExpression`. Whatever is not a constant is taken for an
add-recurrence; for another expression the cast is undefined. -/
def parseOperand : SCEV width → List (BitVec width) → Option (List (BitVec width))
  | .constant value, constants => some (constants ++ [value])
  | .addRec start step further, constants => do
      let constants ← parseOperand start constants
      let constants ← parseOperand step constants
      parseOperands further constants
  | _, _ => none

def parseOperands : List (SCEV width) → List (BitVec width) → Option (List (BitVec width))
  | [], constants => some constants
  | operand :: rest, constants => do
      let constants ← parseOperand operand constants
      parseOperands rest constants

end

def parseExpression (start step : SCEV width) (further : List (SCEV width))
    (constants : List (BitVec width)) : Option (List (BitVec width)) :=
  parseOperands (start :: step :: further) constants

end SCEV

inductive AccessKind
  | regular
  | columnar
deriving DecidableEq, Repr

/-- The decision of `runOnFunction` for the add-recurrence of an access; `none` where
`back` is called on an empty vector. -/
def classifyAccess {width : Nat} (start step : SCEV width) (further : List (SCEV width)) :
    Option AccessKind := do
  let constants ← SCEV.parseExpression start step further []
  let last ← constants.getLast?
  let penultimate ← constants.dropLast.getLast?
  return if last.sle penultimate then .regular else .columnar

namespace SCEV

variable {width : Nat}

mutual

def recurrent : SCEV width → Bool
  | .constant _ => true
  | .addRec start step further => recurrent start && recurrent step && allRecurrent further
  | _ => false

def allRecurrent : List (SCEV width) → Bool
  | [] => true
  | operand :: rest => recurrent operand && allRecurrent rest

end

mutual

def leaves : SCEV width → List (BitVec width)
  | .constant value => [value]
  | .addRec start step further => leaves start ++ leaves step ++ allLeaves further
  | _ => []

def allLeaves : List (SCEV width) → List (BitVec width)
  | [] => []
  | operand :: rest => leaves operand ++ allLeaves rest

end

mutual

theorem parseOperand_eq : ∀ (operand : SCEV width) (constants : List (BitVec width)),
    parseOperand operand constants =
      if operand.recurrent then some (constants ++ operand.leaves) else none
  | .constant value, constants => by simp [parseOperand, recurrent, leaves]
  | .addRec start step further, constants => by
      simp only [parseOperand, recurrent, leaves, parseOperand_eq start, parseOperand_eq step,
        parseOperands_eq further]
      by_cases first : start.recurrent = true
      · by_cases second : step.recurrent = true
        · simp [first, second]
        · simp [first, second]
      · simp [first]
  | .nAry _ _, _ => by simp [parseOperand, recurrent]
  | .udiv _ _, _ => by simp [parseOperand, recurrent]
  | .cast _, _ => by simp [parseOperand, recurrent]
  | .unknown _, _ => by simp [parseOperand, recurrent]
  | .couldNotCompute, _ => by simp [parseOperand, recurrent]

theorem parseOperands_eq : ∀ (operands : List (SCEV width)) (constants : List (BitVec width)),
    parseOperands operands constants =
      if allRecurrent operands then some (constants ++ allLeaves operands) else none
  | [], constants => by simp [parseOperands, allRecurrent, allLeaves]
  | operand :: rest, constants => by
      simp only [parseOperands, allRecurrent, allLeaves, parseOperand_eq operand,
        parseOperands_eq rest]
      by_cases first : operand.recurrent = true
      · simp [first]
      · simp [first]

end

theorem leaves_ne_nil : ∀ {operand : SCEV width}, operand.recurrent = true → operand.leaves ≠ []
  | .constant value, _ => by simp [leaves]
  | .addRec start step further, parts => by
      simp only [recurrent, Bool.and_eq_true] at parts
      have first := leaves_ne_nil parts.1.1
      simp [leaves, first]

theorem length_allLeaves {start step : SCEV width} {further : List (SCEV width)}
    (parts : allRecurrent (start :: step :: further) = true) :
    2 ≤ (allLeaves (start :: step :: further)).length := by
  simp only [allRecurrent, Bool.and_eq_true] at parts
  have first := List.length_pos_iff.mpr (leaves_ne_nil parts.1)
  have second := List.length_pos_iff.mpr (leaves_ne_nil parts.2.1)
  simp only [allLeaves, List.length_append]
  omega

/-- The extraction stays within add-recurrences, and leaves the two constants that the
caller takes, exactly for the recurrences built of constants and recurrences. -/
theorem parseExpression_defined_iff (start step : SCEV width) (further : List (SCEV width)) :
    (∃ constants, parseExpression start step further [] = some constants ∧
      2 ≤ constants.length) ↔ (SCEV.addRec start step further).recurrent = true := by
  have parts : (SCEV.addRec start step further).recurrent =
      allRecurrent (start :: step :: further) := by
    simp only [recurrent, allRecurrent, Bool.and_assoc]
  rw [parts, parseExpression, parseOperands_eq, List.nil_append]
  constructor
  · rintro ⟨constants, parsed, -⟩
    by_contra other
    rw [if_neg other] at parsed
    cases parsed
  · intro whole
    exact ⟨_, if_pos whole, length_allLeaves whole⟩

/-- The recurrence `{{0,+,(4 * %m)},+,4}` of a row-major access with a variable row length. -/
theorem parseExpression_defined_fails :
    parseExpression (.addRec (.constant 0) (.nAry .mul [.constant 4, .unknown 0]) [])
      (.constant (4 : BitVec 64)) [] [] = none := by
  rfl

end SCEV

/-- `ScalarEvolution` takes a recurrence with the step 0 for its start. -/
def getAddRecExpr {width : Nat} (start : SCEV width) (stride : BitVec width) : SCEV width :=
  if stride = 0 then start else .addRec start (.constant stride) []

/-- The access function of a nest of loops, the outermost first: an offset, and a stride
for each loop. -/
def affineAccess {width : Nat} (offset : BitVec width) (strides : List (BitVec width)) :
    SCEV width :=
  strides.foldl getAddRecExpr (.constant offset)

/-- The decision of `runOnFunction` for an access function; it has none for an access that
is no add-recurrence. -/
def classifyFunction {width : Nat} : SCEV width → Option (Option AccessKind)
  | .addRec start step further => (classifyAccess start step further).map some
  | _ => some none

section Affine

variable {width : Nat}

def classifyNest (offset : BitVec width) (strides : List (BitVec width)) :
    Option (Option AccessKind) :=
  classifyFunction (affineAccess offset strides)

def moving (strides : List (BitVec width)) : List (BitVec width) := strides.filter (· ≠ 0)

theorem affineAccess_snoc (offset : BitVec width) (outer : List (BitVec width))
    (inner : BitVec width) :
    affineAccess offset (outer ++ [inner]) = getAddRecExpr (affineAccess offset outer) inner := by
  rw [affineAccess, List.foldl_append]
  rfl

theorem moving_snoc (outer : List (BitVec width)) (inner : BitVec width) :
    moving (outer ++ [inner]) = if inner = 0 then moving outer else moving outer ++ [inner] := by
  rw [moving, List.filter_append]
  by_cases still : inner = 0
  · rw [if_pos still, List.filter_cons_of_neg (by simpa using still)]
    exact List.append_nil _
  · rw [if_neg still, List.filter_cons_of_pos (by simpa using still)]
    rfl

theorem affineAccess_parts (offset : BitVec width) (strides : List (BitVec width)) :
    (affineAccess offset strides).recurrent = true ∧
      (affineAccess offset strides).leaves = offset :: moving strides := by
  induction strides using List.reverseRecOn with
  | nil => exact ⟨rfl, rfl⟩
  | append_singleton outer inner ih =>
      rw [affineAccess_snoc, getAddRecExpr, moving_snoc]
      by_cases still : inner = 0
      · rw [if_pos still, if_pos still]
        exact ih
      · rw [if_neg still, if_neg still]
        simp [SCEV.recurrent, SCEV.leaves, SCEV.allRecurrent, SCEV.allLeaves, ih]

theorem classifyAccess_affine (offset : BitVec width) (outer : List (BitVec width))
    (inner : BitVec width) :
    classifyAccess (affineAccess offset outer) (.constant inner) [] =
      some (if inner.sle ((moving outer).getLastD offset) then .regular else .columnar) := by
  obtain ⟨parts, constants⟩ := affineAccess_parts offset outer
  have parsed : SCEV.parseExpression (affineAccess offset outer) (.constant inner) [] [] =
      some ((offset :: moving outer) ++ [inner]) := by
    rw [SCEV.parseExpression, SCEV.parseOperands_eq]
    simp [SCEV.allRecurrent, SCEV.allLeaves, SCEV.recurrent, SCEV.leaves, parts, constants]
  rw [classifyAccess, parsed]
  simp only [Option.bind_eq_bind, Option.bind_some, List.getLast?_concat, List.dropLast_concat,
    List.getLast?_cons, List.getLastD_eq_getLast?]
  rfl

theorem classifyNest_eq (offset : BitVec width) (strides : List (BitVec width)) :
    (moving strides = [] ∧ classifyNest offset strides = some none) ∨
      ∃ outer inner, moving strides = outer ++ [inner] ∧
        classifyNest offset strides =
          some (some (if inner.sle (outer.getLastD offset) then .regular else .columnar)) := by
  induction strides using List.reverseRecOn with
  | nil => exact Or.inl ⟨rfl, rfl⟩
  | append_singleton outer inner ih =>
      rw [classifyNest, affineAccess_snoc, getAddRecExpr, moving_snoc]
      by_cases still : inner = 0
      · rw [if_pos still, if_pos still]
        exact ih
      · rw [if_neg still, if_neg still]
        refine Or.inr ⟨moving outer, inner, rfl, ?_⟩
        rw [classifyFunction, classifyAccess_affine]
        rfl

theorem sle_constant_iff (stride : BitVec width) :
    (∀ first second : BitVec width, stride.sle first = stride.sle second) ↔
      stride = BitVec.intMin width := by
  constructor
  · intro same
    have below : stride.sle (BitVec.intMin width) = true := by
      rw [same _ stride]
      simp [BitVec.sle]
    rw [BitVec.sle_eq_decide, decide_eq_true_eq] at below
    exact BitVec.eq_of_toInt_eq (le_antisymm below (BitVec.toInt_intMin_le stride))
  · rintro rfl first second
    rw [BitVec.intMin_sle, BitVec.intMin_sle]

/-- The classification depends on the offset exactly where the access moves in one loop of
the nest only, unless it moves there by the least number, which is below every offset. -/
theorem classifyNest_offset_iff (strides : List (BitVec width)) :
    (∀ first second : BitVec width, classifyNest first strides = classifyNest second strides) ↔
      ∀ stride, moving strides = [stride] → stride = BitVec.intMin width := by
  rcases List.eq_nil_or_concat (moving strides) with none | ⟨outer, inner, split⟩
  · have decides (offset : BitVec width) : classifyNest offset strides = some Option.none := by
      rcases classifyNest_eq offset strides with ⟨-, still⟩ | ⟨outer, inner, split, -⟩
      · exact still
      · simp [none] at split
    simp [decides, none]
  · rw [List.concat_eq_append] at split
    have decides (offset : BitVec width) : classifyNest offset strides =
        some (some (if inner.sle (outer.getLastD offset) then .regular else .columnar)) := by
      rcases classifyNest_eq offset strides with ⟨none, -⟩ | ⟨others, last, same, decided⟩
      · simp [none] at split
      · obtain ⟨rfl, final⟩ := List.append_inj' (same.symm.trans split) rfl
        rw [← List.singleton_inj.mp final]
        exact decided
    simp only [decides, split, Option.some_inj]
    rcases List.eq_nil_or_concat outer with rfl | ⟨rest, last, rfl⟩
    · simp only [List.nil_append, List.cons.injEq, and_true, forall_eq', ← sle_constant_iff]
      refine forall_congr' fun first => forall_congr' fun second => ?_
      simp only [List.getLastD_nil]
      by_cases below : inner.sle first = true <;> by_cases under : inner.sle second = true <;>
        simp [below, under]
    · refine iff_of_true (fun first second => by simp) fun stride alone => ?_
      have length := congrArg List.length alone
      simp at length

/-- In a loop over words, `a[i]` and `a[i + 2]`; in a loop around another, `keys[i].a` and
`keys[i + 1].a` for keys of three bytes. -/
theorem classifyNest_offset_fails :
    (classifyNest (0 : BitVec 64) [4] = some (some .columnar) ∧
      classifyNest (8 : BitVec 64) [4] = some (some .regular)) ∧
    classifyNest (0 : BitVec 64) [3, 0] = some (some .columnar) ∧
      classifyNest (3 : BitVec 64) [3, 0] = some (some .regular) := by
  decide

end Affine

end LlvmGather
