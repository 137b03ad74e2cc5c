import LlvmGather.LocalOpts.Becoming
import LlvmGather.LocalOpts.Preservation

/-!
Blocks in which foldings alone lead to a division that overflows on the host. On integers of
at most 64 bits an identity gives what folding gives, so that whatever is replaced first the
division keeps operands that fold to the same two numbers.
-/

namespace LlvmGather

variable {constants : Constants} {host : Host}

/-- The value is a constant, or an operator whose operands fold to constants that can be
folded. -/
inductive FoldsTo (constants : Constants) (host : Host) (insts : List Inst) : Value → APInt → Prop
  | constant (number : APInt) : FoldsTo constants host insts (constants.ofInt number) number
  | operator {inst : Inst} {op : BinaryOps} {val1 val2 : Value} {ci1 ci2 number : APInt} :
      inst ∈ insts → inst.shape = .binary op val1 val2 → FoldsTo constants host insts val1 ci1 →
      FoldsTo constants host insts val2 ci2 → host.fold op ci1 ci2 = .ok (some number) →
      FoldsTo constants host insts (.inst inst.id) number

/-- A division whose operands fold to numbers that read as the least one and -1. -/
def MustStop (constants : Constants) (host : Host) (insts : List Inst) : Prop :=
  ∃ inst ∈ insts, ∃ op val1 val2 ci1 ci2, inst.shape = .binary op val1 val2 ∧
    (op = .UDiv ∨ op = .SDiv) ∧ FoldsTo constants host insts val1 ci1 ∧
    FoldsTo constants host insts val2 ci2 ∧
    ci1.value.signExtend 64 = BitVec.intMin 64 ∧ ci2.value.signExtend 64 = -1

/-- The integers that the operators of the block work on have at most 64 bits, and an
operator has the type of its operands. -/
structure NarrowTyped (constants : Constants) (width : Value → Option Nat) (insts : List Inst) :
    Prop extends WellTyped constants width insts where
  operator : ∀ inst ∈ insts, ∀ op val1 val2 bits, inst.shape = .binary op val1 val2 →
    width val1 = some bits ∨ width val2 = some bits →
    width (.inst inst.id) = some bits ∧ bits ≤ 64

section Arithmetic

variable {op : BinaryOps} {width : Nat} {left right : BitVec width} {simplified : Simplified}
  {number : APInt} (fits : width ≤ 64)
include fits

theorem fold_division_some (division : op = .UDiv ∨ op = .SDiv)
    (folded : host.fold op ⟨width, left⟩ ⟨width, right⟩ = .ok (some number)) :
    right ≠ 0 ∧ number = ⟨width, BitVec.ofInt width (left.toInt.tdiv right.toInt)⟩ := by
  rw [fold_division host fits left right division] at folded
  split at folded
  · simp at folded
  · next nonzero =>
      split at folded
      · simp at folded
      · exact ⟨nonzero, by simpa using folded.symm⟩

omit fits in
theorem ofInt_tdiv_one (word : BitVec width) :
    BitVec.ofInt width (word.toInt.tdiv (1 : BitVec width).toInt) = word := by
  by_cases wide : 1 < width
  · rw [BitVec.ofNat_eq_ofNat, BitVec.toInt_one wide, Int.tdiv_one, BitVec.ofInt_toInt]
  · have small : width = 0 ∨ width = 1 := by omega
    rcases small with rfl | rfl <;> revert word <;> decide

theorem Identity.fold (holds : Identity left right op simplified)
    (folded : host.fold op ⟨width, left⟩ ⟨width, right⟩ = .ok (some number)) :
    number = ⟨width, simplified.bits left right⟩ := by
  have quotient : op = .UDiv ∨ op = .SDiv → right ≠ 0 ∧
      number = ⟨width, BitVec.ofInt width (left.toInt.tdiv right.toInt)⟩ :=
    fun division => fold_division_some fits division folded
  cases holds
  case zeroAdd zero | addZero zero =>
    rw [Host.fold, combine_of_le host fits, Truncation.setWidth_add fits] at folded
    simp [Simplified.bits, ← Option.some.inj (Except.ok.inj folded), zero]
  case subZero same | subSelf same =>
    rw [Host.fold, combine_of_le host fits, Truncation.setWidth_sub fits] at folded
    simp [Simplified.bits, ← Option.some.inj (Except.ok.inj folded), same]
  case mulOne one | oneMul one =>
    rw [Host.fold, combine_of_le host fits, Truncation.setWidth_mul fits] at folded
    simp [Simplified.bits, ← Option.some.inj (Except.ok.inj folded), one]
  case mulZero zero =>
    rw [Host.fold, combine_of_le host fits, Truncation.setWidth_mul fits] at folded
    rcases zero with zero | zero <;>
      simp [Simplified.bits, ← Option.some.inj (Except.ok.inj folded), zero]
  case udivOne one | sdivOne one =>
    obtain ⟨-, rfl⟩ := quotient (by simp)
    rw [one, ofInt_tdiv_one, Simplified.bits]
  case zeroUdiv zero | zeroSdiv zero =>
    obtain ⟨-, rfl⟩ := quotient (by simp)
    simp [zero, Simplified.bits]
  case udivSelf same | sdivSelf same =>
    obtain ⟨nonzero, rfl⟩ := quotient (by simp)
    have positive : right.toInt ≠ 0 := by simpa [← BitVec.toInt_inj] using nonzero
    rw [same, Int.tdiv_self positive, Simplified.bits]
    simp
  all_goals simp [Host.fold] at folded

theorem nonzero_of_minusOne (minusOne : right.signExtend 64 = -1) : right ≠ 0 := by
  intro zero
  rw [(signExtend_eq_zero_iff fits right).mpr zero] at minusOne
  simp at minusOne

omit fits in
theorem fold_overflow {ci1 ci2 : APInt} (narrow : ci1.width ≤ 64) (same : ci2.width = ci1.width)
    (division : op = .UDiv ∨ op = .SDiv) (least : ci1.value.signExtend 64 = BitVec.intMin 64)
    (minusOne : ci2.value.signExtend 64 = -1) :
    host.fold op ci1 ci2 = .error .divisionOverflow := by
  obtain ⟨bits, left⟩ := ci1
  obtain ⟨_, right⟩ := ci2
  obtain rfl := same
  have nonzero := nonzero_of_minusOne narrow minusOne
  rw [fold_division host narrow left right division, if_neg nonzero,
    if_pos ((signExtend_overflow_iff narrow left right nonzero).mp ⟨least, minusOne⟩)]

theorem Identity.not_overflow (division : op = .UDiv ∨ op = .SDiv)
    (least : left.signExtend 64 = BitVec.intMin 64) (minusOne : right.signExtend 64 = -1) :
    ¬ Identity left right op simplified := by
  have nonzero := nonzero_of_minusOne fits minusOne
  obtain ⟨rfl, rfl, rfl⟩ := (signExtend_overflow_iff fits left right nonzero).mp ⟨least, minusOne⟩
  intro holds
  rcases division with rfl | rfl <;> cases holds <;> next impossible => exact absurd impossible (by decide)

end Arithmetic

section Folding

variable {insts : List Inst} {value : Value} {number other : APInt}

theorem FoldsTo.of_constant (folds : FoldsTo constants host insts value number)
    (found : constants.constantInt value = some other) : number = other := by
  cases folds with
  | constant => simpa using found
  | operator => simp at found

theorem FoldsTo.unique (ids : (insts.map Inst.id).Nodup)
    (folds : FoldsTo constants host insts value number)
    (foldsToo : FoldsTo constants host insts value other) : number = other := by
  induction folds generalizing other with
  | constant number => exact (foldsToo.of_constant (constants.constantInt_ofInt number)).symm
  | @operator inst op val1 val2 ci1 ci2 number member shape _ _ folded ih1 ih2 =>
      generalize position : Value.inst inst.id = place at foldsToo
      cases foldsToo with
      | constant => exact absurd position.symm (constants.ofInt_ne_inst _ _)
      | @operator twin _ _ _ _ _ _ twinMember twinShape first second twinFolded =>
          obtain rfl : inst = twin :=
            List.inj_on_of_nodup_map ids member twinMember (Value.inst.inj position)
          obtain ⟨rfl, rfl, rfl⟩ := Shape.binary.inj (shape.symm.trans twinShape)
          rw [← ih1 first, ← ih2 second, folded] at twinFolded
          simpa using twinFolded

variable {width : Value → Option Nat} {inst : Inst} {op : BinaryOps} {val1 val2 : Value}
  {ci1 ci2 : APInt}

theorem NarrowTyped.width_eq (typed : NarrowTyped constants width insts)
    (folds : FoldsTo constants host insts value number) : width value = some number.width := by
  induction folds with
  | constant number => exact typed.constant number
  | operator member shape _ _ folded ih _ =>
      rw [fold_width host folded]
      exact (typed.operator _ member _ _ _ _ shape (Or.inl ih)).1

theorem FoldsTo.folding (shape : inst.shape = .binary op val1 val2)
    (first : FoldsTo constants host insts val1 ci1) (second : FoldsTo constants host insts val2 ci2)
    (applies : foldConstants constants host inst = .ok (some value)) :
    ∃ number, host.fold op ci1 ci2 = .ok (some number) ∧ value = constants.ofInt number := by
  rcases foldConstants_cases constants host inst with
    none | ⟨opToo, _, _, _, _, shapeToo, found1, found2, folded⟩
  · simp [none] at applies
  · obtain ⟨rfl, rfl, rfl⟩ := Shape.binary.inj (shape.symm.trans shapeToo)
    rw [folded, ← first.of_constant found1, ← second.of_constant found2] at applies
    cases result : host.fold op ci1 ci2 with
    | error => simp [result, Except.map] at applies
    | ok found =>
        rw [result] at applies
        obtain ⟨number, rfl, rfl⟩ := Option.map_eq_some_iff.mp (Except.ok.inj applies)
        exact ⟨number, rfl, rfl⟩

section Operator

variable (typed : NarrowTyped constants width insts) (member : inst ∈ insts)
  (shape : inst.shape = .binary op val1 val2) (first : FoldsTo constants host insts val1 ci1)
  (second : FoldsTo constants host insts val2 ci2)
include typed member shape first second

theorem NarrowTyped.operand_widths :
    ci1.width ≤ 64 ∧ ci2.width = ci1.width ∧ width (.inst inst.id) = some ci1.width := by
  obtain ⟨declared, narrow⟩ := typed.operator inst member op val1 val2 _ shape
    (Or.inl (typed.width_eq first))
  obtain ⟨-, type2⟩ := typed.operands inst member op val1 val2 _ shape declared
  rw [typed.width_eq second] at type2
  exact ⟨narrow, Option.some.inj type2, declared⟩

theorem FoldsTo.identity (ids : (insts.map Inst.id).Nodup)
    (applies : algebraicIdentity constants width inst = some value) :
    ∃ (bits : Nat) (left right : BitVec bits) (simplified : Simplified), bits ≤ 64 ∧
      ci1 = ⟨bits, left⟩ ∧ ci2 = ⟨bits, right⟩ ∧ Identity left right op simplified ∧
      simplified.value constants bits val1 val2 = value := by
  obtain ⟨narrow, same, declared⟩ := typed.operand_widths member shape first second
  obtain ⟨opToo, left, right, itype, simplified, shapeToo, type, found, replaces⟩ :=
    algebraicIdentity_eq_some applies
  obtain ⟨rfl, rfl, rfl⟩ := Shape.binary.inj (shape.symm.trans shapeToo)
  obtain rfl := Option.some.inj (declared.symm.trans type)
  obtain ⟨bits, left⟩ := ci1
  obtain ⟨bitsToo, right⟩ := ci2
  obtain rfl : bitsToo = bits := same
  refine ⟨bitsToo, left, right, simplified, narrow, rfl, rfl, ?_, replaces⟩
  refine identity_cases (fun _ found => (first.of_constant found).symm)
    (fun _ found => (second.of_constant found).symm) ?_ found
  intro equal
  obtain rfl := of_decide_eq_true equal
  simpa using first.unique ids second

theorem FoldsTo.replacement (ids : (insts.map Inst.id).Nodup)
    (folded : host.fold op ci1 ci2 = .ok (some number))
    (replaces : Replacement constants host width inst value) :
    (value = val1 ∧ number = ci1) ∨ (value = val2 ∧ number = ci2) ∨
      value = constants.ofInt number := by
  rcases replaces with applies | applies
  · obtain ⟨bits, left, right, simplified, narrow, rfl, rfl, holds, rfl⟩ :=
      first.identity typed member shape second ids applies
    obtain rfl := holds.fold narrow folded
    cases simplified with
    | val1 => exact Or.inl ⟨rfl, rfl⟩
    | val2 => exact Or.inr (Or.inl ⟨rfl, rfl⟩)
    | zero | one => exact Or.inr (Or.inr rfl)
  · obtain ⟨result, same, rfl⟩ := first.folding shape second applies
    obtain rfl : result = number := by simpa [same] using folded
    exact Or.inr (Or.inr rfl)

theorem FoldsTo.not_replaced (ids : (insts.map Inst.id).Nodup) (division : op = .UDiv ∨ op = .SDiv)
    (least : ci1.value.signExtend 64 = BitVec.intMin 64) (minusOne : ci2.value.signExtend 64 = -1) :
    ¬ Replacement constants host width inst value := by
  rintro (applies | applies)
  · obtain ⟨bits, left, right, simplified, narrow, rfl, rfl, holds, rfl⟩ :=
      first.identity typed member shape second ids applies
    exact holds.not_overflow narrow division least minusOne
  · obtain ⟨number, folded, -⟩ := first.folding shape second applies
    obtain ⟨narrow, same, -⟩ := typed.operand_widths member shape first second
    rw [fold_overflow narrow same division least minusOne] at folded
    simp at folded

end Operator

section Step

variable {F : Func} {block : Nat} (typed : NarrowTyped constants width (F.insts block))
  (ids : ((F.insts block).map Inst.id).Nodup) (member : inst ∈ F.insts block)
  (replaces : Replacement constants host width inst value)
include typed ids member replaces

theorem FoldsTo.replace {start : Value} (folds : FoldsTo constants host (F.insts block) start number) :
    FoldsTo constants host ((F.replaceInstWithValue inst value).insts block)
      (start.redirect inst.id value) number := by
  induction folds with
  | constant number =>
      rw [Value.redirect_of_ne value (constants.ofInt_ne_inst _ _)]
      exact .constant number
  | @operator user op val1 val2 ci1 ci2 number inside shape first second folded ih1 ih2 =>
      by_cases here : user.id = inst.id
      · obtain rfl := List.inj_on_of_nodup_map ids inside member here
        rw [Value.redirect_self]
        rcases first.replacement typed member shape second ids folded replaces with
          ⟨rfl, rfl⟩ | ⟨rfl, rfl⟩ | rfl
        · rwa [Value.redirect_idem] at ih1
        · rwa [Value.redirect_idem] at ih2
        · exact .constant number
      · rw [Value.redirect_of_ne value (fun same => here (Value.inst.inj same))]
        have remains : user.redirect inst value ∈ (F.replaceInstWithValue inst value).insts block :=
          F.mem_replaceInstWithValue.mpr ⟨user, inside, here, rfl⟩
        simpa using FoldsTo.operator remains (Inst.redirect_binary shape) ih1 ih2 folded

theorem MustStop.replace (stops : MustStop constants host (F.insts block)) :
    MustStop constants host ((F.replaceInstWithValue inst value).insts block) := by
  obtain ⟨user, inside, op, val1, val2, ci1, ci2, shape, division, first, second, least, minusOne⟩ := stops
  have other : user.id ≠ inst.id := by
    intro here
    obtain rfl := List.inj_on_of_nodup_map ids inside member here
    exact first.not_replaced typed member shape second ids division least minusOne replaces
  exact ⟨user.redirect inst value, F.mem_replaceInstWithValue.mpr ⟨user, inside, other, rfl⟩, op,
    val1.redirect inst.id value, val2.redirect inst.id value, ci1, ci2, Inst.redirect_binary shape,
    division, first.replace typed ids member replaces, second.replace typed ids member replaces,
    least, minusOne⟩

end Step

theorem NarrowTyped.width_replacement (typed : NarrowTyped constants width insts)
    (member : inst ∈ insts) (replaces : Replacement constants host width inst value) :
    width value = width (.inst inst.id) := by
  rcases replaces with applies | applies
  · exact algebraicIdentity_width typed.toWellTyped member applies
  · rcases foldConstants_cases constants host inst with
      none | ⟨op, val1, val2, ci1, ci2, shape, found1, found2, -⟩
    · simp [none] at applies
    · have first : FoldsTo constants host insts val1 ci1 := by
        rw [constants.eq_ofInt found1]
        exact .constant ci1
      have second : FoldsTo constants host insts val2 ci2 := by
        rw [constants.eq_ofInt found2]
        exact .constant ci2
      obtain ⟨number, folded, rfl⟩ := first.folding shape second applies
      rw [typed.constant, fold_width host folded,
        (typed.operand_widths member shape first second).2.2]

theorem NarrowTyped.replace {F : Func} {block : Nat}
    (typed : NarrowTyped constants width (F.insts block))
    (same : width value = width (.inst inst.id)) :
    NarrowTyped constants width ((F.replaceInstWithValue inst value).insts block) := by
  refine ⟨typed.toWellTyped.replace same, ?_⟩
  intro user member op val1 val2 bits shape declared
  obtain ⟨origin, inside, -, rfl⟩ := F.mem_replaceInstWithValue.mp member
  obtain ⟨lhs, rhs, originShape, rfl, rfl⟩ := Inst.binary_of_redirect shape
  rw [width_redirect same, width_redirect same] at declared
  exact typed.operator origin inside _ _ _ _ originShape declared

end Folding

section Division

variable {width : Value → Option Nat} {insts : List Inst}

theorem NarrowTyped.single (typed : NarrowTyped constants width insts) {inst : Inst}
    (member : inst ∈ insts) {op : BinaryOps} {val1 val2 left right : Value}
    (shape : inst.shape = .binary op val1 val2) (first : width left = width val1)
    (second : width right = width val2) :
    NarrowTyped constants width [{ inst with shape := .binary op left right }] := by
  refine ⟨⟨typed.constant, ?_⟩, ?_⟩
  · intro user inside _ _ _ bits userShape declared
    obtain rfl := List.mem_singleton.mp inside
    obtain ⟨rfl, rfl, rfl⟩ := Shape.binary.inj userShape
    rw [first, second]
    exact typed.operands inst member _ _ _ bits shape declared
  · intro user inside _ _ _ bits userShape declared
    obtain rfl := List.mem_singleton.mp inside
    obtain ⟨rfl, rfl, rfl⟩ := Shape.binary.inj userShape
    rw [first, second] at declared
    exact typed.operator inst member _ _ _ bits shape declared

theorem Becomes.width_eq (typed : NarrowTyped constants width insts) {start final : Value}
    (becomes : Becomes constants host width insts start final) : width final = width start := by
  induction becomes with
  | refl => rfl
  | trans _ _ ih1 ih2 => rw [ih2, ih1]
  | replaced member shape _ _ replaces ih1 ih2 =>
      have derived := typed.single member shape ih1 ih2
      have same := derived.width_replacement List.mem_cons_self replaces
      exact same

end Division

end LlvmGather
