import LlvmGather.Ir.Integer

/-!
The algebraic identities of `LocalOpts`. Which identity applies depends on the opcode, on
the operands that are integer constants and on whether the operands are the same value.
-/

namespace LlvmGather

inductive Simplified
  | val1
  | val2
  | zero
  | one
deriving DecidableEq, Repr

/-- The switch of `algebraic_optimizations`, on the integer constants among the operands
and on `val1 == val2`. -/
def identity (op : BinaryOps) (itype : Nat) (ci1 ci2 : Option APInt) (same : Bool) :
    Option Simplified :=
  let zero : APInt := ⟨itype, 0⟩
  let one : APInt := ⟨itype, 1⟩
  match op with
  | .Add =>
      match ci1, ci2 with
      | some ci, _ => if ci = zero then some .val2 else none -- 0 + x = x
      | none, some ci => if ci = zero then some .val1 else none -- x + 0 = x
      | none, none => none
  | .Sub =>
      match ci2 with
      | some ci => if ci = zero then some .val1 else none -- x - 0 = x
      | none => if same then some .zero else none -- x - x = 0
  | .Mul =>
      match ci2, ci1 with
      | some ci, _ => -- x * 1 = x, x * 0 = 0
          if ci = one then some .val1 else if ci = zero then some .zero else none
      | none, some ci => -- 1 * x = x, 0 * x = 0
          if ci = one then some .val2 else if ci = zero then some .zero else none
      | none, none => none
  | .UDiv | .SDiv =>
      match ci2, ci1 with
      | some ci, _ => if ci = one then some .val1 else none -- x / 1 = x
      | none, some ci => if ci = zero then some .zero else none -- 0 / x = 0
      | none, none => if same then some .one else none -- x / x = 1
  | .And =>
      match ci2, ci1 with
      | some ci, _ => if ci = zero then some .zero else none -- x && 0 = 0
      | none, some ci => if ci = zero then some .zero else none -- 0 && x = 0
      | none, none => none
  | .Or | .Xor =>
      match ci2, ci1 with
      | some ci, _ => if ci = zero then some .val1 else none -- x || 0 = x, x ^ 0 = x
      | none, some ci => if ci = zero then some .val2 else none -- 0 || x = x, 0 ^ x = x
      | none, none => none
  | _ => none

def Simplified.value (constants : Constants) (itype : Nat) (val1 val2 : Value) :
    Simplified → Value
  | .val1 => val1
  | .val2 => val2
  | .zero => constants.ofInt ⟨itype, 0⟩
  | .one => constants.ofInt ⟨itype, 1⟩

/-- What `algebraic_optimizations` puts in the place of an instruction. The width is that
of the integer type of each value; binary operators of other types are skipped. -/
def algebraicIdentity (constants : Constants) (width : Value → Option Nat) (inst : Inst) :
    Option Value :=
  match inst.shape with
  | .binary op val1 val2 =>
      match width (.inst inst.id) with
      | some itype =>
          (identity op itype (constants.constantInt val1) (constants.constantInt val2)
            (decide (val1 = val2))).map (Simplified.value constants itype val1 val2)
      | none => none
  | _ => none

theorem algebraicIdentity_eq_some {constants : Constants} {width : Value → Option Nat}
    {inst : Inst} {value : Value} (applies : algebraicIdentity constants width inst = some value) :
    ∃ op val1 val2 itype simplified, inst.shape = .binary op val1 val2 ∧
      width (.inst inst.id) = some itype ∧
      identity op itype (constants.constantInt val1) (constants.constantInt val2)
        (decide (val1 = val2)) = some simplified ∧
      simplified.value constants itype val1 val2 = value := by
  unfold algebraicIdentity at applies
  split at applies
  · next op val1 val2 shape =>
      split at applies
      · next itype declared =>
          obtain ⟨simplified, found, replacement⟩ := Option.map_eq_some_iff.mp applies
          exact ⟨op, val1, val2, itype, simplified, shape, declared, found, replacement⟩
      · simp at applies
  · simp at applies

def Simplified.bits {width : Nat} (left right : BitVec width) : Simplified → BitVec width
  | .val1 => left
  | .val2 => right
  | .zero => 0
  | .one => 1

inductive Identity {width : Nat} (left right : BitVec width) : BinaryOps → Simplified → Prop
  | zeroAdd : left = 0 → Identity left right .Add .val2
  | addZero : right = 0 → Identity left right .Add .val1
  | subZero : right = 0 → Identity left right .Sub .val1
  | subSelf : left = right → Identity left right .Sub .zero
  | mulOne : right = 1 → Identity left right .Mul .val1
  | oneMul : left = 1 → Identity left right .Mul .val2
  | mulZero : left = 0 ∨ right = 0 → Identity left right .Mul .zero
  | udivOne : right = 1 → Identity left right .UDiv .val1
  | zeroUdiv : left = 0 → Identity left right .UDiv .zero
  | udivSelf : left = right → Identity left right .UDiv .one
  | sdivOne : right = 1 → Identity left right .SDiv .val1
  | zeroSdiv : left = 0 → Identity left right .SDiv .zero
  | sdivSelf : left = right → Identity left right .SDiv .one
  | andZero : left = 0 ∨ right = 0 → Identity left right .And .zero
  | orZero : right = 0 → Identity left right .Or .val1
  | zeroOr : left = 0 → Identity left right .Or .val2
  | xorZero : right = 0 → Identity left right .Xor .val1
  | zeroXor : left = 0 → Identity left right .Xor .val2

theorem known_constant {width : Nat} {bits : BitVec width} {ci : Option APInt}
    (reading : ∀ number, ci = some number → number = ⟨width, bits⟩) :
    ci = none ∨ ci = some ⟨width, bits⟩ := by
  cases ci with
  | none => exact Or.inl rfl
  | some number => exact Or.inr (congrArg some (reading number rfl))

section Soundness

variable {op : BinaryOps} {width : Nat} {left right : BitVec width} {simplified : Simplified}

theorem identity_cases {ci1 ci2 : Option APInt} {same : Bool}
    (first : ∀ number, ci1 = some number → number = ⟨width, left⟩)
    (second : ∀ number, ci2 = some number → number = ⟨width, right⟩)
    (equal : same = true → left = right)
    (found : identity op width ci1 ci2 same = some simplified) :
    Identity left right op simplified := by
  rcases known_constant first with rfl | rfl <;> rcases known_constant second with rfl | rfl <;>
    cases op <;>
    simp only [identity, reduceCtorEq, APInt.mk.injEq, heq_eq_eq, true_and,
      Option.ite_none_right_eq_some, Option.some.injEq] at found
  all_goals first
    | (obtain ⟨condition, rfl⟩ := found; constructor; grind)
    | (split at found <;> grind [Identity])

theorem Identity.sound (holds : Identity left right op simplified) {overShift : OverShift}
    {result : BitVec width} (defined : op.apply overShift left right = some result) :
    simplified.bits left right = result := by
  cases holds <;>
    simp only [BinaryOps.apply, Option.some.injEq, Option.ite_none_left_eq_some, not_or] at defined
  case zeroAdd zero | addZero zero | subZero zero | orZero zero | zeroOr zero | xorZero zero
      | zeroXor zero =>
    simp [← defined, Simplified.bits, zero]
  case mulZero zero | andZero zero =>
    rcases zero with zero | zero <;> simp [← defined, Simplified.bits, zero]
  case mulOne one | oneMul one => simp [← defined, Simplified.bits, one]
  case subSelf same => simp [← defined, Simplified.bits, same]
  case udivOne one | sdivOne one => simp [← defined.2, Simplified.bits, one]
  case zeroUdiv zero | zeroSdiv zero => simp [← defined.2, Simplified.bits, zero]
  case udivSelf same =>
    have nonzero : right ≠ BitVec.ofNat width 0 := defined.1
    simp [← defined.2, Simplified.bits, same, nonzero]
  case sdivSelf same =>
    have nonzero : right ≠ BitVec.ofNat width 0 := defined.1.1
    simp [← defined.2, Simplified.bits, same, nonzero]

end Soundness

end LlvmGather
