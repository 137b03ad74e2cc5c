import LlvmGather.Ir.Core
import LlvmGather.Library.Truncation

/-!
The integers of the intermediate representation: integer constants, which LLVM keeps
unique, and what the binary operators compute on integers of one width.
-/

namespace LlvmGather

structure APInt where
  width : Nat
  value : BitVec width
deriving DecidableEq, Repr

theorem APInt.ext_toNat {left right : APInt} (width : left.width = right.width)
    (bits : left.value.toNat = right.value.toNat) : left = right := by
  obtain ⟨leftWidth, leftValue⟩ := left
  obtain ⟨rightWidth, rightValue⟩ := right
  obtain rfl : leftWidth = rightWidth := width
  exact congrArg (APInt.mk leftWidth) (BitVec.eq_of_toNat_eq bits)

/-- The constants of an `LLVMContext`. There is one `ConstantInt` for each integer, so that
equal integer constants are equal values; the other constants are not integers. -/
structure Constants where
  asInt : Nat → Option APInt
  get : APInt → Nat
  asInt_get : ∀ number, asInt (get number) = some number
  get_of_asInt : ∀ {id number}, asInt id = some number → get number = id

namespace Constants

def standard : Constants where
  asInt id :=
    if id % 2 = 0 ∧ id ≠ 0 then some ⟨(id / 2).log2, BitVec.ofNat _ (id / 2)⟩ else none
  get number := 2 * (2 ^ number.width + number.value.toNat)
  asInt_get number := by
    have bound := number.value.isLt
    have positive := Nat.two_pow_pos number.width
    have width : (2 ^ number.width + number.value.toNat).log2 = number.width :=
      (Nat.log2_eq_iff (by omega)).mpr ⟨by omega, by rw [Nat.pow_succ]; omega⟩
    rw [if_pos ⟨by omega, by omega⟩, Nat.mul_div_cancel_left _ (by omega)]
    refine congrArg some (APInt.ext_toNat width ?_)
    rw [BitVec.toNat_ofNat, width, Nat.add_mod_left, Nat.mod_eq_of_lt bound]
  get_of_asInt := by
    intro id number found
    obtain ⟨⟨even, nonzero⟩, found⟩ := Option.ite_none_right_eq_some.mp found
    obtain rfl := Option.some.inj found
    obtain ⟨low, high⟩ := (Nat.log2_eq_iff (show id / 2 ≠ 0 by omega)).mp rfl
    rw [Nat.pow_succ] at high
    have bits : id / 2 % 2 ^ (id / 2).log2 = id / 2 - 2 ^ (id / 2).log2 := by
      rw [Nat.mod_eq_sub_mod low, Nat.mod_eq_of_lt (by omega)]
    simp only [BitVec.toNat_ofNat, bits]
    omega

variable (constants : Constants)

def constantInt : Value → Option APInt
  | .const id => constants.asInt id
  | _ => none

def classof (value : Value) : Bool := (constants.constantInt value).isSome

def ofInt (number : APInt) : Value := .const (constants.get number)

@[simp] theorem constantInt_inst (id : Nat) : constants.constantInt (.inst id) = none := rfl

@[simp] theorem constantInt_ofInt (number : APInt) :
    constants.constantInt (constants.ofInt number) = some number :=
  constants.asInt_get number

theorem ofInt_injective : Function.Injective constants.ofInt := by
  intro left right same
  have read := congrArg constants.constantInt same
  simpa using read

theorem ofInt_ne_inst (number : APInt) (id : Nat) : constants.ofInt number ≠ .inst id := by
  simp [ofInt]

theorem eq_ofInt {value : Value} {number : APInt}
    (found : constants.constantInt value = some number) : value = constants.ofInt number := by
  cases value with
  | const id => rw [ofInt, constants.get_of_asInt found]
  | inst id => simp [constantInt] at found
  | arg index => simp [constantInt] at found

end Constants

/-- What a shift by the width or more gives, which LLVM leaves open. -/
abbrev OverShift := BinaryOps → (width : Nat) → BitVec width → BitVec width → BitVec width

/-- The integer operators; there is no result where the behaviour is undefined. -/
def BinaryOps.apply (overShift : OverShift) (op : BinaryOps) {width : Nat}
    (left right : BitVec width) : Option (BitVec width) :=
  match op with
  | .Add => some (left + right)
  | .Sub => some (left - right)
  | .Mul => some (left * right)
  | .UDiv => if right = 0 then none else some (left / right)
  | .SDiv =>
      if right = 0 ∨ left = BitVec.intMin width ∧ right = -1 then none
      else some (left.sdiv right)
  | .URem => if right = 0 then none else some (left % right)
  | .SRem =>
      if right = 0 ∨ left = BitVec.intMin width ∧ right = -1 then none
      else some (left.srem right)
  | .Shl =>
      if right.toNat < width then some (left <<< right.toNat)
      else some (overShift .Shl width left right)
  | .LShr =>
      if right.toNat < width then some (left >>> right.toNat)
      else some (overShift .LShr width left right)
  | .AShr =>
      if right.toNat < width then some (left.sshiftRight right.toNat)
      else some (overShift .AShr width left right)
  | .And => some (left &&& right)
  | .Or => some (left ||| right)
  | .Xor => some (left ^^^ right)
  | .FAdd | .FSub | .FMul | .FDiv | .FRem => none

end LlvmGather
