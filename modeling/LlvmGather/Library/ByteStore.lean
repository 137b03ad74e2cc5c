import Mathlib.Logic.Function.Basic
import Mathlib.Tactic

/-!
Stores that map numbers to cells, with block copies in and out of them.
-/

namespace ByteStore

variable {B : Type*}

def read (store : Nat → B) (start size : Nat) : List B :=
  (List.range size).map fun index => store (start + index)

def write (store : Nat → B) (start : Nat) (data : List B) : Nat → B := fun index =>
  if start ≤ index then data.getD (index - start) (store index) else store index

@[simp] theorem length_read (store : Nat → B) (start size : Nat) :
    (read store start size).length = size := by
  simp [read]

theorem write_before (store : Nat → B) {start index : Nat} (data : List B) (before : index < start) :
    write store start data index = store index := by
  simp [write, Nat.not_le.mpr before]

theorem write_after (store : Nat → B) {start index : Nat} {data : List B}
    (after : start + data.length ≤ index) : write store start data index = store index := by
  have beyond : data.length ≤ index - start := by omega
  simp [write, List.getElem?_eq_none beyond]

theorem write_inside (store : Nat → B) (start : Nat) {data : List B} {index : Nat}
    (bound : index < data.length) : write store start data (start + index) = data[index] := by
  simp [write, bound]

theorem write_shift {first second : Nat → B} {shift start index : Nat} {data : List B}
    (same : index < start ∨ start + data.length ≤ index → first index = second (shift + index)) :
    write first start data index = write second (shift + start) data (shift + index) := by
  rcases Nat.lt_or_ge index start with before | reached
  · rw [write_before first data before, write_before second data (by omega), same (.inl before)]
  · rcases Nat.lt_or_ge index (start + data.length) with inside | after
    · have bound : index - start < data.length := by omega
      have shifted : shift + start ≤ shift + index := by omega
      simp [write, reached, Nat.add_sub_add_left, bound]
    · rw [write_after first after, write_after second (by omega), same (.inr after)]

theorem write_unchanged {store : Nat → B} {start : Nat} {data : List B}
    (same : ∀ index, ∀ bound : index < data.length, data[index] = store (start + index)) :
    write store start data = store := by
  funext index
  by_cases inside : start ≤ index ∧ index < start + data.length
  · have bound : index - start < data.length := by omega
    have back : start + (index - start) = index := by omega
    simp [write, inside.1, List.getElem?_eq_getElem bound, same _ bound, back]
  · rcases Nat.lt_or_ge index start with before | reached
    · exact write_before store data before
    · exact write_after store (by omega)

theorem write_cons (store : Nat → B) (start : Nat) (cell : B) (rest : List B) :
    write store start (cell :: rest) = write (Function.update store start cell) (start + 1) rest := by
  funext index
  rcases Nat.lt_trichotomy index start with before | rfl | after
  · rw [write_before store _ before, write_before _ _ (by omega), Function.update_of_ne (by omega)]
  · rw [write_before _ rest (Nat.lt_succ_self index), Function.update_self]
    simp [write]
  · obtain ⟨offset, rfl⟩ := Nat.exists_eq_add_of_lt after
    have place : start + offset + 1 - start = offset + 1 := by omega
    have later : start + offset + 1 - (start + 1) = offset := by omega
    have reached : start ≤ start + offset + 1 := by omega
    have beyond : start + 1 ≤ start + offset + 1 := by omega
    have other : start + offset + 1 ≠ start := by omega
    simp only [write, if_pos reached, if_pos beyond, place, later, List.getD_cons_succ,
      Function.update_of_ne other]

theorem getElem_read (store : Nat → B) (start : Nat) {size index : Nat}
    (bound : index < (read store start size).length) :
    (read store start size)[index] = store (start + index) := by
  simp [read]

theorem getElem?_read (store : Nat → B) (start : Nat) {size index : Nat} (inside : index < size) :
    (read store start size)[index]? = some (store (start + index)) := by
  simp [read, inside]

theorem read_write_self (store : Nat → B) (start : Nat) {size : Nat} {data : List B}
    (length : data.length = size) : read (write store start data) start size = data := by
  apply List.ext_getElem (by rw [length_read, length])
  intro index _ inside
  rw [getElem_read, write_inside store start inside]

theorem read_write_apart (store : Nat → B) {start size first : Nat} {data : List B}
    (apart : first + data.length ≤ start ∨ start + size ≤ first) :
    read (write store first data) start size = read store start size := by
  apply List.ext_getElem (by simp)
  intro index bound _
  rw [length_read] at bound
  rw [getElem_read, getElem_read]
  rcases apart with before | after
  · exact write_after store (by omega)
  · exact write_before store data (by omega)

theorem read_append (store : Nat → B) (start first second : Nat) :
    read store start (first + second) = read store start first ++ read store (start + first) second := by
  simp [read, List.range_add, Nat.add_assoc]

theorem take_read (store : Nat → B) (start : Nat) {size total : Nat} (within : size ≤ total) :
    (read store start total).take size = read store start size := by
  obtain ⟨rest, rfl⟩ := Nat.exists_eq_add_of_le within
  rw [read_append, List.take_left' (length_read store start size)]

theorem flatten_read (store : Nat → B) (start width : Nat) : ∀ count,
    ((List.range count).map fun index => read store (start + index * width) width).flatten =
      read store start (count * width) := by
  intro count
  induction count with
  | zero => simp [read]
  | succ count ih =>
      rw [List.range_succ, List.map_append, List.flatten_append, ih, Nat.succ_mul, read_append]
      simp

theorem slot_flatten {width : Nat} {blocks : List (List B)}
    (even : ∀ block ∈ blocks, block.length = width) {slot : Nat} (inside : slot < blocks.length) :
    (blocks.flatten.drop (slot * width)).take width = blocks[slot] := by
  induction blocks generalizing slot with
  | nil => simp at inside
  | cons block rest ih =>
      have length := even block List.mem_cons_self
      cases slot with
      | zero => simp [← length]
      | succ slot =>
          have later := ih (fun other member => even other (.tail _ member))
            (Nat.lt_of_succ_lt_succ inside)
          have beyond : (slot + 1) * width = block.length + slot * width := by
            rw [length, Nat.succ_mul, Nat.add_comm]
          rw [List.flatten_cons, beyond, List.drop_append, List.drop_of_length_le (by omega)]
          simpa using later

def splice (target : List B) (start : Nat) (source : List B) (first count : Nat) : List B :=
  target.take start ++ (source.drop first).take count ++ target.drop (start + count)

section Splice

variable {target source : List B} {start first count : Nat}
variable (room : start + count ≤ target.length) (supply : first + count ≤ source.length)
include room supply

theorem length_splice : (splice target start source first count).length = target.length := by
  simp only [splice, List.length_append, List.length_take, List.length_drop]
  omega

theorem getElem?_splice (index : Nat) :
    (splice target start source first count)[index]? =
      if start ≤ index ∧ index < start + count then source[first + (index - start)]?
      else target[index]? := by
  have front : (target.take start).length = start := by
    rw [List.length_take]
    omega
  have middle : ((source.drop first).take count).length = count := by
    rw [List.length_take, List.length_drop]
    omega
  rw [splice, List.append_assoc]
  rcases Nat.lt_or_ge index start with before | reached
  · rw [List.getElem?_append_left (by omega), List.getElem?_take_of_lt before, if_neg (by omega)]
  · rw [List.getElem?_append_right (by omega), front]
    by_cases inside : index < start + count
    · rw [List.getElem?_append_left (by omega), List.getElem?_take_of_lt (by omega),
        List.getElem?_drop, if_pos ⟨reached, inside⟩]
    · have back : start + count + (index - start - count) = index := by omega
      rw [List.getElem?_append_right (by omega), middle, List.getElem?_drop, back,
        if_neg (by omega)]

end Splice

end ByteStore
