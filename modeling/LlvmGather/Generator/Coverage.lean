import LlvmGather.Generator.Bounds
import Mathlib.Data.List.Perm.Subperm

/-!
Which patterns of `AccessMatrix` visit the cells of a tile once each, so that they differ
from each other only in order.
-/

namespace LlvmGather

open CountedLoop

def tileCells (scale : Int) : List Int := counters 0 (scale * scale) 1

def TouchesOnce (scale : Int) (indices : List Int) : Prop :=
  ∀ cell, 0 ≤ cell → cell < scale * scale → indices.count cell = 1

section Covering

variable {scale : Int}

theorem mem_tileCells {cell : Int} : cell ∈ tileCells scale ↔ 0 ≤ cell ∧ cell < scale * scale :=
  mem_counters_one cell

theorem TouchesOnce.of_perm {indices : List Int} (perm : indices.Perm (tileCells scale)) :
    TouchesOnce scale indices := by
  intro cell nonneg below
  rw [perm.count_eq]
  exact List.count_eq_one_of_mem (nodup_counters _ _ Nat.one_pos) (mem_tileCells.mpr ⟨nonneg, below⟩)

theorem TouchesOnce.mem {indices : List Int} (once : TouchesOnce scale indices) {cell : Int}
    (nonneg : 0 ≤ cell) (below : cell < scale * scale) : cell ∈ indices := by
  apply List.count_pos_iff.mp
  rw [once cell nonneg below]
  exact Nat.one_pos

theorem perm_tileCells {size : Nat} {indices : List Int}
    (length : indices.length = size * size)
    (covers : ∀ row column : Int, 0 ≤ row → row < size → 0 ≤ column → column < size →
      row * size + column ∈ indices) : indices.Perm (tileCells size) := by
  have cells : (tileCells size).length = size * size :=
    length_counters Nat.one_pos (by push_cast; ring)
  have subset : tileCells size ⊆ indices := by
    intro cell member
    obtain ⟨nonneg, below⟩ := mem_tileCells.mp member
    have positive : (0 : Int) < size := by
      by_contra none
      obtain rfl : size = 0 := by omega
      simp at below
      omega
    rw [← Int.ediv_mul_add_emod cell size]
    exact covers _ _ (Int.ediv_nonneg nonneg positive.le) (Int.ediv_lt_of_lt_mul positive below)
      (Int.emod_nonneg _ positive.ne') (Int.emod_lt_of_pos _ positive)
  have nodup : (tileCells size).Nodup := nodup_counters _ _ Nat.one_pos
  exact ((nodup.subperm subset).perm_of_length_le (by omega)).symm

theorem length_counters_zero (size : Nat) : (counters 0 size 1).length = size :=
  length_counters Nat.one_pos (by push_cast; ring)

theorem rowByRow_perm (size : Nat) : (rowByRow size).Perm (tileCells size) := by
  apply perm_tileCells
  · refine (length_nest 1 fun _ _ => rfl).trans ?_
    rw [length_counters_zero, mul_one]
  · intro row column top bottom left right
    exact mem_rowByRow.mpr ⟨row, ⟨top, bottom⟩, column, ⟨left, right⟩, rfl⟩

theorem columnByColumn_perm (size : Nat) : (columnByColumn size).Perm (tileCells size) := by
  apply perm_tileCells
  · refine (length_nest 1 fun _ _ => rfl).trans ?_
    rw [length_counters_zero, mul_one]
  · intro row column top bottom left right
    exact mem_columnByColumn.mpr ⟨column, ⟨left, right⟩, row, ⟨top, bottom⟩, rfl⟩

theorem rowByRowTwice_perm {size half : Nat} (even : size = 2 * half) :
    (rowByRowTwice size).Perm (tileCells size) := by
  apply perm_tileCells
  · have columns : (counters 0 size 2).length = half :=
      length_counters Nat.two_pos (by rw [even]; push_cast; ring)
    refine (length_nest 2 fun _ _ => rfl).trans ?_
    rw [length_counters_zero, columns, even, mul_comm half 2]
  · intro row column top bottom left right
    refine mem_rowByRowTwice.mpr ⟨row, ⟨top, bottom⟩, column - column % 2, by omega, ?_⟩
    omega

theorem halfRows_perm {size half : Nat} (even : size = 2 * half) :
    (halfRows size (size / 2)).Perm (tileCells size) := by
  have middle : (size : Int) / 2 = half := by omega
  apply perm_tileCells
  · refine (length_nest 2 fun _ _ => rfl).trans ?_
    rw [middle, length_counters_zero, length_counters_zero, even, mul_comm half 2]
  · intro row column top bottom left right
    rw [mem_halfRows, middle]
    have rows : ∃ low : Int, 0 ≤ low ∧ low < half ∧ (row = low ∨ row = low + half) := by
      rcases lt_or_ge row half with upper | lower
      · exact ⟨row, top, upper, Or.inl rfl⟩
      · exact ⟨row - half, by omega, by omega, Or.inr (by omega)⟩
    have columns : ∃ start inner : Int, (start = 0 ∨ start = half) ∧ 0 ≤ inner ∧ inner < half ∧
        column = start + inner := by
      rcases lt_or_ge column half with first | second
      · exact ⟨0, column, Or.inl rfl, left, first, by omega⟩
      · exact ⟨half, column - half, Or.inr rfl, by omega, by omega, by omega⟩
    obtain ⟨low, lowTop, lowBottom, rowCases⟩ := rows
    obtain ⟨start, inner, startCases, innerLeft, innerRight, rfl⟩ := columns
    have remainder : (low + start) % half = low := by
      have halves := half_cases (by omega : 0 ≤ low + start) (by omega : low + start < 2 * half)
      omega
    refine ⟨low + start, by omega, inner, ⟨innerLeft, innerRight⟩, ?_⟩
    rw [remainder]
    rcases rowCases with rfl | rfl
    · left
      omega
    · right
      omega

end Covering

section Missing

variable {scale : Int}

theorem rowPairs_misses (four : 4 ∣ scale) : 1 ∉ rowPairs scale := by
  intro member
  obtain ⟨outer, -, inner, ⟨-, -, parity⟩, cells⟩ := mem_rowPairs.mp member
  have even : 2 ∣ scale := by omega
  rcases cells with cell | cell
  · have row : 2 ∣ (outer - outer % 2) * scale := Dvd.dvd.mul_left even _
    omega
  · have row : 2 ∣ (outer - outer % 2 + 1) * scale := Dvd.dvd.mul_left even _
    omega

theorem rowQuads_misses (positive : 0 < scale) (four : 4 ∣ scale) :
    2 * scale - 1 ∉ rowQuads scale := by
  intro member
  obtain ⟨outer, outerRange, inner, innerRange, cells⟩ := mem_rowQuads.mp member
  have rows : outer - outer % 4 = 0 ∨ 4 ≤ outer - outer % 4 := by omega
  have below : 2 * scale ≤ (outer - outer % 4 + 2) * scale :=
    mul_le_mul_of_nonneg_right (by omega) positive.le
  have first : (outer - outer % 4) * scale = 0 ∨ 4 * scale ≤ (outer - outer % 4) * scale := by
    rcases rows with top | lower
    · exact Or.inl (by rw [top, zero_mul])
    · exact Or.inr (mul_le_mul_of_nonneg_right lower positive.le)
  omega

theorem halfRows_misses (large : 12 ≤ scale) (four : 4 ∣ scale) :
    (scale - 1) * scale ∉ halfRows scale 4 := by
  intro member
  obtain ⟨outer, outerRange, inner, innerRange, cells⟩ := mem_halfRows.mp member
  have halves := half_cases outerRange.1 (by omega : outer < 2 * (scale / 2))
  have last : (outer % (scale / 2) + 5) * scale ≤ (scale - 1) * scale :=
    mul_le_mul_of_nonneg_right (by omega) (by omega)
  have above : outer % (scale / 2) * scale ≤ (outer % (scale / 2) + 4) * scale :=
    mul_le_mul_of_nonneg_right (by omega) (by omega)
  have next : (outer % (scale / 2) + 5) * scale = (outer % (scale / 2) + 4) * scale + scale := by
    ring
  omega

theorem tileIndices_of_nonpos (patternId : Nat) (nonpos : scale ≤ 0) (branch : Branch) :
    tileIndices patternId scale branch = [] := by
  have none : counters 0 scale 1 = [] := by
    rw [counters, sub_zero, Int.toNat_of_nonpos nonpos, countersFrom]
  cases branch
  · rw [tileIndices, visitTile]
    unfold tileWrites
    split <;> simp [rowByRow, rowPairs, rowQuads, halfRows, columnByColumn, none]
  · rw [tileIndices, visitTile]
    unfold tileReads
    split <;> simp [rowByRowTwice, rowPairs, rowQuads, halfRows, columnByColumn, none]

end Missing

/-- The patterns whose branches both visit every cell of the tile. -/
def Covering (patternId : Nat) (scale : Int) : Prop :=
  patternId = 0 ∨ patternId = 4 ∨ patternId = 7 ∨ (patternId = 3 ∧ scale = 8)

theorem tileIndices_perm {patternId : Nat} {scale : Int} (four : 4 ∣ scale) (positive : 0 < scale)
    (covering : Covering patternId scale) (branch : Branch) :
    (tileIndices patternId scale branch).Perm (tileCells scale) := by
  obtain ⟨size, rfl⟩ := Int.eq_ofNat_of_zero_le positive.le
  have even : size = 2 * (size / 2) := by omega
  rcases covering with rfl | rfl | rfl | ⟨rfl, eight⟩
  · cases branch
    · exact rowByRow_perm size
    · exact rowByRowTwice_perm even
  · cases branch <;> exact halfRows_perm even
  · cases branch <;> exact columnByColumn_perm size
  · have distance : (4 : Int) = size / 2 := by omega
    cases branch
    · exact halfRows_perm even
    · change (halfRows size 4).Perm _
      rw [distance]
      exact halfRows_perm even

theorem covering_of_touchesOnce {patternId : Nat} {scale : Int} (known : patternId < 8)
    (four : 4 ∣ scale) (positive : 0 < scale)
    (once : ∀ branch, TouchesOnce scale (tileIndices patternId scale branch)) :
    Covering patternId scale := by
  have large : 4 ≤ scale := by omega
  have square : 4 * scale ≤ scale * scale := mul_le_mul_of_nonneg_right large positive.le
  have touched (branch : Branch) {cell : Int} (nonneg : 0 ≤ cell) (below : cell < scale * scale) :
      cell ∈ tileIndices patternId scale branch := (once branch).mem nonneg below
  interval_cases patternId
  · exact Or.inl rfl
  · exact absurd (touched .write (by decide) (by omega)) (rowPairs_misses four)
  · exact absurd (touched .write (by omega) (by omega)) (rowQuads_misses positive four)
  · refine Or.inr (Or.inr (Or.inr ⟨rfl, ?_⟩))
    by_contra other
    rcases (by omega : scale = 4 ∨ 12 ≤ scale) with rfl | more
    · have missed : (8 : Int) ∉ tileIndices 3 4 .read := by decide
      exact missed (touched .read (by decide) (by decide))
    · have last : 0 ≤ (scale - 1) * scale := mul_nonneg (by omega) positive.le
      have inside : (scale - 1) * scale < scale * scale :=
        mul_lt_mul_of_pos_right (by omega) positive
      exact halfRows_misses more four (touched .read last inside)
  · exact Or.inr (Or.inl rfl)
  · exact absurd (touched .write (by omega) (by omega)) (rowQuads_misses positive four)
  · exact absurd (touched .write (by decide) (by omega)) (rowPairs_misses four)
  · exact Or.inr (Or.inr (Or.inl rfl))

theorem visitTileInt_eq_some {patternId : Nat} (known : patternId < 8) {scale : Int}
    {branch : Branch} {indices : List Int} :
    visitTileInt patternId scale branch = some indices ↔
      (scale * scale ≠ 0 ∧ IsInt (scale * scale)) ∧
        (∀ index ∈ tileIndices patternId scale branch, IsInt index) ∧
        tileIndices patternId scale branch = indices := by
  rw [visitTileInt, visitTile_eq known]
  constructor
  · intro visits
    obtain ⟨_, square, visits⟩ := Option.bind_eq_some_iff.mp visits
    obtain ⟨_, same, visits⟩ := Option.bind_eq_some_iff.mp visits
    obtain rfl := Option.some.inj same
    obtain ⟨_, bounded, visits⟩ := Option.bind_eq_some_iff.mp visits
    exact ⟨(Option.guard_eq_some' _).mp square, (Option.guard_eq_some' _).mp bounded,
      Option.some.inj visits⟩
  · rintro ⟨square, bounded, rfl⟩
    simp only [guard, if_pos square, Option.pure_def, Option.bind_eq_bind, Option.bind_some,
      if_pos bounded]

/-- When a visit touches every cell of its tile once in both branches; the cells are then
those of the tile in another order. -/
theorem visitTile_once_iff (patternId : Nat) (scale : Int) (known : patternId < 8)
    (four : 4 ∣ scale) :
    ((∀ branch, ∃ indices, visitTileInt patternId scale branch = some indices ∧
      TouchesOnce scale indices) ↔
        0 < scale ∧ scale * scale < 2 ^ 31 ∧ Covering patternId scale) ∧
    (0 < scale ∧ scale * scale < 2 ^ 31 ∧ Covering patternId scale → ∀ branch,
      ∃ indices, visitTileInt patternId scale branch = some indices ∧
        indices.Perm (tileCells scale)) := by
  have perm (covers : 0 < scale ∧ scale * scale < 2 ^ 31 ∧ Covering patternId scale)
      (branch : Branch) : ∃ indices, visitTileInt patternId scale branch = some indices ∧
        indices.Perm (tileCells scale) := by
    obtain ⟨positive, small, covering⟩ := covers
    have cells := tileIndices_perm four positive covering branch
    have square : 0 < scale * scale := mul_pos positive positive
    refine ⟨_, (visitTileInt_eq_some known).mpr ⟨⟨square.ne', ?_, small⟩, ?_, rfl⟩, cells⟩
    · omega
    · intro index member
      have range := mem_tileCells.mp (cells.mem_iff.mp member)
      exact ⟨by omega, by omega⟩
  refine ⟨⟨fun once => ?_, fun covers branch => ?_⟩, perm⟩
  · have touched (branch : Branch) : (scale * scale ≠ 0 ∧ IsInt (scale * scale)) ∧
        TouchesOnce scale (tileIndices patternId scale branch) := by
      obtain ⟨indices, visits, cells⟩ := once branch
      obtain ⟨square, -, rfl⟩ := (visitTileInt_eq_some known).mp visits
      exact ⟨square, cells⟩
    have square := (touched .write).1
    rcases lt_trichotomy scale 0 with negative | rfl | positive
    · have first := (touched .write).2.mem le_rfl (mul_pos_of_neg_of_neg negative negative)
      rw [tileIndices_of_nonpos patternId negative.le] at first
      exact absurd first List.not_mem_nil
    · exact absurd rfl square.1
    · exact ⟨positive, square.2.2,
        covering_of_touchesOnce known four positive fun branch => (touched branch).2⟩
  · obtain ⟨indices, visits, cells⟩ := perm covers branch
    exact ⟨indices, visits, .of_perm cells⟩

theorem visitTile_once_iff_halves :
    ∃ indices, visitTileInt 4 4 .read = some indices ∧ TouchesOnce 4 indices :=
  (visitTile_once_iff 4 4 (by decide) (by decide)).1.mpr
    ⟨by decide, by decide, Or.inr (Or.inl rfl)⟩ .read

/-- In a tile of 16 cells pattern 1 touches cell 4 twice and cell 1 never. -/
theorem visitTile_once_fails :
    (visitTileInt 1 4 .write).map (List.count 1) = some 0 ∧
      (visitTileInt 1 4 .write).map (List.count 4) = some 2 := by
  decide

end LlvmGather
