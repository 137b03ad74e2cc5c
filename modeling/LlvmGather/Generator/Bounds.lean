import LlvmGather.Generator.Patterns

/-!
Where the accesses of `AccessMatrix` leave the matrix. Most of the offsets that pass the end
of a row stay in the tile; the pairs of patterns 1 and 6 pass its last cell by one, and the
constant distance of pattern 3 leaves the smallest tile.
-/

namespace LlvmGather

open CountedLoop

def InTile (scale : Int) (indices : List Int) : Prop :=
  ∀ index ∈ indices, 0 ≤ index ∧ index < scale * scale

section Tile

variable {scale : Int}

theorem span_bounds (rows : Int) {row column : Int} (positive : 0 < scale) (top : 0 ≤ row)
    (fits : row + rows ≤ scale) (left : 0 ≤ column) (right : column < rows * scale) :
    0 ≤ row * scale + column ∧ row * scale + column < scale * scale := by
  have low : 0 ≤ row * scale := mul_nonneg top positive.le
  have high : (row + rows) * scale ≤ scale * scale := mul_le_mul_of_nonneg_right fits positive.le
  rw [add_mul] at high
  omega

theorem rowByRow_inTile (positive : 0 < scale) : InTile scale (rowByRow scale) := by
  intro index member
  obtain ⟨row, rowRange, column, columnRange, rfl⟩ := mem_rowByRow.mp member
  exact span_bounds 1 positive (by omega) (by omega) (by omega) (by omega)

theorem columnByColumn_inTile (positive : 0 < scale) : InTile scale (columnByColumn scale) := by
  intro index member
  obtain ⟨column, columnRange, row, rowRange, rfl⟩ := mem_columnByColumn.mp member
  exact span_bounds 1 positive (by omega) (by omega) (by omega) (by omega)

theorem rowByRowTwice_inTile (positive : 0 < scale) (four : 4 ∣ scale) :
    InTile scale (rowByRowTwice scale) := by
  intro index member
  obtain ⟨row, rowRange, column, columnRange, rfl | rfl⟩ := mem_rowByRowTwice.mp member
  · exact span_bounds 1 positive (by omega) (by omega) (by omega) (by omega)
  · rw [add_assoc]
    exact span_bounds 1 positive (by omega) (by omega) (by omega) (by omega)

theorem rowQuads_inTile (positive : 0 < scale) (four : 4 ∣ scale) :
    InTile scale (rowQuads scale) := by
  intro index member
  obtain ⟨outer, outerRange, inner, innerRange, rfl | rfl | rfl | rfl⟩ := mem_rowQuads.mp member
  all_goals
    exact span_bounds 2 positive (by omega) (by omega) (by omega) (by omega)

theorem halfRows_inTile {distance : Int} (positive : 0 < scale) (four : 4 ∣ scale)
    (down : 0 ≤ distance) (half : distance ≤ scale / 2) :
    InTile scale (halfRows scale distance) := by
  intro index member
  obtain ⟨outer, outerRange, inner, innerRange, cells⟩ := mem_halfRows.mp member
  have halves := half_cases outerRange.1 (by omega : outer < 2 * (scale / 2))
  rcases cells with rfl | rfl
  all_goals
    exact span_bounds 1 positive (by omega) (by omega) (by omega) (by omega)

theorem rowPairs_passes (positive : 0 < scale) (four : 4 ∣ scale) :
    scale * scale ∈ rowPairs scale := by
  refine mem_rowPairs.mpr ⟨scale - 1, by omega, scale - 1, by omega, Or.inr ?_⟩
  have odd : (scale - 1) % 2 = 1 := by omega
  rw [odd]
  ring

end Tile

def tileIndices (patternId : Nat) (scale : Int) (branch : Branch) : List Int :=
  (visitTile patternId scale branch).getD []

theorem visitTile_eq {patternId : Nat} (known : patternId < 8) (scale : Int) (branch : Branch) :
    visitTile patternId scale branch = some (tileIndices patternId scale branch) := by
  interval_cases patternId <;> cases branch <;> rfl

theorem accessMatrix_eq {patternId : Nat} (known : patternId < 8) (numRows numCols : Nat)
    (choices : Int → Branch) (scale : Int) :
    accessMatrix numRows numCols patternId choices scale =
      some ((counters 0 ((numRows * numCols : Int) / (scale * scale)) 1).flatMap fun tile =>
        (tileIndices patternId scale (choices tile)).map fun index =>
          tile * scale * scale + index) := by
  simp only [accessMatrix, visitTile_eq known, Option.map_some]
  rw [show @some (List Int) = pure from rfl, List.mapM_pure, List.flatMap_def]
  rfl

theorem tileIndices_inTile_iff {patternId : Nat} (known : patternId < 8) {scale : Int}
    (positive : 0 < scale) (four : 4 ∣ scale) :
    (∀ branch, InTile scale (tileIndices patternId scale branch)) ↔
      patternId ≠ 1 ∧ patternId ≠ 6 ∧ ¬ (patternId = 3 ∧ scale = 4) := by
  constructor
  · intro inside
    refine ⟨?_, ?_, ?_⟩
    · rintro rfl
      exact lt_irrefl _ (inside .write _ (rowPairs_passes positive four)).2
    · rintro rfl
      exact lt_irrefl _ (inside .write _ (rowPairs_passes positive four)).2
    · rintro ⟨rfl, rfl⟩
      have beyond : (16 : Int) ∈ tileIndices 3 4 .read := by decide
      exact absurd (inside .read 16 beyond).2 (by decide)
  · rintro ⟨notOne, notSix, notThree⟩ branch
    have half : 0 ≤ scale / 2 := by omega
    interval_cases patternId
    · cases branch
      · exact rowByRow_inTile positive
      · exact rowByRowTwice_inTile positive four
    · exact absurd rfl notOne
    · cases branch <;> exact rowQuads_inTile positive four
    · cases branch
      · exact halfRows_inTile positive four half le_rfl
      · exact halfRows_inTile positive four (by decide) (by omega)
    · cases branch <;> exact halfRows_inTile positive four half le_rfl
    · cases branch <;> exact rowQuads_inTile positive four
    · exact absurd rfl notSix
    · cases branch <;> exact columnByColumn_inTile positive

theorem accessMatrix_inBounds_iff {numRows numCols patternId : Nat} {scale : Int}
    (known : patternId < 8) (positive : 0 < scale)
    (squares : scale * scale ∣ (numRows * numCols : Int)) :
    (∀ choices, ∃ indices, accessMatrix numRows numCols patternId choices scale = some indices ∧
      ∀ index ∈ indices, 0 ≤ index ∧ index < numRows * numCols) ↔
      numRows * numCols = 0 ∨ ∀ branch, InTile scale (tileIndices patternId scale branch) := by
  obtain ⟨tiles, total⟩ := squares
  have square : 0 < scale * scale := mul_pos positive positive
  have count : (numRows * numCols : Int) / (scale * scale) = tiles := by
    rw [total, Int.mul_ediv_cancel_left _ square.ne']
  have elements : numRows * numCols = 0 ↔ tiles = 0 := by
    rw [← Int.natCast_eq_zero, Nat.cast_mul, total, mul_eq_zero, or_iff_right square.ne']
  have nonneg : 0 ≤ tiles := by
    have whole : 0 ≤ scale * scale * tiles := by
      rw [← total]
      positivity
    exact nonneg_of_mul_nonneg_right whole square
  simp only [accessMatrix_eq known, count, elements, Option.some_inj, exists_eq_left']
  rw [total, mul_comm]
  constructor
  · intro bounded
    rw [or_iff_not_imp_left]
    intro some branch index member
    have visited (tile : Int) (range : 0 ≤ tile ∧ tile < tiles) :=
      bounded (fun _ => branch) _ (List.mem_flatMap.mpr
        ⟨tile, (mem_counters_one tile).mpr range, List.mem_map_of_mem member⟩)
    have first := (visited 0 (by omega)).1
    have last := (visited (tiles - 1) (by omega)).2
    rw [mul_assoc, sub_mul, one_mul] at last
    simp only [zero_mul, zero_add] at first
    omega
  · rintro (rfl | inside) choices index member
    · simp [counters, countersFrom] at member
    · obtain ⟨tile, listed, member⟩ := List.mem_flatMap.mp member
      obtain ⟨cell, visited, rfl⟩ := List.mem_map.mp member
      have range := (mem_counters_one tile).mp listed
      have cellRange := inside (choices tile) cell visited
      have base : 0 ≤ tile * (scale * scale) := mul_nonneg range.1 square.le
      have next : (tile + 1) * (scale * scale) ≤ tiles * (scale * scale) :=
        mul_le_mul_of_nonneg_right (by omega) square.le
      rw [mul_assoc]
      rw [add_mul, one_mul] at next
      omega

/-- The exact condition under which every access of a run has an index below the number of
elements. -/
theorem generator_inBounds_iff (numRows numCols patternId : Nat) (scale : Int)
    (known : patternId < 8) (positive : 0 < scale) (four : 4 ∣ scale)
    (squares : scale * scale ∣ (numRows * numCols : Int)) :
    (∀ choices, ∃ indices, accessMatrix numRows numCols patternId choices scale = some indices ∧
      ∀ index ∈ indices, 0 ≤ index ∧ index < numRows * numCols) ↔
      numRows * numCols = 0 ∨
        (patternId ≠ 1 ∧ patternId ≠ 6 ∧ ¬ (patternId = 3 ∧ scale = 4)) := by
  rw [accessMatrix_inBounds_iff known positive squares, tileIndices_inTile_iff known positive four]

theorem generator_inBounds_iff_quads :
    ∃ indices, accessMatrix 8 8 2 (fun _ => .read) 8 = some indices ∧
      ∀ index ∈ indices, 0 ≤ index ∧ index < (8 : Nat) * (8 : Nat) :=
  (generator_inBounds_iff 8 8 2 8 (by decide) (by decide) (by decide) (by decide)).mpr
    (by decide) _

/-- A single tile of 16 cells: pattern 1 writes, and pattern 3 reads, the cell behind it. -/
theorem generator_inBounds_fails :
    (accessMatrix 4 4 1 (fun _ => .write) 4).map (fun indices => decide (16 ∈ indices)) = some true ∧
    (accessMatrix 4 4 3 (fun _ => .read) 4).map (fun indices => decide (16 ∈ indices)) =
      some true := by
  decide

end LlvmGather
