import LlvmGather.Library.CountedLoop

/-!
The accesses of `AccessMatrix` in `generator.c`: the indices that one visit of a tile reads
or writes, in order, and those of a whole run. The counters and sizes are mathematical
integers, which fit an `int` as long as the matrix has fewer than `2 ^ 31` elements; the
visit of a single tile is also given with the limits of `int`.
-/

namespace LlvmGather

open CountedLoop

def rowByRow (scale : Int) : List Int :=
  (counters 0 scale 1).flatMap fun row_itr =>
    (counters 0 scale 1).flatMap fun col_itr => [row_itr * scale + col_itr]

def rowByRowTwice (scale : Int) : List Int :=
  (counters 0 scale 1).flatMap fun row_itr =>
    (counters 0 scale 2).flatMap fun col_itr =>
      [row_itr * scale + col_itr, row_itr * scale + col_itr + 1]

def columnByColumn (scale : Int) : List Int :=
  (counters 0 scale 1).flatMap fun col_itr =>
    (counters 0 scale 1).flatMap fun row_itr => [row_itr * scale + col_itr]

def rowPairs (scale : Int) : List Int :=
  (counters 0 scale 1).flatMap fun outer =>
    let offset := outer % 2
    (counters offset scale 2).flatMap fun inner =>
      [(outer - offset) * scale + (inner + offset), (outer - offset + 1) * scale + (inner + offset)]

def rowQuads (scale : Int) : List Int :=
  (counters 0 scale 1).flatMap fun outer =>
    let offset := outer % 4
    (counters (offset / 2) scale 4).flatMap fun inner =>
      [(outer - offset) * scale + inner, (outer - offset + 2) * scale + (inner + 1),
        (outer - offset) * scale + (inner + scale / 2),
        (outer - offset + 2) * scale + (inner + scale / 2 + 1)]

def halfRows (scale distance : Int) : List Int :=
  (counters 0 scale 1).flatMap fun outer =>
    let row := outer % (scale / 2)
    let column := outer - outer % (scale / 2)
    (counters 0 (scale / 2) 1).flatMap fun inner =>
      [row * scale + (column + inner), (row + distance) * scale + (column + inner)]

/-- The write branch for a pattern; `none` where the pattern is not supported. -/
def tileWrites (patternId : Nat) (scale : Int) : Option (List Int) :=
  match patternId with
  | 0 => some (rowByRow scale)
  | 1 => some (rowPairs scale)
  | 2 => some (rowQuads scale)
  | 3 => some (halfRows scale (scale / 2))
  | 4 => some (halfRows scale (scale / 2))
  | 5 => some (rowQuads scale)
  | 6 => some (rowPairs scale)
  | 7 => some (columnByColumn scale)
  | _ => none

def tileReads (patternId : Nat) (scale : Int) : Option (List Int) :=
  match patternId with
  | 0 => some (rowByRowTwice scale)
  | 1 => some (rowPairs scale)
  | 2 => some (rowQuads scale)
  | 3 => some (halfRows scale 4)
  | 4 => some (halfRows scale (scale / 2))
  | 5 => some (rowQuads scale)
  | 6 => some (rowPairs scale)
  | 7 => some (columnByColumn scale)
  | _ => none

inductive Branch
  | write
  | read
deriving DecidableEq, Repr

def visitTile (patternId : Nat) (scale : Int) : Branch → Option (List Int)
  | .write => tileWrites patternId scale
  | .read => tileReads patternId scale

def IsInt (value : Int) : Prop := -2 ^ 31 ≤ value ∧ value < 2 ^ 31

instance (value : Int) : Decidable (IsInt value) := inferInstanceAs (Decidable (_ ∧ _))

/-- A visit as `int` allows it: `none` also where the division by `scale * scale` that comes
before the first tile, or an index, is undefined. The other values of a visit lie between 0
and one of these. -/
def visitTileInt (patternId : Nat) (scale : Int) (branch : Branch) : Option (List Int) := do
  guard (scale * scale ≠ 0 ∧ IsInt (scale * scale))
  let indices ← visitTile patternId scale branch
  guard (∀ index ∈ indices, IsInt index)
  return indices

/-- The indices into `data` over all tiles; `none` where the run ends with an error. The
branch that the random number selects is given for each tile. -/
def accessMatrix (numRows numCols patternId : Nat) (choices : Int → Branch) (scale : Int) :
    Option (List Int) := do
  let numTiles := (numRows * numCols : Int) / (scale * scale)
  let tiles ← (counters 0 numTiles 1).mapM fun tile_itr =>
    (visitTile patternId scale (choices tile_itr)).map
      (List.map fun index => tile_itr * scale * scale + index)
  return tiles.flatten

section Membership

variable {scale index : Int}

theorem mem_rowByRow : index ∈ rowByRow scale ↔ ∃ row, (0 ≤ row ∧ row < scale) ∧
    ∃ column, (0 ≤ column ∧ column < scale) ∧ index = row * scale + column := by
  simp [rowByRow, mem_counters_one]

theorem mem_columnByColumn : index ∈ columnByColumn scale ↔ ∃ column, (0 ≤ column ∧ column < scale) ∧
    ∃ row, (0 ≤ row ∧ row < scale) ∧ index = row * scale + column := by
  simp [columnByColumn, mem_counters_one]

theorem mem_rowByRowTwice : index ∈ rowByRowTwice scale ↔ ∃ row, (0 ≤ row ∧ row < scale) ∧
    ∃ column, (0 ≤ column ∧ column < scale ∧ 2 ∣ column) ∧
      (index = row * scale + column ∨ index = row * scale + column + 1) := by
  simp [rowByRowTwice, mem_counters]

theorem mem_rowPairs : index ∈ rowPairs scale ↔ ∃ outer, (0 ≤ outer ∧ outer < scale) ∧
    ∃ inner, (outer % 2 ≤ inner ∧ inner < scale ∧ 2 ∣ inner - outer % 2) ∧
      (index = (outer - outer % 2) * scale + (inner + outer % 2) ∨
        index = (outer - outer % 2 + 1) * scale + (inner + outer % 2)) := by
  simp [rowPairs, mem_counters]

theorem mem_rowQuads : index ∈ rowQuads scale ↔ ∃ outer, (0 ≤ outer ∧ outer < scale) ∧
    ∃ inner, (outer % 4 / 2 ≤ inner ∧ inner < scale ∧ 4 ∣ inner - outer % 4 / 2) ∧
      (index = (outer - outer % 4) * scale + inner ∨
        index = (outer - outer % 4 + 2) * scale + (inner + 1) ∨
        index = (outer - outer % 4) * scale + (inner + scale / 2) ∨
        index = (outer - outer % 4 + 2) * scale + (inner + scale / 2 + 1)) := by
  simp [rowQuads, mem_counters]

theorem mem_halfRows {distance : Int} : index ∈ halfRows scale distance ↔
    ∃ outer, (0 ≤ outer ∧ outer < scale) ∧ ∃ inner, (0 ≤ inner ∧ inner < scale / 2) ∧
      (index = outer % (scale / 2) * scale + (outer - outer % (scale / 2) + inner) ∨
        index = (outer % (scale / 2) + distance) * scale +
          (outer - outer % (scale / 2) + inner)) := by
  simp [halfRows, mem_counters_one]

end Membership

theorem half_cases {outer half : Int} (nonneg : 0 ≤ outer) (below : outer < 2 * half) :
    (outer < half ∧ outer % half = outer) ∨ (half ≤ outer ∧ outer % half = outer - half) := by
  rcases lt_or_ge outer half with first | second
  · exact Or.inl ⟨first, Int.emod_eq_of_lt nonneg first⟩
  · refine Or.inr ⟨second, ?_⟩
    rw [← Int.sub_emod_right outer half]
    exact Int.emod_eq_of_lt (by omega) (by omega)

end LlvmGather
