import OptimalMatching.Assignment.Cover
import OptimalMatching.Table
import OptimalMatching.Weight.Basic
/-!
# Excess of costs over potentials

Every row and every column has a potential, and the excess of a cell is its cost less the
potentials of its row and its column. Only the excess is kept. A cell is tight when its excess
is zero.

At first the potential of a row is its least cost, and the potential of a column is the least
excess that is left in it. Later the potentials are adjusted by the least uncovered excess: it
is added to the covered rows and subtracted from the uncovered columns, which leaves the excess
of cells with one covering line as it is, lowers the excess of uncovered cells, and raises it
where two lines cross.

There is no result when an integer is too large to be combined with a float.
-/

namespace OptimalMatching

variable {n : Nat}

/-- A grid of costs or excesses. -/
abbrev Costs (n : Nat) := Grid Weight n

namespace Costs

def ofInts (c : Fin n → Fin n → Int) : Costs n := Grid.ofFn fun i j => .int (c i j)

def tight (e : Costs n) : Tight n := fun i j => (e.cell i j).isZero

/-- Subtracts from each row its least cost. -/
def reduceRows? (c : Costs n) : Option (Costs n) :=
  Grid.tabulateM fun i j => do (c.cell i j).sub? (← Weight.least? (c.row i))

/-- Subtracts from each column its least excess. A column whose least excess is zero stays as
it is. -/
def reduceColumns? (c : Costs n) : Option (Costs n) :=
  Grid.tabulateM fun i j => do
    let least ← Weight.least? (c.column j)
    if least.isZero then return c.cell i j else (c.cell i j).sub? least

/-- The excess after the first choice of potentials. -/
def excess? (c : Costs n) : Option (Costs n) := c.reduceRows?.bind reduceColumns?

/-- The cells without a covering line, row by row. -/
def uncovered (c : Cover n) : List (Fin n × Fin n) :=
  (List.finRange n).flatMap fun i =>
    ((List.finRange n).filter fun j => c.misses i j).map fun j => (i, j)

/-- The least excess of a cell without a covering line. -/
def slack? (e : Costs n) (c : Cover n) : Option Weight :=
  Weight.least? ((uncovered c).map fun (i, j) => e.cell i j)

/-- Adds `delta` to the covered rows and subtracts it from the uncovered columns. -/
def adjust? (e : Costs n) (c : Cover n) (delta : Weight) : Option (Costs n) :=
  Grid.tabulateM fun i j => do
    let raised ← if c.rows.get i then (e.cell i j).add? delta else some (e.cell i j)
    if c.columns.get j then return raised else raised.sub? delta

@[simp] theorem cell_ofInts (c : Fin n → Fin n → Int) (i j : Fin n) :
    (ofInts c).cell i j = .int (c i j) := by
  simp [ofInts]

@[simp] theorem tight_ofInts (c : Fin n → Fin n → Int) (i j : Fin n) :
    (ofInts c).tight i j = decide (c i j = 0) := by
  simp [tight]

end Costs

end OptimalMatching
