import TruthTable.Selection

/-!
# Charts

A chart lays the rows of a table out in a rectangle as close to a square as their
number allows, and marks those of a selection. The first half of the columns of the
table, rounded up, counts across, the others count down, so a table with one more
column unfolds the chart once, to the right and downwards by turns. The number of the
row at `(x, y)` is `x + y * width`.
-/

namespace TruthTable

/-- A selection laid out in a rectangle. -/
structure Chart where
  selection : Selection

/-- The row at a place of a chart, and whether it is marked. -/
structure Chart.Cell (header : Header) where
  x : Nat
  y : Nat
  row : Row header
  marked : Bool
deriving DecidableEq

namespace Chart

abbrev header (c : Chart) : Header := c.selection.table.header

def width (c : Chart) : Nat := 1 <<< ((c.header.size + 1) / 2)

def height (c : Chart) : Nat := 1 <<< (c.header.size / 2)

/-- The number of the row at a place, if the place is inside. -/
def index? (c : Chart) (x y : Nat) : Option Nat :=
  if x < c.width ∧ y < c.height then some (x + y * c.width) else none

theorem index?_eq_some_iff {c : Chart} {x y i : Nat} :
    c.index? x y = some i ↔ x < c.width ∧ y < c.height ∧ x + y * c.width = i := by
  rw [index?, Option.ite_none_right_eq_some, Option.some.injEq, and_assoc]

/-- Every row of the table has a place and every place a row. -/
theorem width_mul_height (c : Chart) : c.width * c.height = c.selection.table.size := by
  have h : (c.header.size + 1) / 2 + c.header.size / 2 = c.header.size := by omega
  rw [width, height, Table.size, Header.rowCount, Nat.one_shiftLeft, Nat.one_shiftLeft,
    Nat.one_shiftLeft, ← Nat.pow_add, h]

/-- The cell at a place, if the place is inside. -/
def cell? (c : Chart) (x y : Nat) : Option (Cell c.header) := do
  let row ← c.selection.table.row? (← c.index? x y)
  return ⟨x, y, row, c.selection.contains row⟩

/-- The cells of a line from left to right; a line outside has none. -/
def line (c : Chart) (y : Nat) : List (Cell c.header) :=
  (List.range c.width).filterMap (c.cell? · y)

/-- Every line of the chart, ended by a newline: `#` for a marked row, `.` for another. -/
def text (c : Chart) : List Char :=
  (List.range c.height).flatMap fun y =>
    (c.line y).map (fun cell => if cell.marked then '#' else '.') ++ ['\n']

end Chart

def Selection.chart (s : Selection) : Chart := ⟨s⟩

end TruthTable
