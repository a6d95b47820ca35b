import TruthTable.Chart
import TruthTable.Proofs.Rows

/-!
# Where a chart shows a row

The number of a row is written in two digits to the base of the width: the lower digit says
how far across the row stands, the upper one how far down. Each place inside stands for one
number below `width * height`, and that is the size of the table (`index?_mod_div`,
`place_of_index?`).

The width is a power of two, so the two digits are also two blocks of bits: the first half
of the columns, rounded up, counts across and the others count down (`testBit_of_index?`).

Lines leave out the places without a cell. Inside there is none: a number that a place
stands for is that of a row (`cell?_of_index?`), so a line is as long as the chart is wide
(`map_line`).
-/

namespace TruthTable

namespace Chart

variable {c : Chart} {x y i : Nat}

/-! ## Places and numbers -/

theorem width_eq_two_pow (c : Chart) : c.width = 2 ^ ((c.header.size + 1) / 2) := by
  rw [width, Nat.one_shiftLeft]

theorem width_pos (c : Chart) : 0 < c.width := by
  rw [width_eq_two_pow]
  exact Nat.two_pow_pos _

theorem index?_of_inside (hx : x < c.width) (hy : y < c.height) :
    c.index? x y = some (x + y * c.width) :=
  if_pos ⟨hx, hy⟩

theorem index?_eq_none (h : ¬(x < c.width ∧ y < c.height)) : c.index? x y = none :=
  if_neg h

theorem lt_size_of_index? (h : c.index? x y = some i) : i < c.selection.table.size := by
  obtain ⟨hx, hy, rfl⟩ := index?_eq_some_iff.mp h
  rw [← width_mul_height, Nat.mul_comm c.width]
  calc x + y * c.width < c.width + y * c.width := Nat.add_lt_add_right hx _
    _ = (y + 1) * c.width := by rw [Nat.succ_mul, Nat.add_comm]
    _ ≤ c.height * c.width := Nat.mul_le_mul_right _ hy

theorem index?_mod_div (hi : i < c.selection.table.size) :
    c.index? (i % c.width) (i / c.width) = some i := by
  rw [← width_mul_height] at hi
  rw [index?_of_inside (Nat.mod_lt _ c.width_pos) (Nat.div_lt_of_lt_mul hi), Nat.mod_add_div']

theorem place_of_index? (h : c.index? x y = some i) : x = i % c.width ∧ y = i / c.width := by
  obtain ⟨hx, -, rfl⟩ := index?_eq_some_iff.mp h
  constructor
  · rw [Nat.add_mul_mod_self_right, Nat.mod_eq_of_lt hx]
  · rw [Nat.add_mul_div_right _ _ c.width_pos, Nat.div_eq_of_lt hx, Nat.zero_add]

/-- Every number of a row has one place. -/
theorem existsUnique_place (hi : i < c.selection.table.size) :
    ∃! p : Nat × Nat, c.index? p.1 p.2 = some i := by
  refine ⟨(i % c.width, i / c.width), index?_mod_div hi, fun p hp => ?_⟩
  obtain ⟨hx, hy⟩ := place_of_index? hp
  exact Prod.ext hx hy

/-- The bits of the number are those of `x`, as many as the width has, and above them those
of `y`. -/
theorem testBit_of_index? (h : c.index? x y = some i) (j : Nat) :
    i.testBit j = if j < (c.header.size + 1) / 2 then x.testBit j
      else y.testBit (j - (c.header.size + 1) / 2) := by
  obtain ⟨hx, -, rfl⟩ := index?_eq_some_iff.mp h
  rw [width_eq_two_pow] at hx ⊢
  rw [Nat.add_comm, Nat.mul_comm, Nat.testBit_two_pow_mul_add _ hx]

/-! ## Cells -/

theorem cell?_of_index? (h : c.index? x y = some i) :
    ∃ row, c.selection.table.row? i = some row
      ∧ c.cell? x y = some ⟨x, y, row, decide (i ∈ c.selection.marked)⟩ := by
  have hrow := Table.row?_of_lt (lt_size_of_index? h)
  refine ⟨_, hrow, ?_⟩
  rw [cell?, h, Option.bind_eq_bind, Option.bind_some, hrow]
  rfl

theorem cell?_eq_none (h : ¬(x < c.width ∧ y < c.height)) : c.cell? x y = none := by
  rw [cell?, index?_eq_none h]
  rfl

theorem x_of_cell? {cell : Cell c.header} (h : c.cell? x y = some cell) : cell.x = x := by
  by_cases hin : x < c.width ∧ y < c.height
  · obtain ⟨row, -, hcell⟩ := cell?_of_index? (index?_of_inside hin.1 hin.2)
    obtain rfl := Option.some.inj (hcell.symm.trans h)
    rfl
  · rw [cell?_eq_none hin] at h
    cases h

/-! ## Lines -/

theorem mem_line {cell : Cell c.header} (h : cell ∈ c.line y) :
    c.cell? cell.x y = some cell := by
  obtain ⟨x, -, hcell⟩ := List.mem_filterMap.mp h
  rwa [x_of_cell? hcell]

/-- What is taken of the cells of a line inside is taken of each place in turn: none is left
out. -/
theorem map_line {β : Type} {g : Cell c.header → β} {k : Nat → β} (hy : y < c.height)
    (hk : ∀ x row, x < c.width →
      g ⟨x, y, row, decide (x + y * c.width ∈ c.selection.marked)⟩ = k x) :
    (c.line y).map g = (List.range c.width).map k := by
  rw [line, List.map_filterMap, ← List.filterMap_eq_map]
  refine List.filterMap_congr fun x hx => ?_
  have hx := List.mem_range.mp hx
  obtain ⟨row, -, hcell⟩ := cell?_of_index? (index?_of_inside hx hy)
  rw [hcell, Option.map_some, hk x row hx]
  rfl

theorem line_eq_nil (hy : c.height ≤ y) : c.line y = [] := by
  refine List.filterMap_eq_nil_iff.mpr fun x _ => cell?_eq_none ?_
  exact fun hin => absurd hin.2 (Nat.not_lt.mpr hy)

/-- The text shows for each place whether its number is marked, and nothing else. -/
theorem text_eq (c : Chart) :
    c.text = (List.range c.height).flatMap fun y =>
      (List.range c.width).map
        (fun x => if x + y * c.width ∈ c.selection.marked then '#' else '.') ++ ['\n'] := by
  rw [text]
  refine List.flatMap_congr fun y hy => ?_
  rw [map_line (List.mem_range.mp hy)]
  intro x row _
  simp

/-- Three columns: two count across and one down. -/
example :
    (Selection.ofText {} ['A', '|', 'C', '&', '!', 'B'] none).outcome.map (·.chart.text) =
      .ok ['.', '#', '#', '#', '\n', '.', '.', '.', '.', '\n'] := rfl

/-- **A chart shows every row of its table once.** Its places are as many as the rows. Each
stands for the number of a row, no two for the same, and every row has its place; the
numbers stay far below 64 bits. The cell at a place holds that row and says whether it is
marked, and the variables of the row have the bits of `x` for the first half of the columns,
rounded up, and the bits of `y` for the others. The lines inside are full, from left to
right; outside there is no number, no cell and no line. -/
theorem shows_every_row (c : Chart) :
    c.width * c.height = 2 ^ c.header.size
      ∧ (∀ x y, x < c.width → y < c.height →
          ∃ i, c.index? x y = some i ∧ i < 2 ^ c.header.size ∧ i < 2 ^ 64)
      ∧ (∀ i, i < 2 ^ c.header.size → ∃! p : Nat × Nat, c.index? p.1 p.2 = some i)
      ∧ (∀ x y, ¬(x < c.width ∧ y < c.height) → c.index? x y = none ∧ c.cell? x y = none)
      ∧ (∀ x y i, c.index? x y = some i →
          ∃ row, c.selection.table.row? i = some row
            ∧ c.cell? x y = some ⟨x, y, row, decide (i ∈ c.selection.marked)⟩
            ∧ ∀ j : Fin c.header.size, row.value (c.header.nameAt j) =
                .ok (if j.val < (c.header.size + 1) / 2 then x.testBit j
                  else y.testBit (j - (c.header.size + 1) / 2)))
      ∧ (∀ y, y < c.height → (c.line y).map Cell.x = List.range c.width
          ∧ ∀ cell ∈ c.line y, c.cell? cell.x y = some cell)
      ∧ ∀ y, c.height ≤ y → c.line y = [] := by
  have hsize : c.selection.table.size = 2 ^ c.header.size := c.selection.table.size_eq_two_pow
  refine ⟨c.width_mul_height.trans hsize, ?_, ?_, ?_, ?_, ?_, fun y => line_eq_nil⟩
  · intro x y hx hy
    have hindex := index?_of_inside hx hy
    have hlt := lt_size_of_index? hindex
    rw [hsize] at hlt
    have hbits : 2 ^ c.header.size < 2 ^ 64 :=
      Nat.pow_lt_pow_right (by decide) (Nat.lt_succ_of_le c.selection.table.narrow)
    exact ⟨_, hindex, hlt, Nat.lt_trans hlt hbits⟩
  · intro i hi
    rw [← hsize] at hi
    exact existsUnique_place hi
  · exact fun x y hout => ⟨index?_eq_none hout, cell?_eq_none hout⟩
  · intro x y i hindex
    obtain ⟨row, hrow, hcell⟩ := cell?_of_index? hindex
    refine ⟨row, hrow, hcell, fun j => ?_⟩
    rw [row.value_nameAt, Table.row?_eq_some_iff.mp hrow, testBit_of_index? hindex]
  · intro y hy
    refine ⟨?_, fun cell => mem_line⟩
    rw [map_line hy fun x row _ => rfl, List.map_id']

end Chart

end TruthTable
