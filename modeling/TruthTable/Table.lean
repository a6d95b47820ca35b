import TruthTable.Header.Basic
import TruthTable.RowSet.Members

/-!
# Truth tables

The table under a header with `n` columns has one row for every way to give truth values to
its variables. Rows are numbered from 0 to `2 ^ n - 1`, and the number says it all: the
variable of column `j` is true in row `i` when bit `j` of `i` is set. So a table keeps no
rows; it keeps that it has at most 63 columns, and the number of its rows fits in a 64-bit
word.

`Table.column` gives the rows where a variable is true as a set, built by doubling: a table
with one more column is two copies of the smaller one, the new variable being true in the
upper copy only.

`Formula.models` finds the rows where a formula is true without visiting any row: a variable
contributes its column, a negation the complement, and a connective joins two sets as its
truth table says. What comes out are rows of the table (`lt_size_of_models`).
-/

namespace TruthTable

/-! ## Rows -/

/-- A row under a header, by its number. -/
structure Row (header : Header) where
  id : Nat
  id_lt : id < header.rowCount
deriving DecidableEq

namespace Row

variable {header : Header}

theorem ext {a b : Row header} (h : a.id = b.id) : a = b := by
  cases a
  cases b
  cases h
  rfl

/-- The value of a variable, which must have a column. -/
def value (row : Row header) (x : Char) : Except Fault Bool :=
  match header.index? x with
  | some j => .ok (row.id.testBit j)
  | none => .error (.undefined x)

theorem value_of_index? {row : Row header} {x : Char} {j : Nat}
    (h : header.index? x = some j) :
    row.value x = .ok (row.id.testBit j) := by
  simp [value, h]

theorem value_of_not_mem {row : Row header} {x : Char} (h : x ∉ header) :
    row.value x = .error (.undefined x) := by
  simp [value, Header.index?_eq_none_iff.mpr h]

def entries (row : Row header) : List (Char × Bool) :=
  header.names.zipIdx.map fun (x, j) => (x, row.id.testBit j)

/-- The entries of a row, each written as `X=0` or `X=1`, separated by spaces. -/
def text (row : Row header) : List Char :=
  List.intercalate [' '] (row.entries.map fun (x, b) => [x, '=', if b then '1' else '0'])

end Row

/-- The truth value of a formula in a row. Both sides of a connective are evaluated,
the left one first, so a variable without a column is a fault even where the other
side decides. -/
def Formula.value {header : Header} (row : Row header) : Formula → Except Fault Bool
  | var x => row.value x
  | neg f => return !(← f.value row)
  | binary c l r => return c.apply (← l.value row) (← r.value row)

/-! ## Tables -/

/-- The greatest number of columns of a table. -/
def maxColumns : Nat := 63

structure Table where
  header : Header
  narrow : header.size ≤ maxColumns
deriving DecidableEq

namespace Table

/-- The table under a header, unless it would be too wide. -/
def ofHeader (header : Header) : Except Fault Table :=
  if h : header.size ≤ maxColumns then .ok ⟨header, h⟩
  else .error (.tooMany header.size maxColumns)

theorem ofHeader_of_size_le {header : Header} (h : header.size ≤ maxColumns) :
    ofHeader header = .ok ⟨header, h⟩ := dif_pos h

theorem ofHeader_of_lt_size {header : Header} (h : maxColumns < header.size) :
    ofHeader header = .error (.tooMany header.size maxColumns) := dif_neg (Nat.not_le.mpr h)

theorem ofHeader_eq_ok_iff {header : Header} {t : Table} :
    ofHeader header = .ok t ↔ t.header = header := by
  constructor
  · intro h
    unfold ofHeader at h
    split at h
    · obtain rfl := Except.ok.inj h
      rfl
    · cases h
  · rintro rfl
    exact ofHeader_of_size_le t.narrow

def size (t : Table) : Nat := t.header.rowCount

/-- The row with a number, if there is one. -/
def row? (t : Table) (id : Nat) : Option (Row t.header) :=
  if h : id < t.size then some ⟨id, h⟩ else none

theorem row?_eq_some_iff {t : Table} {id : Nat} {r : Row t.header} :
    t.row? id = some r ↔ r.id = id := by
  unfold row?
  split
  · simp only [Option.some.injEq]
    exact ⟨fun h => h ▸ rfl, fun h => Row.ext h.symm⟩
  · next h => exact ⟨nofun, fun hr => absurd (hr ▸ r.id_lt) h⟩

def rows (t : Table) : List (Row t.header) :=
  (List.finRange t.size).map fun i => ⟨i.val, i.isLt⟩

def full (t : Table) : RowSet := .full t.size

/-- The rows of a table that a set of numbers picks, in order. Numbers that are not of
a row pick nothing. -/
def select (t : Table) (s : RowSet) : List (Row t.header) := s.toList.filterMap t.row?

/-- Among the first `2 ^ n` numbers those whose bit `j` is set, as a set of bits. -/
def columnBits (j : Nat) : Nat → Nat
  | 0 => 0
  | n + 1 =>
    if j = n then (1 <<< (1 <<< n) - 1) <<< (1 <<< n)
    else
      let half := columnBits j n
      half ||| half <<< (1 <<< n)

/-- The rows where a variable is true; it must have a column. -/
def column (t : Table) (x : Char) : Except Fault RowSet :=
  match t.header.index? x with
  | some j => .ok ⟨columnBits j t.header.size⟩
  | none => .error (.undefined x)

/-- A number is in the column of bit `j` when it is small enough and has that bit. -/
theorem testBit_columnBits (j n i : Nat) :
    (columnBits j n).testBit i = (decide (i < 1 <<< n ∧ j < n) && i.testBit j) := by
  rw [Nat.one_shiftLeft]
  induction n generalizing i with
  | zero => simp [columnBits]
  | succ n ih =>
      simp only [columnBits, Nat.one_shiftLeft]
      rcases Nat.lt_or_ge i (2 ^ n) with hlt | hge
      · have hi : i.testBit n = false := Nat.testBit_lt_two_pow hlt
        have hlt' : i < 2 ^ (n + 1) := Nat.lt_trans hlt (Nat.pow_lt_pow_succ (by decide))
        split
        · next h => subst h; simp [hi, Nat.not_le.mpr hlt]
        · next h =>
          have hj : j < n + 1 ↔ j < n := by omega
          simp [ih, hlt, hlt', hj, Nat.not_le.mpr hlt]
      · obtain ⟨k, rfl⟩ := Nat.exists_eq_add_of_le hge
        have hk : 2 ^ n + k < 2 ^ (n + 1) ↔ k < 2 ^ n := by rw [Nat.pow_succ]; omega
        split
        · next h =>
          subst h
          by_cases hk' : k < 2 ^ j
          · simp [hk, hk', Nat.testBit_two_pow_add_eq, Nat.testBit_lt_two_pow hk']
          · simp [hk, hk']
        · next h =>
          rcases Nat.lt_or_ge j n with hj | hj
          · have hlow : ¬2 ^ n + k < 2 ^ n := Nat.not_lt.mpr hge
            simp only [Nat.testBit_or, Nat.testBit_shiftLeft, ih, Nat.add_sub_cancel_left, hk,
              hj, Nat.lt_succ_of_lt hj, hlow, Nat.testBit_two_pow_add_gt hj, ge_iff_le,
              Nat.le_add_right]
            simp
          · have hj' : ¬j < n + 1 := by omega
            simp [ih, hj', Nat.not_lt.mpr hj]

end Table

/-! ## Models -/

def Connective.combine : Connective → RowSet → RowSet → RowSet
  | and, a, b => a ∩ b
  | or, a, b => a ∪ b
  | difference, a, b => a \ b

/-- A row is in a combination as the truth table of the connective says. -/
theorem Connective.mem_combine {c : Connective} {a b : RowSet} {i : Nat} :
    i ∈ c.combine a b ↔ c.apply (i ∈ a) (i ∈ b) = true := by
  cases c <;> simp [combine, apply]

/-- The column of a variable holds the rows whose bit for it is set. -/
theorem Table.mem_column {t : Table} {x : Char} {s : RowSet} (h : t.column x = .ok s) :
    ∃ j, t.header.index? x = some j ∧ ∀ i, i ∈ s ↔ i < t.size ∧ i.testBit j = true := by
  unfold column at h
  split at h
  · next j hj =>
    cases h
    refine ⟨j, hj, fun i => ?_⟩
    rw [RowSet.mem_def, testBit_columnBits]
    simp [size, Header.rowCount, Header.lt_size_of_index? hj]
  · cases h

/-- The rows where a formula is true, as a set; its variables must have columns. -/
def Formula.models (t : Table) : Formula → Except Fault RowSet
  | var x => t.column x
  | neg f => return (← f.models t).complement t.size
  | binary c l r => return c.combine (← l.models t) (← r.models t)

namespace Formula

variable {t : Table} {s : RowSet}

theorem models_neg {f : Formula} :
    (neg f).models t = .ok s ↔ ∃ a, f.models t = .ok a ∧ a.complement t.size = s := by
  rw [models]
  cases f.models t <;> simp [bind, Except.bind, pure, Except.pure]

theorem models_binary {c : Connective} {l r : Formula} :
    (binary c l r).models t = .ok s ↔
      ∃ a b, l.models t = .ok a ∧ r.models t = .ok b ∧ c.combine a b = s := by
  rw [models]
  cases l.models t <;> cases r.models t <;> simp [bind, Except.bind, pure, Except.pure]

theorem lt_size_of_models {f : Formula} (h : f.models t = .ok s) {i : Nat} (hi : i ∈ s) :
    i < t.size := by
  induction f generalizing s with
  | var x =>
      obtain ⟨j, -, hmem⟩ := Table.mem_column h
      exact ((hmem i).mp hi).1
  | neg f _ =>
      obtain ⟨a, -, rfl⟩ := models_neg.mp h
      exact (RowSet.mem_complement.mp hi).1
  | binary c l r ihl ihr =>
      obtain ⟨a, b, ha, hb, rfl⟩ := models_binary.mp h
      rw [Connective.mem_combine] at hi
      by_cases hia : i ∈ a
      · exact ihl ha hia
      · refine ihr hb ?_
        cases c <;> simp_all [Connective.apply]

end Formula

end TruthTable
