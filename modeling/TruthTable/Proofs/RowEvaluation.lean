import TruthTable.Table

/-!
# Row evaluation and set evaluation

`Formula.value` evaluates one row with truth values, `Formula.models` all rows at once
with sets, and the two recursions share no step. Both are compared here with a third:
a row gives a truth value to every character (`Row.truth`; a character without a column
gets `false`, which no evaluation ever looks at), and `Formula.holds` is truth under it.

- With a column for every variable, the value of a row is what holds there
  (`value_eq_ok`), and the models are the rows where the formula holds (`models_eq_ok`).
- Otherwise both evaluations stop at the same variable, the first one from the left
  without a column (`value_eq_error`, `models_eq_error`): both go from left to right and
  neither skips an operand that cannot change the result.

A table has at least one row, so the two cases exclude each other, and the headline theorem
only puts them together.
-/

namespace TruthTable

/-! ## The first variable without a column -/

namespace Formula

/-- The first variable, from the left, that has no column. -/
def missing? (header : Header) (f : Formula) : Option Char :=
  f.vars.find? (· ∉ header)

theorem missing?_eq_none_iff {header : Header} {f : Formula} :
    f.missing? header = none ↔ ∀ x ∈ f.vars, x ∈ header := by
  simp [missing?]

theorem missing?_var_eq_none {header : Header} {x : Char} :
    (var x).missing? header = none ↔ x ∈ header := by
  simp [missing?, vars]

theorem missing?_var_eq_some {header : Header} {x y : Char} :
    (var x).missing? header = some y ↔ x ∉ header ∧ x = y := by
  by_cases hx : x ∈ header <;> simp [missing?, vars, hx]

theorem missing?_binary_eq_none {header : Header} {c : Connective} {l r : Formula} :
    (binary c l r).missing? header = none ↔
      l.missing? header = none ∧ r.missing? header = none := by
  simp only [missing?, vars, List.find?_append, Option.or_eq_none_iff]

theorem missing?_binary_eq_some {header : Header} {c : Connective} {l r : Formula}
    {x : Char} :
    (binary c l r).missing? header = some x ↔
      l.missing? header = some x
        ∨ l.missing? header = none ∧ r.missing? header = some x := by
  simp only [missing?, vars, List.find?_append, Option.or_eq_some_iff]

end Formula

/-! ## One row -/

/-- The truth values that a row gives. -/
def Row.truth {header : Header} (row : Row header) (x : Char) : Bool :=
  match header.index? x with
  | some j => row.id.testBit j
  | none => false

theorem Row.value_of_mem {header : Header} {x : Char} (hx : x ∈ header)
    (row : Row header) : row.value x = .ok (row.truth x) := by
  cases hj : header.index? x with
  | none => exact absurd hx (Header.index?_eq_none_iff.mp hj)
  | some j => simp only [value, truth, hj]

namespace Formula

theorem value_eq_ok {header : Header} (row : Row header) :
    ∀ {f : Formula}, f.missing? header = none → f.value row = .ok (f.holds row.truth)
  | var x, h => Row.value_of_mem (missing?_var_eq_none.mp h) row
  | neg f, h => by
      rw [value, value_eq_ok row (f := f) h]
      rfl
  | binary c l r, h => by
      obtain ⟨hl, hr⟩ := missing?_binary_eq_none.mp h
      rw [value, value_eq_ok row hl, value_eq_ok row hr]
      rfl

/-- The right operand is reached only when the left one has a value, so the fault is about
the first variable that the header lacks. -/
theorem value_eq_error {header : Header} (row : Row header) {x : Char} :
    ∀ {f : Formula}, f.missing? header = some x → f.value row = .error (.undefined x)
  | var y, h => by
      obtain ⟨hy, rfl⟩ := missing?_var_eq_some.mp h
      exact Row.value_of_not_mem hy
  | neg f, h => by
      rw [value, value_eq_error row (f := f) h]
      rfl
  | binary c l r, h => by
      rcases missing?_binary_eq_some.mp h with hl | ⟨hl, hr⟩
      · rw [value, value_eq_error row hl]
        rfl
      · rw [value, value_eq_ok row hl, value_eq_error row hr]
        rfl

end Formula

/-! ## All rows at once -/

theorem Table.column_eq_ok {t : Table} {x : Char} (hx : x ∈ t.header) :
    ∃ s, t.column x = .ok s ∧ ∀ row : Row t.header, row.id ∈ s ↔ row.truth x = true := by
  cases hj : t.header.index? x with
  | none => exact absurd hx (Header.index?_eq_none_iff.mp hj)
  | some j =>
      have hs : t.column x = .ok ⟨columnBits j t.header.size⟩ := by simp only [column, hj]
      obtain ⟨k, hk, hmem⟩ := mem_column hs
      obtain rfl : j = k := Option.some.inj (hj.symm.trans hk)
      refine ⟨_, hs, fun row => ?_⟩
      rw [hmem, Row.truth, hj]
      exact and_iff_right row.id_lt

theorem Table.column_eq_error {t : Table} {x : Char} (hx : x ∉ t.header) :
    t.column x = .error (.undefined x) := by
  simp only [column, Header.index?_eq_none_iff.mpr hx]

namespace Formula

/-- The complement is taken in the table, so it is right for every row of the table and
for no other number. -/
theorem models_eq_ok {t : Table} : ∀ {f : Formula}, f.missing? t.header = none →
    ∃ s, f.models t = .ok s ∧ ∀ row : Row t.header, row.id ∈ s ↔ f.holds row.truth = true
  | var x, h => Table.column_eq_ok (missing?_var_eq_none.mp h)
  | neg f, h => by
      obtain ⟨s, hs, hmem⟩ := models_eq_ok (f := f) h
      refine ⟨_, models_neg.mpr ⟨s, hs, rfl⟩, fun row => ?_⟩
      have hid : row.id < t.size := row.id_lt
      simp [hmem, hid, holds]
  | binary c l r, h => by
      obtain ⟨hl, hr⟩ := missing?_binary_eq_none.mp h
      obtain ⟨a, ha, hmema⟩ := models_eq_ok hl
      obtain ⟨b, hb, hmemb⟩ := models_eq_ok hr
      refine ⟨_, models_binary.mpr ⟨a, b, ha, hb, rfl⟩, fun row => ?_⟩
      simp only [Connective.mem_combine, hmema, hmemb, holds, Bool.decide_eq_true]

theorem models_eq_error {t : Table} {x : Char} : ∀ {f : Formula},
    f.missing? t.header = some x → f.models t = .error (.undefined x)
  | var y, h => by
      obtain ⟨hy, rfl⟩ := missing?_var_eq_some.mp h
      exact Table.column_eq_error hy
  | neg f, h => by
      rw [models, models_eq_error (f := f) h]
      rfl
  | binary c l r, h => by
      rcases missing?_binary_eq_some.mp h with hl | ⟨hl, hr⟩
      · rw [models, models_eq_error hl]
        rfl
      · obtain ⟨a, ha, -⟩ := models_eq_ok hl
        rw [models, ha, models_eq_error hr]
        rfl

end Formula

/-! ## The two evaluations -/

/-- Even the header without columns has a row. -/
theorem Row.exists_row (header : Header) : Nonempty (Row header) := by
  have hpos : 0 < header.rowCount := by
    rw [Header.rowCount, Nat.one_shiftLeft]
    exact Nat.two_pow_pos _
  exact ⟨⟨0, hpos⟩⟩

/-- **Sets and rows agree.** There are models exactly when any one row has a value, and then
they are the rows whose value is true and nothing beyond the table. Otherwise no row has
a value, and rows and models all blame the first variable without a column. -/
theorem Formula.models_refine_value (t : Table) (f : Formula) :
    (∀ row : Row t.header, (∃ s, f.models t = .ok s) ↔ ∃ b, f.value row = .ok b)
      ∧ (∀ s, f.models t = .ok s →
          (∀ row : Row t.header, row.id ∈ s ↔ f.value row = .ok true)
            ∧ ∀ i, t.size ≤ i → i ∉ s)
      ∧ ((∃ e, f.models t = .error e) ↔ ∀ row : Row t.header, ∃ e, f.value row = .error e)
      ∧ ∀ e, f.models t = .error e →
          ∃ x, f.missing? t.header = some x ∧ e = .undefined x
            ∧ ∀ row : Row t.header, f.value row = .error (.undefined x) := by
  obtain ⟨row₀⟩ := Row.exists_row t.header
  cases hx : f.missing? t.header with
  | none =>
      obtain ⟨s, hs, hmem⟩ := models_eq_ok hx
      have hv := fun row : Row t.header => value_eq_ok row hx
      refine ⟨?_, ?_, ?_, ?_⟩
      · intro row
        exact ⟨fun _ => ⟨_, hv row⟩, fun _ => ⟨s, hs⟩⟩
      · intro s' hs'
        obtain rfl := Except.ok.inj (hs.symm.trans hs')
        constructor
        · intro row
          rw [hmem, hv, Except.ok.injEq]
        · intro i hi his
          exact Nat.not_lt.mpr hi (lt_size_of_models hs his)
      · constructor
        · rintro ⟨e, he⟩
          cases hs.symm.trans he
        · intro h
          obtain ⟨e, he⟩ := h row₀
          cases (hv row₀).symm.trans he
      · intro e he
        cases hs.symm.trans he
  | some x =>
      have hs : f.models t = .error (.undefined x) := models_eq_error hx
      have hv := fun row : Row t.header => value_eq_error row hx
      refine ⟨?_, ?_, ?_, ?_⟩
      · intro row
        constructor
        · rintro ⟨s, hs'⟩
          cases hs.symm.trans hs'
        · rintro ⟨b, hb⟩
          cases (hv row).symm.trans hb
      · intro s hs'
        cases hs.symm.trans hs'
      · exact ⟨fun _ row => ⟨_, hv row⟩, fun _ => ⟨_, hs⟩⟩
      · intro e he
        exact ⟨x, rfl, Except.error.inj (he.symm.trans hs), hv⟩

end TruthTable
