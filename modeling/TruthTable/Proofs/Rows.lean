import Mathlib.Algebra.Group.Nat.Defs
import Mathlib.Data.List.FinRange
import TruthTable.Proofs.Valuations

/-!
# The rows of a table

A table has a row for each way to give its variables truth values, and only one: the number
whose bits are the values (`Row.existsUnique_value`). Everything else that shows a row, or
finds one, takes a bit of that number again, each in its own way; what they say is compared
here with the bit of the column.

- `value` and `column` look a variable up by its name. Names do not repeat, so they arrive
  at the column that `entries` comes to by counting (`Row.value_nameAt`,
  `Table.column_nameAt`).
- A written row has four characters for each column but the last, whatever the names are,
  spaces and equality signs included. So the entries can be cut out of it again
  (`Row.text_inj`).
-/

namespace TruthTable

/-! ## One row -/

theorem Header.index?_nameAt (h : Header) (j : Fin h.size) :
    h.index? (h.nameAt j) = some j.val :=
  index?_eq_some_iff_nameAt.mpr rfl

theorem Header.get?_eq_some_nameAt (h : Header) (j : Fin h.size) :
    h.get? j.val = some (h.nameAt j) :=
  index?_eq_some_iff.mp (h.index?_nameAt j)

theorem Header.nameAt_mem (h : Header) (j : Fin h.size) : h.nameAt j ∈ h :=
  List.get_mem h.names j

namespace Row

variable {header : Header}

theorem value_nameAt (row : Row header) (j : Fin header.size) :
    row.value (header.nameAt j) = .ok (row.id.testBit j) :=
  value_of_index? (header.index?_nameAt j)

theorem length_entries (row : Row header) : row.entries.length = header.size := by
  rw [entries, List.length_map, List.length_zipIdx, Header.size]

theorem getElem?_entries (row : Row header) (j : Fin header.size) :
    row.entries[j.val]? = some (header.nameAt j, row.id.testBit j) := by
  have hname : header.names[j.val]? = some (header.nameAt j) := header.get?_eq_some_nameAt j
  rw [entries, List.getElem?_map, List.getElem?_zipIdx, hname]
  simp

theorem entries_eq_ofFn (row : Row header) :
    row.entries = List.ofFn fun j => (header.nameAt j, row.id.testBit j) := by
  refine List.ext_getElem? fun k => ?_
  rw [List.getElem?_ofFn]
  split
  · next hk => exact row.getElem?_entries ⟨k, hk⟩
  · next hk => exact List.getElem?_eq_none (by rw [length_entries]; exact Nat.not_lt.mp hk)

/-- The values of the columns are the bits of the number, and there are no more. -/
theorem ext_entries {a b : Row header} (h : a.entries = b.entries) : a = b := by
  refine ext_truth fun x hx => ?_
  obtain ⟨j, hj⟩ := Header.exists_index? hx
  have hentry := a.getElem?_entries j
  rw [h, b.getElem?_entries j, Option.some.injEq, Prod.mk.injEq] at hentry
  rw [truth, truth, hj]
  exact hentry.2.symm

/-- The values of a valuation are those of exactly one row. -/
theorem existsUnique_value (header : Header) (v : Char → Bool) :
    ∃! row : Row header, ∀ x ∈ header, row.value x = .ok (v x) := by
  refine ⟨ofTruth header v, fun x hx => ?_, fun row hrow => ext_truth fun x hx => ?_⟩
  · rw [value_of_mem hx, truth_ofTruth hx]
  · have hvalue := hrow x hx
    rw [value_of_mem hx] at hvalue
    rw [truth_ofTruth hx]
    exact Except.ok.inj hvalue

/-! ## Written rows -/

/-- An entry as it is written. -/
def entryText (e : Char × Bool) : List Char := [e.1, '=', if e.2 then '1' else '0']

theorem text_eq_intercalate (row : Row header) :
    row.text = List.intercalate [' '] (row.entries.map entryText) := rfl

theorem entryText_inj {e e' : Char × Bool} (h : entryText e = entryText e') : e = e' := by
  obtain ⟨x, b⟩ := e
  obtain ⟨y, c⟩ := e'
  simp only [entryText, List.cons.injEq] at h
  obtain ⟨rfl, -, hdigit, -⟩ := h
  cases b <;> cases c <;> simp_all

/-- The first three characters are the first entry, and the others begin after a space. -/
theorem cut_intercalate_entryText (e : Char × Bool) (es : List (Char × Bool)) :
    (List.intercalate [' '] ((e :: es).map entryText)).take 3 = entryText e
      ∧ (List.intercalate [' '] ((e :: es).map entryText)).drop 4 =
          List.intercalate [' '] (es.map entryText) := by
  cases es with
  | nil => exact ⟨rfl, rfl⟩
  | cons e' es =>
      rw [List.map_cons, List.map_cons, List.intercalate_cons_cons]
      exact ⟨rfl, rfl⟩

theorem intercalate_entryText_inj : ∀ {es es' : List (Char × Bool)}, es.length = es'.length →
    List.intercalate [' '] (es.map entryText) = List.intercalate [' '] (es'.map entryText) →
      es = es'
  | [], [], _, _ => rfl
  | e :: es, e' :: es', hlength, h => by
      obtain ⟨hfirst, hothers⟩ := cut_intercalate_entryText e es
      obtain ⟨hfirst', hothers'⟩ := cut_intercalate_entryText e' es'
      have he : e = e' := entryText_inj (by rw [← hfirst, ← hfirst', h])
      have hes : es = es' :=
        intercalate_entryText_inj (Nat.succ.inj hlength) (by rw [← hothers, ← hothers', h])
      rw [he, hes]

theorem text_inj {a b : Row header} (h : a.text = b.text) : a = b := by
  have hlength : a.entries.length = b.entries.length := by rw [length_entries, length_entries]
  exact ext_entries (intercalate_entryText_inj hlength h)

end Row

/-! ## All rows -/

namespace Table

theorem row?_of_lt {t : Table} {id : Nat} (h : id < t.size) : t.row? id = some ⟨id, h⟩ :=
  dif_pos h

theorem row?_eq_none_iff {t : Table} {id : Nat} : t.row? id = none ↔ t.size ≤ id := by
  rw [row?]
  split
  · next h => simpa using h
  · next h => simpa using h

theorem map_id_rows (t : Table) : t.rows.map Row.id = List.range t.size := by
  rw [rows, List.map_map]
  exact List.map_coe_finRange_eq_range

theorem getElem?_rows (t : Table) (id : Nat) : t.rows[id]? = t.row? id := by
  have hlength : t.rows.length = t.size := by rw [rows, List.length_map, List.length_finRange]
  rcases Nat.lt_or_ge id t.size with hlt | hge
  · have hrows : id < t.rows.length := hlength ▸ hlt
    have hrow : t.rows[id] = ⟨id, hlt⟩ := by simp [rows]
    rw [row?_of_lt hlt, List.getElem?_eq_getElem hrows, hrow]
  · rw [row?_eq_none_iff.mpr hge, List.getElem?_eq_none_iff, hlength]
    exact hge

theorem column_nameAt (t : Table) (j : Fin t.header.size) :
    ∃ s, t.column (t.header.nameAt j) = .ok s
      ∧ ∀ row : Row t.header, row.id ∈ s ↔ row.id.testBit j = true := by
  obtain ⟨s, hs, hmem⟩ := column_eq_ok (t.header.nameAt_mem j)
  refine ⟨s, hs, fun row => ?_⟩
  rw [hmem, Row.truth, t.header.index?_nameAt j]

/-- **A table lists every valuation once, and its views agree.** There is a table under
every header of at most 63 columns. The values of a valuation are those of exactly one of
its rows; the rows come in the order of their numbers, and each is found by its number. What
a row lists for a column, what it has for the value of the variable, whether the column of
the variable holds it, and the digit that it is written with are all the same bit of its
number, and no two rows are written alike. -/
theorem lists_every_valuation (header : Header) (hn : header.size ≤ 63) :
    ∃ t, ofHeader header = .ok t ∧ t.header = header
      ∧ (∀ v : Char → Bool, ∃! id, id < 2 ^ t.header.size
          ∧ ∃ row, t.row? id = some row ∧ ∀ x ∈ t.header, row.value x = .ok (v x))
      ∧ t.rows.map Row.id = List.range (2 ^ t.header.size)
      ∧ (∀ id, id < 2 ^ t.header.size →
          ∃ row, t.row? id = some row ∧ t.rows[id]? = some row ∧ row.id = id)
      ∧ (∀ id, 2 ^ t.header.size ≤ id → t.row? id = none)
      ∧ (∀ (row : Row t.header) (j : Fin t.header.size),
          row.entries[j.val]? = some (t.header.nameAt j, row.id.testBit j)
            ∧ row.value (t.header.nameAt j) = .ok (row.id.testBit j)
            ∧ ∃ s, t.column (t.header.nameAt j) = .ok s
                ∧ (row.id ∈ s ↔ row.id.testBit j = true))
      ∧ (∀ row : Row t.header, row.entries.length = t.header.size
          ∧ row.text = List.intercalate [' '] (List.ofFn fun j =>
              [t.header.nameAt j, '=', if row.id.testBit j then '1' else '0']))
      ∧ ∀ row row' : Row t.header, row.text = row'.text → row = row' := by
  refine ⟨⟨header, hn⟩, ofHeader_of_size_le hn, rfl, ?_, ?_, ?_, ?_, ?_, ?_, ?_⟩
  · intro v
    obtain ⟨row, hrow, hunique⟩ := Row.existsUnique_value header v
    refine ⟨row.id, ⟨?_, row, row?_eq_some_iff.mpr rfl, hrow⟩, ?_⟩
    · have hlt := row.id_lt
      rwa [Header.rowCount_eq_two_pow] at hlt
    · rintro id ⟨-, row', hget, hrow'⟩
      rw [← row?_eq_some_iff.mp hget, hunique row' hrow']
  · rw [map_id_rows, size_eq_two_pow]
  · intro id hid
    rw [← size_eq_two_pow] at hid
    exact ⟨⟨id, hid⟩, row?_of_lt hid, by rw [getElem?_rows, row?_of_lt hid], rfl⟩
  · intro id hid
    rw [← size_eq_two_pow] at hid
    exact row?_eq_none_iff.mpr hid
  · intro row j
    obtain ⟨s, hs, hmem⟩ := column_nameAt ⟨header, hn⟩ j
    exact ⟨row.getElem?_entries j, row.value_nameAt j, s, hs, hmem row⟩
  · intro row
    refine ⟨row.length_entries, ?_⟩
    rw [Row.text_eq_intercalate, Row.entries_eq_ofFn, List.map_ofFn]
    rfl
  · exact fun row row' => Row.text_inj

/-- Names that are also the signs of a written row. -/
def signTable : Table := ⟨⟨[' ', '=', '0'], by decide⟩, by decide⟩

/-- Row 5 is the one where all but the second variable are true, and can be read in its
text. -/
theorem lists_every_valuation_signTable :
    signTable.header.size ≤ 63
      ∧ ofHeader signTable.header = .ok signTable
      ∧ signTable.rows.map Row.id = [0, 1, 2, 3, 4, 5, 6, 7]
      ∧ (∃! id, id < 2 ^ 3 ∧ ∃ row, signTable.row? id = some row
          ∧ ∀ x ∈ signTable.header, row.value x = .ok (x != '='))
      ∧ ∃ row, signTable.row? 5 = some row
          ∧ row.text = [' ', '=', '1', ' ', '=', '=', '0', ' ', '0', '=', '1']
          ∧ ∀ row', row'.text = row.text → row' = row := by
  have hn : signTable.header.size ≤ 63 := by decide
  obtain ⟨t, ht, -, hunique, hrows, hget, -, -, htext, hinj⟩ :=
    lists_every_valuation signTable.header hn
  obtain rfl : signTable = t := Except.ok.inj ((ofHeader_of_size_le hn).symm.trans ht)
  obtain ⟨row, hrow, -, hid⟩ := hget 5 (by decide)
  refine ⟨hn, ht, hrows, hunique _, row, hrow, ?_, fun row' => hinj row' row⟩
  rw [(htext row).2, hid]
  rfl

end Table

end TruthTable
