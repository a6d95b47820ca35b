import TruthTable.Proofs.Rows
import TruthTable.Selection

/-!
# The marked rows

What a selection marks can be asked for in several ways: the set of the marked numbers and
how many they are, the marked rows one after another, whether a given row is marked, or the
selection that marks the same set once more. `Table.select` passes over a number that no row
has without a word, so with a marked number beyond the table these would tell different
things.

There is none, however a selection came about. The models of a formula are rows: a column
has no other numbers, a negation is taken in the table, and a connective adds none
(`Formula.models_subset_full`). A set that is given is cut off at the size of the table.
That is all that is needed for the views to agree (`Selection.viewsAgree_of_subset`).
-/

namespace TruthTable

theorem RowSet.clip_eq_self {s : RowSet} {n : Nat} (h : ∀ i ∈ s, i < n) : s.clip n = s := by
  refine ext fun i => ?_
  rw [mem_clip]
  exact and_iff_right_of_imp (h i)

/-! ## Rows that a set picks -/

namespace Table

variable {t : Table} {s : RowSet} {row : Row t.header}

theorem subset_full_iff : s ⊆ t.full ↔ ∀ i ∈ s, i < t.size :=
  forall₂_congr fun _ _ => RowSet.mem_full

theorem mem_select_iff : row ∈ t.select s ↔ row.id ∈ s := by
  rw [select, List.mem_filterMap]
  constructor
  · rintro ⟨id, hid, hrow⟩
    rw [row?_eq_some_iff.mp hrow]
    exact RowSet.mem_toList.mp hid
  · exact fun hid => ⟨row.id, RowSet.mem_toList.mpr hid, row?_eq_some_iff.mpr rfl⟩

/-- Numbers beyond the table are left out, and nothing else. -/
theorem map_id_select (t : Table) (s : RowSet) :
    (t.select s).map Row.id = s.toList.filter (· < t.size) := by
  rw [select, List.map_filterMap, ← List.filterMap_eq_filter]
  refine List.filterMap_congr fun i _ => ?_
  by_cases hi : i < t.size
  · simp [row?_of_lt hi, Option.guard, hi]
  · simp [row?_eq_none_iff.mpr (Nat.not_lt.mp hi), Option.guard, hi]

theorem pairwise_select (t : Table) (s : RowSet) : (t.select s).Pairwise (·.id < ·.id) := by
  rw [← List.pairwise_map, map_id_select]
  exact s.pairwise_toList.filter _

theorem map_id_select_of_subset (h : s ⊆ t.full) : (t.select s).map Row.id = s.toList := by
  rw [map_id_select, List.filter_eq_self]
  exact fun i hi => decide_eq_true (subset_full_iff.mp h i (RowSet.mem_toList.mp hi))

end Table

theorem Formula.models_subset_full {f : Formula} {t : Table} {s : RowSet}
    (h : f.models t = .ok s) : s ⊆ t.full :=
  Table.subset_full_iff.mpr fun _ => lt_size_of_models h

/-! ## Selections -/

namespace Selection

/-- All ways to ask what is marked agree. -/
structure ViewsAgree (s : Selection) : Prop where
  marked_subset : s.marked ⊆ s.table.full
  ofSet_marked : ofSet s.table s.marked = s
  map_id_rows : s.rows.map Row.id = s.marked.toList
  length_rows : s.rows.length = s.marked.card
  pairwise_rows : s.rows.Pairwise (·.id < ·.id)
  contains_iff : ∀ row, s.contains row = true ↔ row ∈ s.rows

theorem ext_marked {s s' : Selection} (htable : s.table = s'.table)
    (h : s.marked = s'.marked) : s = s' := by
  obtain ⟨table, marked, _⟩ := s
  obtain ⟨table', marked', _⟩ := s'
  obtain rfl : table = table' := htable
  obtain rfl : marked = marked' := h
  rfl

theorem viewsAgree_of_subset {s : Selection} (h : s.marked ⊆ s.table.full) :
    s.ViewsAgree where
  marked_subset := h
  ofSet_marked := ext_marked rfl (RowSet.clip_eq_self (Table.subset_full_iff.mp h))
  map_id_rows := Table.map_id_select_of_subset h
  length_rows := by
    rw [RowSet.card, ← Table.map_id_select_of_subset h, List.length_map, rows]
  pairwise_rows := s.table.pairwise_select s.marked
  contains_iff row := by
    rw [contains, decide_eq_true_iff, rows, Table.mem_select_iff]

theorem viewsAgree_of_tabulate {limits : Limits} {header : Header} {f : Formula}
    {s : Selection} (h : (f.tabulate limits header).outcome = .ok s) : s.ViewsAgree :=
  viewsAgree_of_subset
    (Formula.models_subset_full (Formula.outcome_tabulate_eq_ok_iff.mp h).2.2)

theorem mem_marked_ofSet {t : Table} {a : RowSet} {i : Nat} :
    i ∈ (ofSet t a).marked ↔ i < t.size ∧ i ∈ a :=
  RowSet.mem_clip

/-- **What is marked are rows, and all views of it agree.** A selection may come from a
text, from a formula and a header, or from a table and any set of numbers. Its marked
numbers are those of rows, and of a set that was given exactly those that are; marking them
once more gives the same selection. The marked rows come in the order of their numbers, as
many as there are marked numbers, and they are the rows that are found to be marked. -/
theorem views_agree :
    (∀ limits text header? s, (ofText limits text header?).outcome = .ok s → s.ViewsAgree)
      ∧ (∀ limits header f s, (Formula.tabulate limits header f).outcome = .ok s →
          s.ViewsAgree)
      ∧ ∀ t a, (ofSet t a).ViewsAgree ∧ (ofSet t a).table = t
          ∧ ∀ i, i ∈ (ofSet t a).marked ↔ i < t.size ∧ i ∈ a := by
  refine ⟨fun limits text header? s h => ?_, fun limits header f s => viewsAgree_of_tabulate,
    fun t a => ⟨viewsAgree_of_subset ?_, rfl, fun i => mem_marked_ofSet⟩⟩
  · obtain ⟨f, -, htabulate⟩ := outcome_ofText_eq_ok_iff.mp h
    exact viewsAgree_of_tabulate htabulate
  · exact Table.subset_full_iff.mpr fun i hi => (mem_marked_ofSet.mp hi).1

/-- Of these numbers only one is that of a row. -/
example : (ofSet ⟨⟨['A', 'B'], by decide⟩, by decide⟩ (.ofList [1, 9, 300])).rows.map Row.id =
    [1] := rfl

end Selection

end TruthTable
