import TruthTable.Proofs.Layout

/-!
# The picture of a selection

The text of a chart goes through the places line by line, and the number of the row at a
place is what has been counted until there: a line of `width` places after `y` full lines
begins at the number `y * width` (`flatMap_range_map`). So without its newlines the text is
one sign for each row of the table, in order (`filter_text`).

That it shows all of the selection and not more than a part of it rests on the selection:
what is marked is a row. Then as many signs as members are `#` (`count_text`), and the
members can be read off the signs again (`text_eq_iff`).
-/

namespace TruthTable

/-- Counting along lines of one width is counting. -/
theorem flatMap_range_map {α : Type} (f : Nat → α) (w h : Nat) :
    ((List.range h).flatMap fun y => (List.range w).map fun x => f (x + y * w)) =
      (List.range (h * w)).map f := by
  induction h with
  | zero => simp
  | succ h ih =>
      have hlast : (List.range w).map (fun x => f (x + h * w)) =
          ((List.range w).map (h * w + ·)).map f := by
        rw [List.map_map]
        exact List.map_congr_left fun x _ => congrArg f (Nat.add_comm x (h * w))
      rw [List.range_succ, List.flatMap_append, ih, List.flatMap_singleton, hlast,
        Nat.succ_mul, List.range_add, List.map_append]

namespace RowSet

/-- How a row is shown, by its number. -/
def sign (s : RowSet) (i : Nat) : Char := if i ∈ s then '#' else '.'

theorem sign_ne_newline (s : RowSet) (i : Nat) : s.sign i ≠ '\n' := by
  unfold sign
  split <;> decide

theorem sign_eq_hash_iff {s : RowSet} {i : Nat} : s.sign i = '#' ↔ i ∈ s := by
  unfold sign
  split <;> simp_all

theorem count_sign {s : RowSet} {n : Nat} (h : ∀ i ∈ s, i < n) :
    ((List.range n).map s.sign).count '#' = s.card := by
  rw [card, toList_eq h, List.count, List.countP_map, ← List.countP_eq_length_filter]
  refine List.countP_congr fun i _ => ?_
  simp [sign_eq_hash_iff]

/-- The signs up to a bound on the members tell all members. -/
theorem eq_of_map_sign_eq {a b : RowSet} {n : Nat} (ha : ∀ i ∈ a, i < n) (hb : ∀ i ∈ b, i < n)
    (h : (List.range n).map a.sign = (List.range n).map b.sign) : a = b := by
  refine ext fun i => ?_
  rcases Nat.lt_or_ge i n with hlt | hge
  · have hsign : a.sign i = b.sign i := List.map_inj_left.mp h i (List.mem_range.mpr hlt)
    rw [← sign_eq_hash_iff, hsign, sign_eq_hash_iff]
  · have hi : ¬i < n := Nat.not_lt.mpr hge
    exact iff_of_false (fun hia => hi (ha i hia)) fun hib => hi (hb i hib)

end RowSet

namespace Chart

variable {c c' : Chart}

theorem text_eq_lines (c : Chart) :
    c.text = ((List.range c.height).map fun y =>
      (List.range c.width).map fun x => c.selection.marked.sign (x + y * c.width)).flatMap
        (· ++ ['\n']) := by
  rw [text_eq, List.flatMap_map]
  rfl

theorem filter_text (c : Chart) :
    c.text.filter (· ≠ '\n') =
      (List.range c.selection.table.size).map c.selection.marked.sign := by
  have hline : ∀ y, ((List.range c.width).map (fun x =>
      c.selection.marked.sign (x + y * c.width)) ++ ['\n']).filter (· ≠ '\n') =
        (List.range c.width).map fun x => c.selection.marked.sign (x + y * c.width) := by
    intro y
    rw [List.filter_append, List.filter_eq_self.mpr fun a ha => ?_]
    · exact List.append_nil _
    · obtain ⟨x, -, rfl⟩ := List.mem_map.mp ha
      exact decide_eq_true (RowSet.sign_ne_newline _ _)
  rw [text_eq_lines, List.flatMap_map, List.filter_flatMap,
    List.flatMap_congr fun y _ => hline y, flatMap_range_map, Nat.mul_comm, width_mul_height]

theorem count_text (c : Chart) : c.text.count '#' = c.selection.marked.card := by
  have hcount : (c.text.filter (· ≠ '\n')).count '#' = c.text.count '#' :=
    List.count_filter (by decide)
  rw [← hcount, filter_text]
  exact RowSet.count_sign c.selection.lt_size

theorem text_eq_iff (h : c.header.size = c'.header.size) :
    c.text = c'.text ↔ c.selection.marked = c'.selection.marked := by
  have hsize : c.selection.table.size = c'.selection.table.size := by
    rw [Table.size_eq_two_pow, Table.size_eq_two_pow]
    exact congrArg (2 ^ ·) h
  constructor
  · intro htext
    have hsigns := congrArg (List.filter (· ≠ '\n')) htext
    rw [filter_text, filter_text, ← hsize] at hsigns
    exact RowSet.eq_of_map_sign_eq c.selection.lt_size (hsize ▸ c'.selection.lt_size) hsigns
  · intro hmarked
    rw [text_eq_lines, text_eq_lines, width, width, height, height, h, hmarked]

end Chart

/-- **The text of a chart is a picture of the selection.** It has as many lines as the chart
is high, each as long as the chart is wide and ended by a newline. Without the newlines it
has a character for each row of the table, in order, which is `#` for the marked rows and
`.` for the others; so `#` comes as often as rows are marked, and of two selections from as
many columns the same is marked exactly when their charts have the same text. -/
theorem Selection.text_chart_pictures (s : Selection) :
    (∃ lines : List (List Char), s.chart.text = lines.flatMap (· ++ ['\n'])
        ∧ lines.length = s.chart.height
        ∧ ∀ line ∈ lines, line.length = s.chart.width ∧ '\n' ∉ line)
      ∧ (s.chart.text.filter (· ≠ '\n')).length = 2 ^ s.table.header.size
      ∧ (∀ k, k < 2 ^ s.table.header.size →
          (s.chart.text.filter (· ≠ '\n'))[k]? = some (if k ∈ s.marked then '#' else '.'))
      ∧ s.chart.text.count '#' = s.marked.card
      ∧ ∀ s' : Selection, s'.table.header.size = s.table.header.size →
          (s.chart.text = s'.chart.text ↔ s.marked = s'.marked) := by
  have hsize : s.chart.selection.table.size = 2 ^ s.table.header.size :=
    s.table.size_eq_two_pow
  have hsigns := s.chart.filter_text
  rw [hsize] at hsigns
  refine ⟨⟨_, s.chart.text_eq_lines, ?_, ?_⟩, ?_, ?_, s.chart.count_text, fun s' h => ?_⟩
  · rw [List.length_map, List.length_range]
  · intro line hline
    obtain ⟨y, -, rfl⟩ := List.mem_map.mp hline
    refine ⟨by rw [List.length_map, List.length_range], fun hnewline => ?_⟩
    obtain ⟨x, -, hx⟩ := List.mem_map.mp hnewline
    exact RowSet.sign_ne_newline _ _ hx
  · rw [hsigns, List.length_map, List.length_range]
  · intro k hk
    rw [hsigns, List.getElem?_map, List.getElem?_range hk]
    rfl
  · exact Chart.text_eq_iff h.symm

end TruthTable
