import Mathlib.Algebra.Group.End
import TruthTable.Proofs.Evaluation
import TruthTable.Proofs.Layout
import TruthTable.Proofs.Relabeling

/-!
# Names do not matter

The letters of a text only tell variables apart. Under a permutation of the letters the text
has the columns of the other names in the same order, since first occurrences stay where
they are, and so every variable keeps its bit: what is found by a bit (models, marked rows,
the text of a chart) does not change at all. The table never looks at a name but to compare
it with another (`Header.index?_rename`), and for that any permutation of the characters
will do; only the reader asks that a letter stays a letter (`Relabeling.outcome_parse`).
-/

namespace TruthTable

/-! ## The letters of a text -/

/-- The characters that name variables. -/
abbrev Letter := { x : Char // isLetter x = true }

/-- A permutation of the letters, applied to a character. What is no letter stays. -/
def letterwise (ρ : Equiv.Perm Letter) : Equiv.Perm Char := Equiv.Perm.ofSubtype ρ

namespace Letter

variable {ρ : Equiv.Perm Letter} {x : Char}

theorem letterwise_of_not_letter (hx : ¬isLetter x = true) : letterwise ρ x = x :=
  Equiv.Perm.ofSubtype_apply_of_not_mem ρ hx

theorem isLetter_letterwise_iff : isLetter (letterwise ρ x) = true ↔ isLetter x = true := by
  by_cases hx : isLetter x = true
  · have himage : letterwise ρ x = ρ ⟨x, hx⟩ := Equiv.Perm.ofSubtype_apply_of_mem ρ hx
    rw [himage]
    exact iff_of_true (ρ ⟨x, hx⟩).property hx
  · rw [letterwise_of_not_letter hx]

theorem letterwise_eq_space_iff : letterwise ρ x = ' ' ↔ x = ' ' := by
  have hspace : letterwise ρ ' ' = ' ' := letterwise_of_not_letter (by decide)
  constructor
  · intro hx
    exact (letterwise ρ).injective (hx.trans hspace.symm)
  · rintro rfl
    exact hspace

theorem kind_letterwise (ρ : Equiv.Perm Letter) (x : Char) :
    Lexeme.Kind.ofChar (letterwise ρ x) = Lexeme.Kind.ofChar x := by
  by_cases hx : isLetter x = true
  · rw [Lexeme.Kind.ofChar_eq_letter_iff.mpr hx,
      Lexeme.Kind.ofChar_eq_letter_iff.mpr (isLetter_letterwise_iff.mpr hx)]
  · rw [letterwise_of_not_letter hx]

end Letter

/-- Spaces stay spaces, so the same places have lexemes. -/
theorem Lexeme.ofText_map {name : Char → Char} (hname : ∀ x, name x = ' ' ↔ x = ' ')
    (text : List Char) :
    ofText (text.map name) = (ofText text).map fun t => ⟨t.pos, name t.symbol⟩ := by
  have hspaces : ∀ p ∈ text.zipIdx,
      ((fun p : Char × Nat => decide (p.1 ≠ ' ')) ∘ Prod.map name id) p =
        decide (p.1 ≠ ' ') := by
    intro p _
    simp [hname]
  rw [ofText, List.zipIdx_map, List.filter_map, List.filter_congr hspaces, ofText,
    List.map_map, List.map_map]
  rfl

/-- Other letters at the same places. -/
def Relabeling.ofLetters (ρ : Equiv.Perm Letter) : Relabeling :=
  ⟨letterwise ρ, id, Letter.kind_letterwise ρ⟩

/-- The text with other letters is read as the formula with other letters, or has the same
fault at the same place. -/
theorem Formula.outcome_parse_map_letterwise (ρ : Equiv.Perm Letter) (limits : Limits)
    (text : List Char) :
    (parse limits (text.map (letterwise ρ))).outcome =
      (Relabeling.ofLetters ρ).outcome (parse limits text).outcome :=
  Relabeling.outcome_parse (Lexeme.ofText_map (fun _ => Letter.letterwise_eq_space_iff) text)
    (List.length_map _) limits

/-! ## The columns -/

namespace Header

variable {σ : Equiv.Perm Char} {h : Header} {x : Char}

def rename (σ : Equiv.Perm Char) (h : Header) : Header :=
  ⟨h.names.map σ, h.nodup.map σ.injective⟩

@[simp] theorem names_rename : (h.rename σ).names = h.names.map σ := rfl

@[simp] theorem size_rename : (h.rename σ).size = h.size := List.length_map σ

theorem mem_rename_iff : σ x ∈ h.rename σ ↔ x ∈ h := by
  rw [mem_def, names_rename, List.mem_map_of_injective σ.injective, mem_def]

/-- A variable keeps its column. -/
theorem index?_rename : (h.rename σ).index? (σ x) = h.index? x := by
  refine Option.ext fun j => ?_
  rw [index?_eq_some_iff, index?_eq_some_iff, get?, get?, names_rename, List.getElem?_map,
    Option.map_eq_some_iff]
  constructor
  · rintro ⟨y, hy, hyx⟩
    rwa [← σ.injective hyx]
  · exact fun hx => ⟨x, hx, rfl⟩

theorem add_rename : (h.rename σ).add (σ x) = (h.add x).rename σ := by
  by_cases hx : x ∈ h
  · rw [add, dif_pos (mem_rename_iff.mpr hx), add, dif_pos hx]
  · rw [add, dif_neg fun hσ => hx (mem_rename_iff.mp hσ), add, dif_neg hx]
    simp [push, rename]

theorem foldl_add_rename (xs : List Char) :
    (xs.map σ).foldl add (h.rename σ) = (xs.foldl add h).rename σ := by
  induction xs generalizing h with
  | nil => rfl
  | cons x xs ih => rw [List.map_cons, List.foldl_cons, add_rename, ih, List.foldl_cons]

/-- First occurrences come in the same order. -/
theorem collect_map (xs : List Char) : collect (xs.map σ) = (collect xs).rename σ :=
  foldl_add_rename (h := empty) xs

theorem ofText_map_letterwise (ρ : Equiv.Perm Letter) (text : List Char) :
    ofText (text.map (letterwise ρ)) = (ofText text).rename (letterwise ρ) := by
  have hletters : ∀ x ∈ text, (isLetter ∘ letterwise ρ) x = isLetter x := fun x _ =>
    Bool.eq_iff_iff.mpr Letter.isLetter_letterwise_iff
  rw [ofText, List.filter_map, List.filter_congr hletters, collect_map, ofText]

end Header

/-! ## The rows -/

/-- The fault with other names. -/
def Fault.rename (name : Char → Char) : Fault → Fault
  | misread e => misread (e.relabel name id)
  | undefined x => undefined (name x)
  | tooMany count limit => tooMany count limit
  | invalidName piece => invalidName (piece.map name)
  | duplicate x => duplicate (name x)

section

variable (σ : Equiv.Perm Char)

def Table.rename (t : Table) : Table where
  header := t.header.rename σ
  narrow := by
    rw [Header.size_rename]
    exact t.narrow

theorem Table.header_rename (t : Table) : (t.rename σ).header = t.header.rename σ := rfl

theorem Table.size_rename (t : Table) : (t.rename σ).size = t.size := by
  simp [size, rename, Header.rowCount]

def Selection.rename (s : Selection) : Selection where
  table := s.table.rename σ
  marked := s.marked
  lt_size i hi := by
    rw [Table.size_rename]
    exact s.lt_size i hi

/-- What comes out for other names: the same rows under the other names, or the fault. -/
def Selection.renameOutcome : Except Fault Selection → Except Fault Selection
  | .ok s => .ok (s.rename σ)
  | .error e => .error (e.rename σ)

theorem Table.column_rename (t : Table) (x : Char) :
    (t.rename σ).column (σ x) = (t.column x).mapError (Fault.rename σ) := by
  unfold column
  rw [header_rename, Header.index?_rename, Header.size_rename]
  cases t.header.index? x <;> rfl

theorem Formula.models_rename (t : Table) (f : Formula) :
    (f.rename σ).models (t.rename σ) = (f.models t).mapError (Fault.rename σ) := by
  induction f with
  | var x => exact t.column_rename σ x
  | neg f ih =>
      rw [rename, models, models, ih, Table.size_rename]
      cases f.models t <;> rfl
  | binary c l r ihl ihr =>
      rw [rename, models, models, ihl, ihr]
      cases l.models t <;> cases r.models t <;> rfl

theorem Selection.ofFormula_rename (t : Table) (f : Formula) :
    ofFormula (t.rename σ) (f.rename σ) = renameOutcome σ (ofFormula t f) := by
  have hmodels := f.models_rename σ t
  cases h : f.models t with
  | error e =>
      rw [h] at hmodels
      rw [ofFormula_of_error h, ofFormula_of_error hmodels]
      rfl
  | ok a =>
      rw [h] at hmodels
      rw [ofFormula_of_models h, ofFormula_of_models hmodels]
      rfl

theorem Formula.outcome_tabulate_rename (limits : Limits) (header : Header) (f : Formula) :
    ((f.rename σ).tabulate limits (header.rename σ)).outcome =
      Selection.renameOutcome σ (f.tabulate limits header).outcome := by
  have hsize : (header.rename σ).size = header.size := Header.size_rename
  rcases Nat.lt_or_ge limits.maxVariables header.size with hmany | hallowed
  · rw [outcome_tabulate_of_many hmany, outcome_tabulate_of_many (hsize ▸ hmany), hsize]
    rfl
  rcases Nat.lt_or_ge maxColumns header.size with hwide | hnarrow
  · rw [outcome_tabulate_of_wide hallowed hwide,
      outcome_tabulate_of_wide (hsize ▸ hallowed) (hsize ▸ hwide), hsize]
    rfl
  · rw [outcome_tabulate_of_narrow hallowed hnarrow,
      outcome_tabulate_of_narrow (hsize ▸ hallowed) (hsize ▸ hnarrow)]
    exact Selection.ofFormula_rename σ ⟨header, hnarrow⟩ f

/-- Marks are shown by number, so names do not show in a chart. -/
theorem Selection.text_chart_rename (s : Selection) :
    (s.rename σ).chart.text = s.chart.text := by
  have hwidth : (s.rename σ).chart.width = s.chart.width := by
    simp [Chart.width, Chart.header, chart, rename, Table.rename]
  have hheight : (s.rename σ).chart.height = s.chart.height := by
    simp [Chart.height, Chart.header, chart, rename, Table.rename]
  rw [Chart.text_eq, Chart.text_eq, hwidth, hheight]
  rfl

end

/-- Reading, finding the columns and marking the rows all commute with the permutation. -/
theorem Selection.outcome_ofText_map_letterwise (ρ : Equiv.Perm Letter) (limits : Limits)
    (text : List Char) :
    (ofText limits (text.map (letterwise ρ)) none).outcome =
      renameOutcome (letterwise ρ) (ofText limits text none).outcome := by
  rw [outcome_ofText, outcome_ofText, Formula.outcome_parse_map_letterwise]
  cases (Formula.parse limits text).outcome with
  | error e => rfl
  | ok f =>
      rw [Option.getD_none, Option.getD_none, Header.ofText_map_letterwise]
      exact f.outcome_tabulate_rename (letterwise ρ) limits (Header.ofText text)

/-- **Row numbers depend on the shape of a text, not on its letters.** Under a permutation
of the letters an evaluation with the columns of the text succeeds as before, with the other
names for its columns, the same number of rows, the same numbers marked and the same chart;
or it fails as before, at the same place and with the same numbers, and what it found has
its other name. -/
theorem Selection.rows_independent_of_letters (ρ : Equiv.Perm Letter) (limits : Limits)
    (text : List Char) :
    match (ofText limits text none).outcome,
        (ofText limits (text.map (letterwise ρ)) none).outcome with
    | .ok s, .ok s' =>
        s'.table.header.names = s.table.header.names.map (letterwise ρ)
          ∧ s'.table.size = s.table.size ∧ s'.marked = s.marked ∧ s'.chart.text = s.chart.text
    | .error e, .error e' => e' = e.rename (letterwise ρ)
    | _, _ => False := by
  rw [outcome_ofText_map_letterwise]
  cases (ofText limits text none).outcome with
  | error e => rfl
  | ok s =>
      exact ⟨rfl, s.table.size_rename (letterwise ρ), rfl, s.text_chart_rename (letterwise ρ)⟩

/-- The first letter has the lowest bit, whichever letter it is. -/
example : (Selection.ofText {} ['B', '\\', 'A'] none).outcome.map Selection.marked =
    (Selection.ofText {} ['A', '\\', 'B'] none).outcome.map Selection.marked := rfl

end TruthTable
