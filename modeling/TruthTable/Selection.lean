import TruthTable.Journal
import TruthTable.Reader
import TruthTable.Table

/-!
# Selections

A `Selection` is a table with some of its rows marked. The rows may be given by number,
or be the models of a formula; `Selection.ofText` reads the formula first, and takes the
columns from the caller or else from the letters of the text.

An evaluation makes its checks in this order: the text must be a formula, the columns
must not be more than the caller allows, nor more than a table can have, and every
variable must have a column. Each step leaves its note before the next check.
-/

namespace TruthTable

/-- A table and the numbers of its marked rows. -/
structure Selection where
  table : Table
  marked : RowSet
  lt_size : ∀ i ∈ marked, i < table.size
deriving DecidableEq

namespace Selection

/-- Mark the rows of a table that have the given numbers. -/
def ofSet (table : Table) (s : RowSet) : Selection where
  table := table
  marked := s.clip table.size
  lt_size _ h := (RowSet.mem_clip.mp h).1

/-- Mark the rows of a table where a formula is true. -/
def ofFormula (table : Table) (f : Formula) : Except Fault Selection :=
  match h : f.models table with
  | .ok s => .ok ⟨table, s, fun _ => Formula.lt_size_of_models h⟩
  | .error e => .error e

theorem ofFormula_of_models {t : Table} {f : Formula} {s : RowSet}
    (h : f.models t = .ok s) :
    ofFormula t f = .ok ⟨t, s, fun _ => Formula.lt_size_of_models h⟩ := by
  unfold ofFormula
  split
  · next s' hs' =>
    obtain rfl := Except.ok.inj (h.symm.trans hs')
    rfl
  · next e he => cases h.symm.trans he

theorem ofFormula_of_error {t : Table} {f : Formula} {e : Fault} (h : f.models t = .error e) :
    ofFormula t f = .error e := by
  unfold ofFormula
  split
  · next s hs => cases h.symm.trans hs
  · next e' he =>
    obtain rfl := Except.error.inj (h.symm.trans he)
    rfl

theorem ofFormula_eq_ok_iff {t : Table} {f : Formula} {s : Selection} :
    ofFormula t f = .ok s ↔ s.table = t ∧ f.models t = .ok s.marked := by
  constructor
  · intro h
    unfold ofFormula at h
    split at h
    · next a ha =>
      obtain rfl := Except.ok.inj h
      exact ⟨rfl, ha⟩
    · cases h
  · obtain ⟨t, a, hlt⟩ := s
    rintro ⟨rfl, ha⟩
    exact ofFormula_of_models ha

def contains (s : Selection) (row : Row s.table.header) : Bool := row.id ∈ s.marked

def rows (s : Selection) : List (Row s.table.header) := s.table.select s.marked

end Selection

/-- Mark the rows where a formula is true in the table under a header. -/
def Formula.tabulate (limits : Limits) (header : Header) (f : Formula) :
    Logged Fault Selection := do
  .note (.columns header)
  if limits.maxVariables < header.size then
    .ofExcept (.error (.tooMany header.size limits.maxVariables))
  else
    let table ← .ofExcept (Table.ofHeader header)
    .note (.rows table.size)
    .ofExcept (Selection.ofFormula table f)

/-- What is tabulated, and what is noted on the way. -/
theorem Formula.tabulate_eq (limits : Limits) (header : Header) (f : Formula) :
    f.tabulate limits header =
      if limits.maxVariables < header.size then
        ⟨.error (.tooMany header.size limits.maxVariables), [.columns header]⟩
      else
        match Table.ofHeader header with
        | .error e => ⟨.error e, [.columns header]⟩
        | .ok t => ⟨Selection.ofFormula t f, [.columns header, .rows t.size]⟩ := by
  unfold tabulate
  split
  · rfl
  · cases Table.ofHeader header <;> rfl

/-- What comes out marks the models of the formula in the table under the header. -/
theorem Formula.outcome_tabulate_eq_ok_iff {limits : Limits} {header : Header} {f : Formula}
    {s : Selection} :
    (f.tabulate limits header).outcome = .ok s ↔
      header.size ≤ limits.maxVariables ∧ s.table.header = header
        ∧ f.models s.table = .ok s.marked := by
  rw [tabulate_eq]
  split
  · next h => exact ⟨nofun, fun hs => absurd hs.1 (Nat.not_le.mpr h)⟩
  · next h =>
    rw [and_iff_right (Nat.not_lt.mp h)]
    split
    · next e he =>
      refine ⟨nofun, fun hs => ?_⟩
      cases he.symm.trans (Table.ofHeader_eq_ok_iff.mpr hs.1)
    · next t ht =>
      rw [Selection.ofFormula_eq_ok_iff]
      constructor
      · rintro ⟨rfl, ha⟩
        exact ⟨Table.ofHeader_eq_ok_iff.mp ht, ha⟩
      · rintro ⟨hheader, ha⟩
        have htable := ht.symm.trans (Table.ofHeader_eq_ok_iff.mpr hheader)
        obtain rfl := Except.ok.inj htable
        exact ⟨rfl, ha⟩

/-- Read a formula and mark the rows where it is true. Without a header, each letter of
the text gets a column, those after the end of the formula included. -/
def Selection.ofText (limits : Limits) (text : List Char) (header? : Option Header) :
    Logged Fault Selection := do
  let f ← (Formula.parse limits text).mapError .misread
  f.tabulate limits (header?.getD (Header.ofText text))

theorem Selection.outcome_ofText (limits : Limits) (text : List Char)
    (header? : Option Header) :
    (ofText limits text header?).outcome =
      match (Formula.parse limits text).outcome with
      | .error e => .error (.misread e)
      | .ok f => (f.tabulate limits (header?.getD (Header.ofText text))).outcome := by
  rw [ofText, Logged.outcome_bind, Logged.mapError]
  cases (Formula.parse limits text).outcome <;> rfl

theorem Selection.outcome_ofText_eq_ok_iff {limits : Limits} {text : List Char}
    {header? : Option Header} {s : Selection} :
    (ofText limits text header?).outcome = .ok s ↔
      ∃ f, (Formula.parse limits text).outcome = .ok f
        ∧ (f.tabulate limits (header?.getD (Header.ofText text))).outcome = .ok s := by
  rw [outcome_ofText]
  cases (Formula.parse limits text).outcome <;> simp

end TruthTable
