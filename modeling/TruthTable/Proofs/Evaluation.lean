import TruthTable.Proofs.Valuations
import TruthTable.Selection

/-!
# What decides an evaluation

An evaluation under a given header makes four checks, and the first that fails names the
fault: the text must be a formula, the columns no more than allowed, then no more than a
table can have, and every variable must have a column. The lemmas take them one by one, each
under the conditions that the checks before it have passed; if none fails there is a table
under the very header that was given, with the models of the formula marked.

The number of rows fits in a word of 64 bits, and so does every step towards it: `1` moved
up by the number of columns loses no bit (`Table.toNat_shiftLeft_size`). It is the width of
a table that sees to this, not what the caller allows.
-/

namespace TruthTable

/-! ## The number of rows -/

namespace Table

theorem size_lt_two_pow (t : Table) : t.size < 2 ^ 64 := by
  rw [size_eq_two_pow]
  exact Nat.pow_lt_pow_right (by decide) (Nat.lt_succ_of_le t.narrow)

theorem toNat_shiftLeft_size (t : Table) : (1#64 <<< t.header.size).toNat = t.size := by
  rw [BitVec.toNat_shiftLeft, BitVec.toNat_ofNat, Nat.one_mod_eq_one.mpr (by decide)]
  exact Nat.mod_eq_of_lt t.size_lt_two_pow

end Table

/-! ## The checks of a table -/

namespace Formula

variable {limits : Limits} {header : Header} {f : Formula}

theorem outcome_tabulate_of_many (h : limits.maxVariables < header.size) :
    (f.tabulate limits header).outcome =
      .error (.tooMany header.size limits.maxVariables) := by
  rw [tabulate_eq, if_pos h]

theorem outcome_tabulate_of_wide (hallowed : header.size ≤ limits.maxVariables)
    (h : maxColumns < header.size) :
    (f.tabulate limits header).outcome = .error (.tooMany header.size maxColumns) := by
  rw [tabulate_eq, if_neg (Nat.not_lt.mpr hallowed), Table.ofHeader_of_lt_size h]

theorem outcome_tabulate_of_narrow (hallowed : header.size ≤ limits.maxVariables)
    (hnarrow : header.size ≤ maxColumns) :
    (f.tabulate limits header).outcome = Selection.ofFormula ⟨header, hnarrow⟩ f := by
  rw [tabulate_eq, if_neg (Nat.not_lt.mpr hallowed), Table.ofHeader_of_size_le hnarrow]

theorem outcome_tabulate_of_missing {x : Char} (hallowed : header.size ≤ limits.maxVariables)
    (hnarrow : header.size ≤ maxColumns) (h : f.missing? header = some x) :
    (f.tabulate limits header).outcome = .error (.undefined x) := by
  rw [outcome_tabulate_of_narrow hallowed hnarrow]
  exact Selection.ofFormula_of_error (models_eq_error h)

theorem exists_outcome_tabulate (hallowed : header.size ≤ limits.maxVariables)
    (hnarrow : header.size ≤ maxColumns) (h : f.missing? header = none) :
    ∃ s, (f.tabulate limits header).outcome = .ok s ∧ s.table.header = header
      ∧ f.models s.table = .ok s.marked := by
  obtain ⟨a, ha, -⟩ := models_eq_ok (t := ⟨header, hnarrow⟩) h
  obtain ⟨s, hs⟩ : ∃ s, Selection.ofFormula ⟨header, hnarrow⟩ f = .ok s :=
    ⟨_, Selection.ofFormula_of_models ha⟩
  have hok : (f.tabulate limits header).outcome = .ok s :=
    (outcome_tabulate_of_narrow hallowed hnarrow).trans hs
  obtain ⟨-, hheader, hmodels⟩ := outcome_tabulate_eq_ok_iff.mp hok
  exact ⟨s, hok, hheader, hmodels⟩

theorem error_tabulate_cases {e : Fault}
    (he : (f.tabulate limits header).outcome = .error e) :
    (∃ limit, e = .tooMany header.size limit) ∨ ∃ x, e = .undefined x := by
  rcases Nat.lt_or_ge limits.maxVariables header.size with hmany | hallowed
  · exact .inl ⟨_, Except.error.inj (he.symm.trans (outcome_tabulate_of_many hmany))⟩
  rcases Nat.lt_or_ge maxColumns header.size with hwide | hnarrow
  · exact .inl ⟨_, Except.error.inj (he.symm.trans (outcome_tabulate_of_wide hallowed hwide))⟩
  cases hmissing : f.missing? header with
  | some x =>
      have hundefined := outcome_tabulate_of_missing hallowed hnarrow hmissing
      exact .inr ⟨x, Except.error.inj (he.symm.trans hundefined)⟩
  | none =>
      obtain ⟨s, hs, -⟩ := exists_outcome_tabulate hallowed hnarrow hmissing
      cases he.symm.trans hs

end Formula

/-! ## The checks of a text -/

namespace Selection

/-- **The first check that fails decides.** Under a given header, an evaluation fails with
the fault of the text if there is one; else with more columns than allowed; else with more
columns than a table can have; else with the first variable from the left that has no
column. Otherwise the columns are those of the header, in its order, the rows are two to the
power of their number, which a word of 64 bits holds, and those are marked where the formula
is true. -/
theorem outcome_ofText_some (limits : Limits) (text : List Char) (header : Header) :
    match (Formula.parse limits text).outcome with
    | .error e => (ofText limits text (some header)).outcome = .error (.misread e)
    | .ok f =>
      if limits.maxVariables < header.size then
        (ofText limits text (some header)).outcome =
          .error (.tooMany header.size limits.maxVariables)
      else if 64 ≤ header.size then
        (ofText limits text (some header)).outcome = .error (.tooMany header.size 63)
      else
        match f.vars.find? (· ∉ header) with
        | some x => (ofText limits text (some header)).outcome = .error (.undefined x)
        | none => ∃ s, (ofText limits text (some header)).outcome = .ok s
            ∧ s.table.header = header ∧ s.table.size = 2 ^ header.size
            ∧ (1#64 <<< header.size).toNat = s.table.size
            ∧ f.models s.table = .ok s.marked := by
  have hout := outcome_ofText limits text (some header)
  cases hparse : (Formula.parse limits text).outcome with
  | error e =>
      rw [hparse] at hout
      exact hout
  | ok f =>
      simp only [hparse, Option.getD_some] at hout
      simp only [hout]
      by_cases hmany : limits.maxVariables < header.size
      · rw [if_pos hmany]
        exact Formula.outcome_tabulate_of_many hmany
      have hallowed := Nat.not_lt.mp hmany
      rw [if_neg hmany]
      by_cases hwide : 64 ≤ header.size
      · rw [if_pos hwide]
        exact Formula.outcome_tabulate_of_wide hallowed hwide
      have hnarrow : header.size ≤ maxColumns := Nat.le_of_lt_succ (Nat.not_le.mp hwide)
      rw [if_neg hwide]
      cases hmissing : f.vars.find? (· ∉ header) with
      | some x => exact Formula.outcome_tabulate_of_missing hallowed hnarrow hmissing
      | none =>
          obtain ⟨s, hs, hheader, hmodels⟩ :=
            Formula.exists_outcome_tabulate hallowed hnarrow hmissing
          have hshift := s.table.toNat_shiftLeft_size
          have hsize := s.table.size_eq_two_pow
          rw [hheader] at hshift hsize
          exact ⟨s, hs, hheader, hsize, hshift, hmodels⟩

/-- There is one column too many and none for `A`. -/
example : (ofText { maxVariables := 0 } ['A', '|', 'B'] (some ⟨['B'], by decide⟩)).outcome =
    .error (.tooMany 1 0) := rfl

end Selection

end TruthTable
