import Mathlib.Algebra.Group.Nat.Defs
import TruthTable.Proofs.Columns
import TruthTable.Proofs.Tails
import TruthTable.Proofs.Valuations

/-!
# The columns of an ignored tail

A tail that is ignored still has letters, and an evaluation without a header of its own gives
them columns. They do not disturb the formula before the tail.

- The text up to the tail is read as the same formula (`Formula.parse_take_of_halt`), so both
  evaluations mark the models of one formula.
- Its letters come first, and a letter that is repeated in the tail has its column already;
  so what the tail adds are columns behind those there are
  (`Header.names_ofText_take_prefix`), and these are the high bits of a row number.

Fewer columns are within any bound that more columns are within, so the evaluation of the
shorter text does not fail either.
-/

namespace TruthTable

namespace Selection

variable {limits : Limits} {text : List Char} {s : Selection} {pos : Nat} {x : Char}

/-- What an evaluation marks are the models of the formula that it read, in the table of the
letters. -/
theorem exists_models_of_ofText (h : (ofText limits text none).outcome = .ok s) :
    ∃ f, (Formula.parse limits text).outcome = .ok f
      ∧ (Header.ofText text).size ≤ limits.maxVariables
      ∧ s.table.header = Header.ofText text ∧ f.models s.table = .ok s.marked := by
  obtain ⟨f, hparse, htabulate⟩ := outcome_ofText_eq_ok_iff.mp h
  exact ⟨f, hparse, Formula.outcome_tabulate_eq_ok_iff.mp htabulate⟩

/-- **An ignored tail adds only high bits.** Where a formula is followed by something that
is ignored, the text up to it can be evaluated alone. Its columns are the first of those of
the whole text, and a row of the larger table is marked when the row that its low bits
number is marked in the smaller one. -/
theorem ofText_take_of_trailing
    (hs : (ofText { limits with tail := .ignore } text none).outcome = .ok s)
    (htrailing : (Formula.parse { limits with tail := .reject } text).outcome =
      .error (.trailing pos x)) :
    ∃ r, (ofText { limits with tail := .reject } (text.take pos) none).outcome = .ok r
      ∧ r.table.header.names <+: s.table.header.names
      ∧ ∀ id, id < s.table.size →
          (id ∈ s.marked ↔ id % 2 ^ r.table.header.size ∈ r.marked) := by
  obtain ⟨f, t, rest, hout, hrest, rfl⟩ := Formula.exists_halt_of_trailing htrailing
  have hstrict := Formula.parse_take_of_halt hout hrest
  obtain ⟨g, hlenient, hsize, hheader, hmodels⟩ := exists_models_of_ofText hs
  -- the run is the same in both modes, and so is the formula
  obtain rfl : f = g :=
    Except.ok.inj (hout.symm.trans (Formula.parse_eq_ok_iff_halt.mp hlenient).1)
  have hprefix := Header.names_ofText_take_prefix text t.pos
  have hfewer : (Header.ofText (text.take t.pos)).size ≤ limits.maxVariables :=
    Nat.le_trans hprefix.length_le hsize
  obtain ⟨r, hr⟩ := exists_ofText_none_iff.mpr ⟨⟨f, hstrict⟩, hfewer⟩
  obtain ⟨g, hg, -, hheader', hmodels'⟩ := exists_models_of_ofText hr
  obtain rfl := Except.ok.inj (hstrict.symm.trans hg)
  rw [← hheader, ← hheader'] at hprefix
  refine ⟨r, hr, hprefix, fun id hid => ?_⟩
  obtain ⟨extra, hextra⟩ := hprefix
  rw [← r.table.size_eq_two_pow]
  exact (Formula.mod_mem_models_iff hmodels' hmodels hextra.symm hid).symm

/-- The tail repeats `A` and adds `C`. -/
def repeatedTail : List Char := ['B', '\\', 'A', ' ', 'A', 'C']

/-- Rows 1 and 5 differ in the bit of `C` only. -/
theorem ofText_take_of_trailing_repeatedTail :
    ∃ s r, (ofText { tail := .ignore } repeatedTail none).outcome = .ok s
      ∧ (Formula.parse {} repeatedTail).outcome = .error (.trailing 4 'A')
      ∧ (ofText {} ['B', '\\', 'A', ' '] none).outcome = .ok r
      ∧ s.table.header.names = ['B', 'A', 'C'] ∧ s.marked = .ofList [1, 5]
      ∧ r.table.header.names = ['B', 'A']
      ∧ (1 ∈ s.marked ↔ 1 ∈ r.marked) ∧ (5 ∈ s.marked ↔ 1 ∈ r.marked) := by
  have htrailing : (Formula.parse {} repeatedTail).outcome = .error (.trailing 4 'A') := rfl
  obtain ⟨s, hs, hnames, hmarked⟩ : ∃ s,
      (ofText { tail := .ignore } repeatedTail none).outcome = .ok s
        ∧ s.table.header.names = ['B', 'A', 'C'] ∧ s.marked = .ofList [1, 5] :=
    ⟨_, rfl, rfl, rfl⟩
  obtain ⟨r, hr, -, hrows⟩ := @ofText_take_of_trailing {} repeatedTail s 4 'A' hs htrailing
  have hcolumns : r.table.header.names = ['B', 'A'] := by
    obtain ⟨g, -, -, hheader, -⟩ := exists_models_of_ofText hr
    rw [hheader]
    rfl
  have hsize : s.table.size = 8 := by
    rw [Table.size, Header.rowCount, Header.size, hnames]
    rfl
  have hfew : r.table.header.size = 2 := by rw [Header.size, hcolumns]; rfl
  have h1 := hrows 1 (by omega)
  have h5 := hrows 5 (by omega)
  rw [hfew] at h1 h5
  exact ⟨s, r, hs, htrailing, hr, hnames, hmarked, hcolumns, h1, h5⟩

end Selection

end TruthTable
