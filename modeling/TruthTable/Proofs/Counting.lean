import Mathlib.Algebra.Group.Nat.Defs
import Mathlib.Data.Fintype.Prod
import TruthTable.Proofs.FiniteSets
import TruthTable.Proofs.Valuations

/-!
# Counting models

How many of the rows of a table are models of a formula depends on the table, but what share
of them does not. The two tables may number the shared variables differently and each may
have columns that the other lacks, so there is no matching of row with row. There is one of
pairs: a row of each table can exchange the values of the variables that both have
(`Row.exchange`). Exchanging twice changes nothing, and since the variables of the formula
are among the shared ones, it takes the pairs whose first row is a model to those whose
second row is one (`card_pairs_eq`). Counting both kinds of pairs gives the law.
-/

namespace TruthTable

/-! ## Rows as a finite type -/

namespace Row

variable {header : Header}

def equivFin (header : Header) : Fin header.rowCount ≃ Row header where
  toFun i := ⟨i, i.isLt⟩
  invFun row := ⟨row.id, row.id_lt⟩
  left_inv _ := rfl
  right_inv _ := rfl

instance : Fintype (Row header) := .ofEquiv _ (equivFin header)

theorem card_eq_two_pow (header : Header) : Fintype.card (Row header) = 2 ^ header.size := by
  rw [← Fintype.card_congr (equivFin header), Fintype.card_fin, Header.rowCount_eq_two_pow]

end Row

/-- A set with nothing beyond a table has as many members as it has rows of the table. -/
theorem RowSet.card_eq_card_filter {header : Header} {s : RowSet}
    (h : ∀ i ∈ s, i < header.rowCount) :
    s.card = (Finset.univ.filter fun row : Row header => row.id ∈ s).card := by
  have himage : s.members =
      (Finset.univ.filter fun row : Row header => row.id ∈ s).image Row.id := by
    ext i
    simp only [mem_members, Finset.mem_image, Finset.mem_filter, Finset.mem_univ, true_and]
    constructor
    · exact fun hi => ⟨⟨i, h i hi⟩, hi, rfl⟩
    · rintro ⟨row, hrow, rfl⟩
      exact hrow
  have hinj : Function.Injective (@Row.id header) := fun _ _ => Row.ext
  rw [← card_members, himage, Finset.card_image_of_injective _ hinj]

/-! ## Exchanging values -/

namespace Row

variable {h h' : Header} {x : Char}

/-- The row with the values that another one, of another table, gives to the variables of
both. -/
def withValuesOf (i : Row h) (j : Row h') : Row h :=
  ofTruth h fun x => if x ∈ h' then j.truth x else i.truth x

theorem truth_withValuesOf (i : Row h) (j : Row h') (hx : x ∈ h) :
    (i.withValuesOf j).truth x = if x ∈ h' then j.truth x else i.truth x :=
  truth_ofTruth hx

/-- Giving the values back undoes it. -/
theorem withValuesOf_withValuesOf (i : Row h) (j : Row h') :
    (i.withValuesOf j).withValuesOf (j.withValuesOf i) = i := by
  refine ext_truth fun x hx => ?_
  rw [truth_withValuesOf _ _ hx]
  split
  · next hx' => rw [truth_withValuesOf j i hx', if_pos hx]
  · next hx' => rw [truth_withValuesOf i j hx, if_neg hx']

/-- Two rows, each with the values that the other one gives to the variables of both. -/
def exchange (p : Row h × Row h') : Row h × Row h' :=
  (p.1.withValuesOf p.2, p.2.withValuesOf p.1)

theorem exchange_exchange (p : Row h × Row h') : exchange (exchange p) = p :=
  Prod.ext (p.1.withValuesOf_withValuesOf p.2) (p.2.withValuesOf_withValuesOf p.1)

end Row

/-! ## The share of the models -/

namespace Formula

variable {f : Formula} {t u : Table} {a b : RowSet}

/-- The values that a formula is about are among those exchanged, so they make a model of
the row that receives them if they come from one. -/
theorem withValuesOf_mem_models_iff (ha : f.models t = .ok a) (hb : f.models u = .ok b)
    (i : Row t.header) (j : Row u.header) : (i.withValuesOf j).id ∈ a ↔ j.id ∈ b := by
  refine mem_models_congr ha hb fun x hx => ?_
  have ht := missing?_eq_none_iff.mp (missing?_of_models ha) x hx
  have hu := missing?_eq_none_iff.mp (missing?_of_models hb) x hx
  rw [Row.truth_withValuesOf i j ht, if_pos hu]

/-- As many pairs of rows have a model in the first table as have one in the second. -/
theorem card_pairs_eq (ha : f.models t = .ok a) (hb : f.models u = .ok b) :
    ((Finset.univ.filter fun i : Row t.header => i.id ∈ a)
        ×ˢ (Finset.univ : Finset (Row u.header))).card
      = ((Finset.univ : Finset (Row t.header))
        ×ˢ Finset.univ.filter fun j : Row u.header => j.id ∈ b).card := by
  refine Finset.card_nbij' Row.exchange Row.exchange ?_ ?_
    (fun p _ => Row.exchange_exchange p) fun p _ => Row.exchange_exchange p
  · intro p hp
    simp only [Finset.coe_product, Set.mem_prod, Finset.mem_coe, Finset.mem_filter,
      Finset.mem_univ, true_and, and_true] at hp ⊢
    exact (withValuesOf_mem_models_iff hb ha p.2 p.1).mpr hp
  · intro p hp
    simp only [Finset.coe_product, Set.mem_prod, Finset.mem_coe, Finset.mem_filter,
      Finset.mem_univ, true_and, and_true] at hp ⊢
    exact (withValuesOf_mem_models_iff ha hb p.1 p.2).mpr hp

/-- **The share of the models is a property of the formula.** Two tables with a column for
each variable of a formula, in any order and with any other columns, have its models in
proportion to their rows. -/
theorem card_models_proportional (f : Formula) (t u : Table) (ht : ∀ x ∈ f.vars, x ∈ t.header)
    (hu : ∀ x ∈ f.vars, x ∈ u.header) :
    ∃ a b, f.models t = .ok a ∧ f.models u = .ok b
      ∧ a.card * 2 ^ u.header.size = b.card * 2 ^ t.header.size := by
  obtain ⟨a, ha, -⟩ := models_eq_ok (missing?_eq_none_iff.mpr ht)
  obtain ⟨b, hb, -⟩ := models_eq_ok (missing?_eq_none_iff.mpr hu)
  refine ⟨a, b, ha, hb, ?_⟩
  have hpairs := card_pairs_eq ha hb
  rw [Finset.card_product, Finset.card_product, Finset.card_univ, Finset.card_univ,
    ← RowSet.card_eq_card_filter fun _ => lt_size_of_models ha,
    ← RowSet.card_eq_card_filter fun _ => lt_size_of_models hb,
    Row.card_eq_two_pow, Row.card_eq_two_pow] at hpairs
  rw [hpairs, Nat.mul_comm]

/-- One row of four, and two of eight. -/
theorem card_models_aWithoutB :
    (∀ x ∈ aWithoutB.vars, x ∈ narrowTable.header)
      ∧ (∀ x ∈ aWithoutB.vars, x ∈ wideTable.header)
      ∧ ∃ a b, aWithoutB.models narrowTable = .ok a ∧ aWithoutB.models wideTable = .ok b
          ∧ a.card = 1 ∧ b.card = 2 ∧ a.card * 2 ^ 3 = b.card * 2 ^ 2 := by
  have hnarrow : ∀ x ∈ aWithoutB.vars, x ∈ narrowTable.header := by
    simp [aWithoutB, vars, narrowTable, Header.mem_def]
  have hwide : ∀ x ∈ aWithoutB.vars, x ∈ wideTable.header := by
    simp [aWithoutB, vars, wideTable, Header.mem_def]
  obtain ⟨a, b, ha, hb, hcard⟩ := card_models_proportional _ _ _ hnarrow hwide
  have ha' : aWithoutB.models narrowTable = .ok (.ofList [1]) := by rfl
  have hb' : aWithoutB.models wideTable = .ok (.ofList [4, 5]) := by rfl
  obtain rfl := Except.ok.inj (ha.symm.trans ha')
  obtain rfl := Except.ok.inj (hb.symm.trans hb')
  exact ⟨hnarrow, hwide, _, _, ha, hb, by rfl, by rfl, hcard⟩

end Formula

end TruthTable
