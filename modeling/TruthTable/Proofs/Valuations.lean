import Mathlib.Algebra.Group.Nat.Defs
import Mathlib.Data.Fin.Rev
import Mathlib.Data.Nat.Init
import TruthTable.Proofs.RowEvaluation

/-!
# Rows and valuations

A row is a number, and what the number stands for depends on the header: two tables give the
variables other bits and other columns beside them. What two tables share is the valuations.
Every valuation is that of some row (`Row.ofTruth`), as far as the header goes, and a row is
the only one with its values (`Row.ext_truth`); so a statement about all rows of a table is
one about all valuations, and no table appears in it any more.

- Comparing the models of two formulas compares the formulas (`forall_mem_models_iff`), and
  the verdict is the same in every table that has their variables.
- Whether a row is a model depends on the values of the variables used, in whichever table
  they are given (`mem_models_congr`). Another order of the columns permutes the bits of the
  models, and further columns repeat them.
-/

namespace TruthTable

/-! ## The row of a valuation -/

theorem Header.rowCount_eq_two_pow (h : Header) :
    h.rowCount = 2 ^ h.size := Nat.one_shiftLeft _

theorem Table.size_eq_two_pow (t : Table) : t.size = 2 ^ t.header.size :=
  t.header.rowCount_eq_two_pow

namespace Header

variable {h : Header} {x : Char}

/-- The variable of a column. -/
def nameAt (h : Header) (j : Fin h.size) : Char := h.names.get j

theorem index?_eq_some_iff_nameAt {j : Fin h.size} :
    h.index? x = some j.val ↔ h.nameAt j = x := by
  rw [index?_eq_some_iff, get?, List.getElem?_eq_some_iff]
  constructor
  · rintro ⟨_, hx⟩
    exact hx
  · exact fun hx => ⟨j.isLt, hx⟩

theorem exists_index? (hx : x ∈ h) : ∃ j : Fin h.size, h.index? x = some j.val := by
  cases hj : h.index? x with
  | none => exact absurd hx (index?_eq_none_iff.mp hj)
  | some j => exact ⟨⟨j, lt_size_of_index? hj⟩, rfl⟩

end Header

namespace Row

variable {header : Header} {v : Char → Bool} {x : Char}

/-- The row that gives every column the value it has under a valuation. -/
def ofTruth (header : Header) (v : Char → Bool) : Row header where
  id := Nat.ofBits fun j => v (header.nameAt j)
  id_lt := by
    rw [Header.rowCount, Nat.one_shiftLeft]
    exact Nat.ofBits_lt_two_pow _

theorem truth_ofTruth (hx : x ∈ header) : (ofTruth header v).truth x = v x := by
  obtain ⟨j, hj⟩ := Header.exists_index? hx
  have hbit : (ofTruth header v).id.testBit j = v (header.nameAt j) :=
    Nat.testBit_ofBits_lt _ _ j.isLt
  rw [truth, hj]
  exact hbit.trans (congrArg v (Header.index?_eq_some_iff_nameAt.mp hj))

theorem ofTruth_congr {w : Char → Bool} (hvw : ∀ x ∈ header, v x = w x) :
    ofTruth header v = ofTruth header w := by
  have hcolumns : (fun j => v (header.nameAt j)) = fun j => w (header.nameAt j) :=
    funext fun j => hvw _ (List.get_mem header.names j)
  exact ext (congrArg Nat.ofBits hcolumns)

/-- A row is the row of its truth values. -/
theorem ofTruth_truth (row : Row header) : ofTruth header row.truth = row := by
  refine ext (Nat.eq_of_testBit_eq fun k => ?_)
  rcases Nat.lt_or_ge k header.size with hk | hk
  · have hindex : header.index? (header.nameAt ⟨k, hk⟩) = some k :=
      Header.index?_eq_some_iff_nameAt.mpr rfl
    have hbit : (ofTruth header row.truth).id.testBit k = row.truth (header.nameAt ⟨k, hk⟩) :=
      Nat.testBit_ofBits_lt _ _ hk
    rw [hbit, truth, hindex]
  · have hbit : (ofTruth header row.truth).id.testBit k = false :=
      Nat.testBit_ofBits_ge _ _ hk
    have hid : row.id < 2 ^ k := by
      have hlt := row.id_lt
      rw [Header.rowCount_eq_two_pow] at hlt
      exact Nat.lt_of_lt_of_le hlt (Nat.pow_le_pow_right (by decide) hk)
    rw [hbit, Nat.testBit_lt_two_pow hid]

theorem ext_truth {a b : Row header} (hab : ∀ x ∈ header, a.truth x = b.truth x) : a = b := by
  rw [← ofTruth_truth a, ← ofTruth_truth b, ofTruth_congr hab]

end Row

namespace Formula

variable {f g : Formula} {t u : Table} {a b : RowSet}

theorem missing?_of_models (h : f.models t = .ok a) : f.missing? t.header = none := by
  cases hx : f.missing? t.header with
  | none => rfl
  | some x => cases h.symm.trans (models_eq_error hx)

theorem mem_models_iff (h : f.models t = .ok a) (row : Row t.header) :
    row.id ∈ a ↔ f.holds row.truth = true := by
  obtain ⟨s, hs, hmem⟩ := models_eq_ok (missing?_of_models h)
  obtain rfl := Except.ok.inj (h.symm.trans hs)
  exact hmem row

theorem ofTruth_mem_models_iff (h : f.models t = .ok a) (v : Char → Bool) :
    (Row.ofTruth t.header v).id ∈ a ↔ f.holds v = true := by
  have hvars := missing?_eq_none_iff.mp (missing?_of_models h)
  rw [mem_models_iff h, holds_congr fun x hx => Row.truth_ofTruth (hvars x hx)]

/-! ## Comparing formulas -/

/-- Numbers beyond the table are in neither set, hence the condition on the relation. -/
theorem forall_mem_models_iff {R : Prop → Prop → Prop} (hR : R False False)
    (ha : f.models t = .ok a) (hb : g.models t = .ok b) :
    (∀ i, R (i ∈ a) (i ∈ b)) ↔ ∀ v, R (f.holds v = true) (g.holds v = true) := by
  constructor
  · intro h v
    have hrow := h (Row.ofTruth t.header v).id
    rwa [ofTruth_mem_models_iff ha, ofTruth_mem_models_iff hb] at hrow
  · intro h i
    by_cases hi : i < t.size
    · have hrow := h (Row.mk i hi : Row t.header).truth
      rwa [← mem_models_iff ha, ← mem_models_iff hb] at hrow
    · have hia : i ∉ a := fun hmem => hi (lt_size_of_models ha hmem)
      have hib : i ∉ b := fun hmem => hi (lt_size_of_models hb hmem)
      rwa [eq_false hia, eq_false hib]

theorem models_eq_iff (ha : f.models t = .ok a) (hb : g.models t = .ok b) :
    a = b ↔ ∀ v, f.holds v = g.holds v := by
  rw [RowSet.ext_iff, forall_mem_models_iff Iff.rfl ha hb]
  exact forall_congr' fun v => Bool.eq_iff_iff.symm

theorem models_subset_iff (ha : f.models t = .ok a) (hb : g.models t = .ok b) :
    a ⊆ b ↔ ∀ v, f.holds v = true → g.holds v = true :=
  forall_mem_models_iff (R := fun p q => p → q) id ha hb

theorem models_isDisjoint_iff (ha : f.models t = .ok a) (hb : g.models t = .ok b) :
    a.IsDisjoint b ↔ ∀ v, ¬(f.holds v = true ∧ g.holds v = true) := by
  have hiff := forall_mem_models_iff (R := fun p q => p → ¬q) (fun h _ => h) ha hb
  simp only [not_and]
  exact hiff

/-- **Comparisons are about the formulas.** Whether the models of two formulas are equal,
included in each other or disjoint is the same in any two tables that have the variables, and
says that the formulas are equivalent, that one implies the other, or that they exclude each
other. -/
theorem compare_models {c d : RowSet} (hft : f.models t = .ok a) (hgt : g.models t = .ok b)
    (hfu : f.models u = .ok c) (hgu : g.models u = .ok d) :
    ((a = b ↔ c = d) ∧ (a ⊆ b ↔ c ⊆ d) ∧ (a.IsDisjoint b ↔ c.IsDisjoint d))
      ∧ (a = b ↔ ∀ v, f.holds v = g.holds v)
      ∧ (a ⊆ b ↔ ∀ v, f.holds v = true → g.holds v = true)
      ∧ (a.IsDisjoint b ↔ ∀ v, ¬(f.holds v = true ∧ g.holds v = true)) := by
  have heq := models_eq_iff hft hgt
  have hsub := models_subset_iff hft hgt
  have hdis := models_isDisjoint_iff hft hgt
  refine ⟨⟨?_, ?_, ?_⟩, heq, hsub, hdis⟩
  · rw [heq, models_eq_iff hfu hgu]
  · rw [hsub, models_subset_iff hfu hgu]
  · rw [hdis, models_isDisjoint_iff hfu hgu]

/-- Two columns, and the same two after another one and in the other order. -/
def narrowTable : Table := ⟨⟨['A', 'B'], by decide⟩, by decide⟩

def wideTable : Table := ⟨⟨['C', 'B', 'A'], by decide⟩, by decide⟩

def aWithoutB : Formula := binary .difference (var 'A') (var 'B')

/-- `A\B` implies `A`, whether it has the row 1 or the rows 4 and 5. -/
theorem compare_models_aWithoutB :
    aWithoutB.models narrowTable = .ok (.ofList [1])
      ∧ (var 'A').models narrowTable = .ok (.ofList [1, 3])
      ∧ aWithoutB.models wideTable = .ok (.ofList [4, 5])
      ∧ (var 'A').models wideTable = .ok (.ofList [4, 5, 6, 7])
      ∧ (RowSet.ofList [1] ⊆ .ofList [1, 3] ↔ RowSet.ofList [4, 5] ⊆ .ofList [4, 5, 6, 7])
      ∧ (RowSet.ofList [1] ⊆ .ofList [1, 3] ↔
          ∀ v : Char → Bool, aWithoutB.holds v = true → (var 'A').holds v = true) := by
  have hft : aWithoutB.models narrowTable = .ok (.ofList [1]) := by rfl
  have hgt : (var 'A').models narrowTable = .ok (.ofList [1, 3]) := by rfl
  have hfu : aWithoutB.models wideTable = .ok (.ofList [4, 5]) := by rfl
  have hgu : (var 'A').models wideTable = .ok (.ofList [4, 5, 6, 7]) := by rfl
  obtain ⟨⟨-, hsame, -⟩, -, hsub, -⟩ := compare_models hft hgt hfu hgu
  exact ⟨hft, hgt, hfu, hgu, hsame, hsub⟩

/-! ## One formula in two tables -/

theorem mem_models_congr (ha : f.models t = .ok a) (hb : f.models u = .ok b)
    {i : Row t.header} {j : Row u.header} (h : ∀ x ∈ f.vars, i.truth x = j.truth x) :
    i.id ∈ a ↔ j.id ∈ b := by
  rw [mem_models_iff ha, mem_models_iff hb, holds_congr h]

end Formula

/-- Bit `j` of the result is bit `σ j` of the number, for the first `n` bits. -/
def permuteBits {n : Nat} (σ : Equiv.Perm (Fin n)) (i : Nat) : Nat :=
  Nat.ofBits fun j => i.testBit (σ j)

section PermuteBits

variable {n : Nat} (σ : Equiv.Perm (Fin n))

theorem testBit_permuteBits (i : Nat) (j : Fin n) :
    (permuteBits σ i).testBit j = i.testBit (σ j) :=
  Nat.testBit_ofBits_lt _ _ j.isLt

theorem permuteBits_lt (i : Nat) : permuteBits σ i < 1 <<< n := by
  rw [Nat.one_shiftLeft]
  exact Nat.ofBits_lt_two_pow _

theorem permuteBits_permuteBits_symm {i : Nat} (hi : i < 1 <<< n) :
    permuteBits σ (permuteBits σ.symm i) = i := by
  rw [Nat.one_shiftLeft] at hi
  refine Nat.eq_of_testBit_eq fun k => ?_
  rcases Nat.lt_or_ge k n with hk | hk
  · rw [testBit_permuteBits σ _ ⟨k, hk⟩, testBit_permuteBits, Equiv.symm_apply_apply]
  · rw [permuteBits, Nat.testBit_ofBits_ge _ _ hk]
    have hlt := Nat.lt_of_lt_of_le hi (Nat.pow_le_pow_right (by decide) hk)
    exact (Nat.testBit_lt_two_pow hlt).symm

end PermuteBits

namespace Header

variable {h h' : Header} {x : Char}

theorem index?_of_reordered {σ : Equiv.Perm (Fin h.size)}
    (hnames : h'.names = List.ofFn fun j => h.nameAt (σ j)) {j : Fin h.size}
    (hj : h.index? x = some (σ j).val) : h'.index? x = some j.val := by
  rw [index?_eq_some_iff_nameAt] at hj
  rw [index?_eq_some_iff, get?, hnames, List.getElem?_ofFn, dif_pos j.isLt, hj]

theorem index?_of_extended {extra : List Char} (hnames : h'.names = h.names ++ extra)
    {j : Nat} (hj : h.index? x = some j) : h'.index? x = some j := by
  rw [index?_eq_some_iff, get?] at hj ⊢
  rw [hnames, List.getElem?_append_left (List.getElem?_eq_some_iff.mp hj).1, hj]

end Header

namespace Formula

variable {f : Formula} {t u : Table} {a b : RowSet}

theorem permuteBits_mem_models_iff (ha : f.models t = .ok a) (hb : f.models u = .ok b)
    {σ : Equiv.Perm (Fin t.header.size)}
    (hnames : u.header.names = List.ofFn fun j => t.header.nameAt (σ j)) {i : Nat}
    (hi : i < t.size) : permuteBits σ i ∈ b ↔ i ∈ a := by
  have hsize : u.header.size = t.header.size := by
    rw [Header.size, hnames, List.length_ofFn]
  have hlt : permuteBits σ i < u.header.rowCount := by
    rw [Header.rowCount, hsize]
    exact permuteBits_lt σ i
  refine (mem_models_congr ha hb (i := ⟨i, hi⟩) (j := ⟨_, hlt⟩) fun x hx => ?_).symm
  have hvars := missing?_eq_none_iff.mp (missing?_of_models ha)
  obtain ⟨j', hj'⟩ := Header.exists_index? (hvars x hx)
  obtain ⟨j, rfl⟩ := σ.surjective j'
  rw [Row.truth, Row.truth, hj', Header.index?_of_reordered hnames hj']
  exact (testBit_permuteBits σ i j).symm

theorem mod_mem_models_iff (ha : f.models t = .ok a) (hb : f.models u = .ok b)
    {extra : List Char} (hnames : u.header.names = t.header.names ++ extra) {k : Nat}
    (hk : k < u.size) : k % t.size ∈ a ↔ k ∈ b := by
  have hsize := t.size_eq_two_pow
  have hlt : k % t.size < t.header.rowCount :=
    Nat.mod_lt _ (hsize ▸ Nat.two_pow_pos t.header.size)
  refine mem_models_congr ha hb (i := ⟨_, hlt⟩) (j := ⟨k, hk⟩) fun x hx => ?_
  have hvars := missing?_eq_none_iff.mp (missing?_of_models ha)
  obtain ⟨j, hj⟩ := Header.exists_index? (hvars x hx)
  rw [Row.truth, Row.truth, hj, Header.index?_of_extended hnames hj]
  have hbit : (k % t.size).testBit j = k.testBit j := by
    rw [hsize, Nat.testBit_mod_two_pow, decide_eq_true j.isLt, Bool.true_and]
  exact hbit

/-- **Only the variables used matter.** Two tables with a column for each variable of a
formula both have its models, and rows that give the variables the same values, in whichever
columns, are models together. So another order of the columns permutes the bits of the
models, and further columns at the end repeat the models for all values of the new bits. -/
theorem models_depend_on_vars (f : Formula) (t u : Table) (ht : ∀ x ∈ f.vars, x ∈ t.header)
    (hu : ∀ x ∈ f.vars, x ∈ u.header) :
    ∃ a b, f.models t = .ok a ∧ f.models u = .ok b
      ∧ (∀ (i : Row t.header) (j : Row u.header),
          (∀ x ∈ f.vars, i.value x = j.value x) → (i.id ∈ a ↔ j.id ∈ b))
      ∧ (∀ σ : Equiv.Perm (Fin t.header.size),
          u.header.names = List.ofFn (fun j => t.header.nameAt (σ j)) →
            ∀ k, k ∈ b ↔ ∃ i ∈ a, permuteBits σ i = k)
      ∧ ∀ extra, u.header.names = t.header.names ++ extra →
          ∀ k, k ∈ b ↔ k < u.size ∧ k % t.size ∈ a := by
  obtain ⟨a, ha, -⟩ := models_eq_ok (missing?_eq_none_iff.mpr ht)
  obtain ⟨b, hb, -⟩ := models_eq_ok (missing?_eq_none_iff.mpr hu)
  refine ⟨a, b, ha, hb, ?_, ?_, ?_⟩
  · intro i j h
    refine mem_models_congr ha hb fun x hx => ?_
    have hvalue := h x hx
    rw [Row.value_of_mem (ht x hx), Row.value_of_mem (hu x hx)] at hvalue
    exact Except.ok.inj hvalue
  · intro σ hnames k
    constructor
    · intro hk
      have hsize : u.header.size = t.header.size := by
        rw [Header.size, hnames, List.length_ofFn]
      have hlt : k < 1 <<< t.header.size := hsize ▸ lt_size_of_models hb hk
      have hround := permuteBits_permuteBits_symm σ hlt
      refine ⟨permuteBits σ.symm k, ?_, hround⟩
      rw [← permuteBits_mem_models_iff ha hb hnames (permuteBits_lt σ.symm k), hround]
      exact hk
    · rintro ⟨i, hi, rfl⟩
      exact (permuteBits_mem_models_iff ha hb hnames (lt_size_of_models ha hi)).mpr hi
  · intro extra hnames k
    constructor
    · intro hk
      have hlt := lt_size_of_models hb hk
      exact ⟨hlt, (mod_mem_models_iff ha hb hnames hlt).mpr hk⟩
    · rintro ⟨hlt, hmod⟩
      exact (mod_mem_models_iff ha hb hnames hlt).mp hmod

/-- The columns of `wideTable` in the other order, and then one more. -/
def reversedTable : Table := ⟨⟨['A', 'B', 'C'], by decide⟩, by decide⟩

def widerTable : Table := ⟨⟨['C', 'B', 'A', 'D'], by decide⟩, by decide⟩

theorem models_depend_on_vars_aWithoutB :
    (∀ x ∈ aWithoutB.vars, x ∈ wideTable.header)
      ∧ (∀ x ∈ aWithoutB.vars, x ∈ reversedTable.header)
      ∧ (∀ x ∈ aWithoutB.vars, x ∈ widerTable.header)
      ∧ (∃ a b, aWithoutB.models wideTable = .ok a ∧ aWithoutB.models reversedTable = .ok b
          ∧ ∀ k, k ∈ b ↔ ∃ i ∈ a, permuteBits (Fin.revPerm (n := 3)) i = k)
      ∧ ∃ a b, aWithoutB.models wideTable = .ok a ∧ aWithoutB.models widerTable = .ok b
          ∧ ∀ k, k ∈ b ↔ k < widerTable.size ∧ k % wideTable.size ∈ a := by
  have hwide : ∀ x ∈ aWithoutB.vars, x ∈ wideTable.header := by
    simp [aWithoutB, vars, wideTable, Header.mem_def]
  have hreversed : ∀ x ∈ aWithoutB.vars, x ∈ reversedTable.header := by
    simp [aWithoutB, vars, reversedTable, Header.mem_def]
  have hwider : ∀ x ∈ aWithoutB.vars, x ∈ widerTable.header := by
    simp [aWithoutB, vars, widerTable, Header.mem_def]
  obtain ⟨a, b, ha, hb, -, hpermuted, -⟩ := models_depend_on_vars _ _ _ hwide hreversed
  obtain ⟨c, d, hc, hd, -, -, hextended⟩ := models_depend_on_vars _ _ _ hwide hwider
  exact ⟨hwide, hreversed, hwider, ⟨a, b, ha, hb, hpermuted Fin.revPerm rfl⟩,
    c, d, hc, hd, hextended ['D'] rfl⟩

end Formula

end TruthTable
