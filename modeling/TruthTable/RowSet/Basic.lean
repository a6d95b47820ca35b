/-!
# Sets of rows

A `RowSet` is a finite set of row numbers, kept as the number whose bit `i` says
whether `i` is a member. A set has one such number whatever its history, so equal
sets are the same value, and the operations of sets are those of bits.

A set belongs to no table: the size of one is given where it is needed (`full`,
`complement`, `clip`), and members beyond it are allowed.
-/

namespace TruthTable

/-- A finite set of row numbers. -/
structure RowSet where
  bits : Nat
deriving DecidableEq, Repr

namespace RowSet

instance : Membership Nat RowSet where
  mem s i := s.bits.testBit i = true

instance (i : Nat) (s : RowSet) : Decidable (i ∈ s) :=
  inferInstanceAs (Decidable (s.bits.testBit i = true))

theorem mem_def {i : Nat} {s : RowSet} : i ∈ s ↔ s.bits.testBit i = true := Iff.rfl

theorem ext {a b : RowSet} (h : ∀ i, i ∈ a ↔ i ∈ b) : a = b := by
  obtain ⟨a⟩ := a
  obtain ⟨b⟩ := b
  exact congrArg RowSet.mk (Nat.eq_of_testBit_eq fun i => Bool.eq_iff_iff.mpr (h i))

theorem ext_iff {a b : RowSet} : a = b ↔ ∀ i, i ∈ a ↔ i ∈ b :=
  ⟨fun h _ => h ▸ Iff.rfl, ext⟩

instance : EmptyCollection RowSet where
  emptyCollection := ⟨0⟩

instance : Union RowSet where
  union a b := ⟨a.bits ||| b.bits⟩

instance : Inter RowSet where
  inter a b := ⟨a.bits &&& b.bits⟩

instance : SDiff RowSet where
  sdiff a b := ⟨a.bits &&& (a.bits ^^^ b.bits)⟩

instance : Insert Nat RowSet where
  insert i s := ⟨s.bits ||| 1 <<< i⟩

/-- The row numbers below `n`. -/
def full (n : Nat) : RowSet := ⟨1 <<< n - 1⟩

/-- The row numbers below `n` that are not in `s`. -/
def complement (s : RowSet) (n : Nat) : RowSet := full n \ s

/-- The members below `n`. Nothing of the size of `n` is built where all members are
below it. -/
def clip (s : RowSet) (n : Nat) : RowSet :=
  if s.bits.log2 < n then s else ⟨s.bits % 1 <<< n⟩

def insertAll (s : RowSet) (ids : List Nat) : RowSet := ids.foldl (fun s i => insert i s) s

def ofList (ids : List Nat) : RowSet := insertAll ∅ ids

def isEmpty (s : RowSet) : Bool := s.bits = 0

/-! ## Members of each operation -/

@[simp] theorem not_mem_empty (i : Nat) : i ∉ (∅ : RowSet) := by
  simp [mem_def, EmptyCollection.emptyCollection]

@[simp] theorem mem_union {i : Nat} {a b : RowSet} : i ∈ a ∪ b ↔ i ∈ a ∨ i ∈ b := by
  simp [mem_def, Union.union]

@[simp] theorem mem_inter {i : Nat} {a b : RowSet} : i ∈ a ∩ b ↔ i ∈ a ∧ i ∈ b := by
  simp [mem_def, Inter.inter]

@[simp] theorem mem_sdiff {i : Nat} {a b : RowSet} : i ∈ a \ b ↔ i ∈ a ∧ i ∉ b := by
  simp only [mem_def, SDiff.sdiff, Nat.testBit_and, Nat.testBit_xor]
  cases a.bits.testBit i <;> cases b.bits.testBit i <;> decide

@[simp] theorem mem_insert {i j : Nat} {s : RowSet} : i ∈ insert j s ↔ i = j ∨ i ∈ s := by
  simp only [mem_def, Insert.insert, Nat.testBit_or, Nat.one_shiftLeft, Nat.testBit_two_pow,
    Bool.or_eq_true, decide_eq_true_eq]
  rw [or_comm, eq_comm]

@[simp] theorem mem_full {i n : Nat} : i ∈ full n ↔ i < n := by
  simp [mem_def, full, Nat.one_shiftLeft]

@[simp] theorem mem_complement {i n : Nat} {s : RowSet} :
    i ∈ s.complement n ↔ i < n ∧ i ∉ s := by
  simp [complement]

theorem mem_insertAll {i : Nat} {ids : List Nat} {s : RowSet} :
    i ∈ s.insertAll ids ↔ i ∈ ids ∨ i ∈ s := by
  induction ids generalizing s with
  | nil => simp [insertAll]
  | cons j ids ih =>
      rw [show s.insertAll (j :: ids) = (insert j s).insertAll ids from rfl, ih]
      simp only [mem_insert, List.mem_cons, or_left_comm, or_assoc]

@[simp] theorem mem_ofList {i : Nat} {ids : List Nat} : i ∈ ofList ids ↔ i ∈ ids := by
  simp [ofList, mem_insertAll]

/-- The largest member bounds all others. -/
theorem le_log2_of_mem {i : Nat} {s : RowSet} (h : i ∈ s) : i ≤ s.bits.log2 := by
  rcases Nat.eq_zero_or_pos s.bits with h0 | hpos
  · simp [mem_def, h0] at h
  · exact (Nat.le_log2 (Nat.pos_iff_ne_zero.mp hpos)).mpr (Nat.ge_two_pow_of_testBit h)

@[simp] theorem mem_clip {i n : Nat} {s : RowSet} : i ∈ s.clip n ↔ i < n ∧ i ∈ s := by
  unfold clip
  split
  · next h => exact ⟨fun hi => ⟨Nat.lt_of_le_of_lt (le_log2_of_mem hi) h, hi⟩, And.right⟩
  · simp [mem_def, Nat.one_shiftLeft]

theorem isEmpty_iff {s : RowSet} : s.isEmpty = true ↔ s = ∅ := by
  obtain ⟨b⟩ := s
  simp [isEmpty, EmptyCollection.emptyCollection]

/-! ## Comparisons -/

/-- Every member of the one set is a member of the other. -/
instance : HasSubset RowSet where
  Subset a b := ∀ i, i ∈ a → i ∈ b

/-- No member of the one set is a member of the other. -/
def IsDisjoint (a b : RowSet) : Prop := ∀ i, i ∈ a → i ∉ b

theorem subset_iff_sdiff_eq_empty {a b : RowSet} : a ⊆ b ↔ a \ b = ∅ := by
  rw [ext_iff]
  simp only [mem_sdiff, not_mem_empty, iff_false, not_and, Decidable.not_not]
  rfl

theorem isDisjoint_iff_inter_eq_empty {a b : RowSet} : a.IsDisjoint b ↔ a ∩ b = ∅ := by
  rw [ext_iff]
  simp [IsDisjoint]

instance (a b : RowSet) : Decidable (a ⊆ b) :=
  decidable_of_iff _ subset_iff_sdiff_eq_empty.symm

instance (a b : RowSet) : Decidable (a.IsDisjoint b) :=
  decidable_of_iff _ isDisjoint_iff_inter_eq_empty.symm

end RowSet

end TruthTable
