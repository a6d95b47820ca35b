import Mathlib.Data.Finset.Card
import Mathlib.Data.Finset.Range
import TruthTable.RowSet.Members

/-!
# Sets of rows as finite sets

A set of rows means the finite set of its members, `RowSet.members`. Each operation of sets
of rows is the operation of finite sets of the same name, and two sets of rows with the same
members are one, so what is known of finite sets can be read back.

A set of rows belongs to no table, and a complement is taken below a number that is given
only then: there may be members beyond it. So a complement is not undone by a second one,
which finds the members below the number alone (`complement_complement`), and a difference
may be taken in a complement only if nothing of it lies beyond
(`sdiff_eq_inter_complement_iff`).
-/

namespace TruthTable.RowSet

variable {a b : RowSet} {i n : Nat}

/-! ## The members -/

/-- The members of a set of rows, as a finite set of numbers. -/
def members (s : RowSet) : Finset Nat := s.toList.toFinset

@[simp] theorem mem_members {s : RowSet} : i ∈ s.members ↔ i ∈ s := by
  rw [members, List.mem_toFinset, mem_toList]

theorem members_inj : a.members = b.members ↔ a = b := by
  rw [Finset.ext_iff, ext_iff]
  simp only [mem_members]

theorem card_members (s : RowSet) : s.members.card = s.card :=
  List.toFinset_card_of_nodup (s.pairwise_toList.imp Nat.ne_of_lt)

theorem members_subset_iff : a.members ⊆ b.members ↔ a ⊆ b := by
  rw [Finset.subset_iff]
  simp only [mem_members]
  rfl

theorem disjoint_members_iff : Disjoint a.members b.members ↔ a.IsDisjoint b := by
  rw [Finset.disjoint_left]
  simp only [mem_members, IsDisjoint]

@[simp] theorem members_empty : (∅ : RowSet).members = ∅ := by
  ext i
  simp

@[simp] theorem members_union : (a ∪ b).members = a.members ∪ b.members := by
  ext i
  simp

@[simp] theorem members_inter : (a ∩ b).members = a.members ∩ b.members := by
  ext i
  simp

@[simp] theorem members_sdiff : (a \ b).members = a.members \ b.members := by
  ext i
  simp

@[simp] theorem members_insert : (insert n a).members = insert n a.members := by
  ext i
  simp

@[simp] theorem members_full : (full n).members = Finset.range n := by
  ext i
  simp

@[simp] theorem members_complement :
    (a.complement n).members = Finset.range n \ a.members := by
  rw [complement, members_sdiff, members_full]

@[simp] theorem members_insertAll {ids : List Nat} :
    (a.insertAll ids).members = ids.toFinset ∪ a.members := by
  ext i
  simp [mem_insertAll]

@[simp] theorem members_ofList {ids : List Nat} : (ofList ids).members = ids.toFinset := by
  ext i
  simp

/-! ## Complements -/

theorem complement_complement (a : RowSet) (n : Nat) :
    (a.complement n).complement n = a ∩ full n := by
  refine ext fun i => ?_
  simp only [mem_complement, mem_inter, mem_full]
  tauto

theorem complement_union (a b : RowSet) (n : Nat) :
    (a ∪ b).complement n = a.complement n ∩ b.complement n := by
  refine ext fun i => ?_
  simp only [mem_complement, mem_union, mem_inter]
  tauto

theorem complement_inter (a b : RowSet) (n : Nat) :
    (a ∩ b).complement n = a.complement n ∪ b.complement n := by
  refine ext fun i => ?_
  simp only [mem_complement, mem_union, mem_inter]
  tauto

/-- What is left of one set without another is found in the complement of the other as far
as the complement reaches. -/
theorem sdiff_eq_inter_complement_iff : a \ b = a ∩ b.complement n ↔ a \ b ⊆ full n := by
  constructor
  · intro h i hi
    rw [h, mem_inter, mem_complement] at hi
    exact mem_full.mpr hi.2.1
  · intro h
    refine ext fun i => ?_
    rw [mem_inter, mem_complement, mem_sdiff]
    exact ⟨fun hi => ⟨hi.1, mem_full.mp (h i (mem_sdiff.mpr hi)), hi.2⟩,
      fun hi => ⟨hi.1, hi.2.2⟩⟩

theorem sdiff_subset_of_subset {c : RowSet} (h : a ⊆ c) : a \ b ⊆ c :=
  fun i hi => h i (mem_sdiff.mp hi).1

theorem card_complement_add_card_inter_full (a : RowSet) (n : Nat) :
    (a.complement n).card + (a ∩ full n).card = n := by
  rw [← card_members, ← card_members, members_complement, members_inter, members_full,
    Finset.inter_comm, Finset.card_sdiff_add_card_inter, Finset.card_range]

/-- **Sets of rows obey the laws of complements below any number.** For any two sets and any
number, whether or not members lie beyond it: the complement holds the smaller numbers that
are not members, the complement of the complement the smaller members; complements of unions
are intersections of complements, and the other way round; a difference is an intersection
with a complement that reaches beyond all members; and each smaller number is counted once,
in the complement or in the set. -/
theorem complement_below_any_size (a b : RowSet) (n : Nat) :
    (∀ i, i ∈ a.complement n ↔ i < n ∧ i ∉ a)
      ∧ (a.complement n).complement n = a ∩ full n
      ∧ (a ∪ b).complement n = a.complement n ∩ b.complement n
      ∧ (a ∩ b).complement n = a.complement n ∪ b.complement n
      ∧ (∀ m, a ⊆ full m → a \ b = a ∩ b.complement m)
      ∧ (a.complement n).card + (a ∩ full n).card = n :=
  ⟨fun _ => mem_complement, complement_complement a n, complement_union a b n,
    complement_inter a b n,
    fun _ h => sdiff_eq_inter_complement_iff.mpr (sdiff_subset_of_subset h),
    card_complement_add_card_inter_full a n⟩

/-- A member beyond the number is lost by complementing twice. -/
example : ((ofList [1, 5]).complement 3).complement 3 = ofList [1] := rfl

end TruthTable.RowSet
