import TruthTable.RowSet.Basic

/-!
# Listing the members of a set

`RowSet.toList` lists the members in increasing order by halving: a window of `2 ^ k`
rows is searched as its lower and its upper half, and an empty window is left at once,
so the work follows the members and not the largest of them. The sizes of the halves,
with the masks that cut the lower one out, are computed once for all windows of a size
(`halvings`). `toList_eq` says what the list is without saying how it is found.
-/

namespace TruthTable.RowSet

/-- The halvings of a window of `2 ^ k` rows down to single rows: at each, the number of
rows of a half and the mask of the lower half. -/
def halvings : Nat → List (Nat × Nat)
  | 0 => []
  | k + 1 => (1 <<< k, 1 <<< (1 <<< k) - 1) :: halvings k

/-- The members in a window from `offset` on, whose rows are the lowest of `bits`, followed
by `later`. -/
def membersIn : List (Nat × Nat) → (bits offset : Nat) → (later : List Nat) → List Nat
  | [], bits, offset, later => if bits % 2 = 1 then offset :: later else later
  | (half, mask) :: halves, bits, offset, later =>
    if bits = 0 then later
    else membersIn halves (bits &&& mask) offset
      (membersIn halves (bits >>> half) (offset + half) later)

/-- The members, in increasing order. -/
def toList (s : RowSet) : List Nat := membersIn (halvings (s.bits.log2.log2 + 1)) s.bits 0 []

def card (s : RowSet) : Nat := s.toList.length

/-- The members in increasing order, between braces. -/
def text (s : RowSet) : List Char :=
  '\x7b' :: List.intercalate [',', ' '] (s.toList.map (Nat.toDigits 10)) ++ ['\x7d']

theorem membersIn_eq (k bits offset : Nat) (later : List Nat) :
    membersIn (halvings k) bits offset later =
      ((List.range (1 <<< k)).filter bits.testBit).map (offset + ·) ++ later := by
  induction k generalizing bits offset later with
  | zero =>
      simp only [halvings, membersIn, Nat.shiftLeft_zero, List.range_one, List.filter_cons,
        List.filter_nil, Nat.testBit_zero]
      split <;> simp_all
  | succ k ih =>
      rw [halvings, membersIn]
      split
      · next h => simp [h]
      · have low : (List.range (1 <<< k)).filter (bits &&& 1 <<< (1 <<< k) - 1).testBit =
            (List.range (1 <<< k)).filter bits.testBit := by
          refine List.filter_congr fun i hi => ?_
          rw [Nat.one_shiftLeft (1 <<< k), Nat.testBit_and, Nat.testBit_two_pow_sub_one]
          simp [List.mem_range.mp hi]
        have high : (bits >>> (1 <<< k)).testBit = bits.testBit ∘ (1 <<< k + ·) :=
          funext fun i => Nat.testBit_shiftRight bits
        have double : 1 <<< (k + 1) = 1 <<< k + 1 <<< k := by
          simp [Nat.one_shiftLeft, Nat.pow_succ, Nat.mul_two]
        rw [ih, ih, low, high, double, List.range_add, List.filter_append,
          List.map_append, List.filter_map, List.map_map, List.append_assoc]
        simp [Function.comp_def, Nat.add_assoc]

/-- Beyond a bound on the members there is nothing to keep. -/
theorem filter_range_add {s : RowSet} {n : Nat} (h : ∀ i ∈ s, i < n) (d : Nat) :
    (List.range (n + d)).filter (· ∈ s) = (List.range n).filter (· ∈ s) := by
  rw [List.range_add, List.filter_append, List.append_right_eq_self]
  refine List.filter_eq_nil_iff.mpr fun i hi => ?_
  obtain ⟨j, -, rfl⟩ := List.mem_map.mp hi
  simp only [decide_eq_true_eq]
  exact fun hmem => absurd (h _ hmem) (Nat.not_lt.mpr (Nat.le_add_right n j))

/-- The list of a set is what any long enough list of rows keeps of it. -/
theorem toList_eq {s : RowSet} {n : Nat} (h : ∀ i ∈ s, i < n) :
    s.toList = (List.range n).filter (· ∈ s) := by
  have hwindow : ∀ i ∈ s, i < 1 <<< (s.bits.log2.log2 + 1) := fun i hi => by
    rw [Nat.one_shiftLeft]
    exact Nat.lt_of_le_of_lt (le_log2_of_mem hi) Nat.lt_log2_self
  have hlist : s.toList = (List.range (1 <<< (s.bits.log2.log2 + 1))).filter (· ∈ s) := by
    simp [toList, membersIn_eq, mem_def]
  rw [hlist]
  rcases Nat.le_total n (1 <<< (s.bits.log2.log2 + 1)) with hle | hle
  · rw [← Nat.add_sub_cancel' hle, filter_range_add h]
  · rw [← Nat.add_sub_cancel' hle, filter_range_add hwindow]

@[simp] theorem mem_toList {i : Nat} {s : RowSet} : i ∈ s.toList ↔ i ∈ s := by
  rw [toList_eq (n := s.bits.log2 + 1) fun j hj => Nat.lt_succ_of_le (le_log2_of_mem hj)]
  simp only [List.mem_filter, List.mem_range, decide_eq_true_eq, and_iff_right_iff_imp]
  exact fun hi => Nat.lt_succ_of_le (le_log2_of_mem hi)

/-- Members are listed in increasing order, each once. -/
theorem pairwise_toList (s : RowSet) : s.toList.Pairwise (· < ·) := by
  rw [toList_eq (n := s.bits.log2 + 1) fun j hj => Nat.lt_succ_of_le (le_log2_of_mem hj)]
  exact List.pairwise_lt_range.filter _

end TruthTable.RowSet
