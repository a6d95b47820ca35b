import Mathlib.Order.Monotone.Basic
import TruthTable.Proofs.Notation

/-!
# How tall a formula the limit lets through

The limit bounds the depth counter, and the counter is not the height of the formula. An
operand is charged with the connectives of its chain that come before it, and the formula
puts those that come after it above it. What a group or a negation was charged with is given
back when it ends, and the connectives that follow pile up on the finished part from zero.

So the height is bounded, but by the square of the limit (`Derives.height_le`): a chain of
`k` connectives within cost `n` adds `k ≤ n` levels to an operand that costs at most `n`, a
group around it costs one level more, and so on down to cost zero. The bound is
reached at every limit (`exists_writes_height_eq`), and only the limit zero bounds the height
by itself.
-/

namespace TruthTable

namespace Formula

/-! ## Height along the left side

What `nesting_eq_spine` says of the counter, with the connectives on the other side of the
operand: the counter has gone through those before it, the tree has its own one and those
after it above it. -/

/-- The connectives of a chain that the tree has above its operand number `i`. -/
def linksAbove (f : Formula) (i : Nat) : Nat := f.links + 1 - max 1 i

theorem linksAbove_binary_left {c : Connective} {l r : Formula} {i : Nat}
    (hi : i < l.spine.length) : (binary c l r).linksAbove i = l.linksAbove i + 1 := by
  rw [length_spine] at hi
  simp only [linksAbove, links]
  omega

theorem linksAbove_binary_right {c : Connective} {l r : Formula} :
    (binary c l r).linksAbove l.spine.length = 1 := by
  simp only [linksAbove, links, length_spine]
  omega

theorem height_le_iff_of_spine {f : Formula} {d : Nat} (hs : f.spine = [f])
    (hl : f.links = 0) :
    f.height ≤ d ↔ ∀ i p, f.spine[i]? = some p → f.linksAbove i + p.height ≤ d := by
  have habove : f.linksAbove 0 = 0 := by simp [linksAbove, hl]
  rw [hs]
  constructor
  · intro h i p hp
    rw [List.getElem?_singleton] at hp
    split at hp
    · next hi =>
      obtain rfl := Option.some.inj hp
      rwa [hi, habove, Nat.zero_add]
    · cases hp
  · intro h
    have h0 := h 0 f rfl
    rwa [habove, Nat.zero_add] at h0

theorem height_le_iff_spine {f : Formula} {d : Nat} :
    f.height ≤ d ↔ ∀ i p, f.spine[i]? = some p → f.linksAbove i + p.height ≤ d := by
  induction f generalizing d with
  | var x => exact height_le_iff_of_spine rfl rfl
  | neg f _ => exact height_le_iff_of_spine rfl rfl
  | binary c l r ihl _ =>
      have hlast : (binary c l r).spine[l.spine.length]? = some r := by simp [spine]
      constructor
      · intro h i p hp
        simp only [height] at h
        rcases Nat.lt_or_ge i l.spine.length with hi | hi
        · rw [spine, List.getElem?_append_left hi] at hp
          have hl := (ihl (d := d - 1)).mp (by omega) i p hp
          rw [linksAbove_binary_left hi]
          omega
        · have hlen := (List.getElem?_eq_some_iff.mp hp).1
          simp only [spine, List.length_append, List.length_singleton] at hlen
          obtain rfl : i = l.spine.length := by omega
          obtain rfl := Option.some.inj (hlast.symm.trans hp)
          rw [linksAbove_binary_right]
          omega
      · intro h
        have hr := h _ r hlast
        have hl : l.height ≤ d - 1 := ihl.mpr fun i p hp => by
          have hi := (List.getElem?_eq_some_iff.mp hp).1
          have hbelow := h i p (by rw [spine, List.getElem?_append_left hi, hp])
          rw [linksAbove_binary_left hi] at hbelow
          omega
        rw [linksAbove_binary_right] at hr
        simp only [height]
        omega

/-! ## The bound -/

/-- The height of the tallest operand of cost `n`: a group around a chain of cost `n - 1` that
has as many connectives, or one negation where no connective has room. -/
def tallestOperand : Nat → Nat
  | 0 => 0
  | n + 1 => max 1 n + tallestOperand n

/-- The height of the tallest formula that a limit of `d` lets through. -/
def tallest (d : Nat) : Nat := d * (d + 1) / 2 + min d 1

theorem tallest_eq (n : Nat) : tallest n = n + tallestOperand n := by
  induction n with
  | zero => rfl
  | succ n ih =>
      have hdouble : (n + 1) * (n + 1 + 1) = n * (n + 1) + 2 * (n + 1) := by grind
      simp only [tallest, tallestOperand, hdouble] at *
      omega

theorem tallestOperand_mono : Monotone tallestOperand :=
  monotone_nat_of_le_succ fun n => Nat.le_add_left (tallestOperand n) (max 1 n)

variable {p : Phrase} {w : List Char} {f : Formula} {n : Nat}

/-- The number of connectives of a phrase at its own level. -/
def Phrase.links : Phrase → Nat
  | .operand => 0
  | .chain k => k

theorem Derives.links_le (h : Derives p w f n) : p.links ≤ n := by
  cases h with
  | letter _ => exact Nat.zero_le _
  | negation _ => exact Nat.zero_le _
  | group _ => exact Nat.zero_le _
  | single _ => exact Nat.zero_le _
  | link c _ _ => simp only [Phrase.links]; omega

theorem Derives.height_le (h : Derives p w f n) : f.height ≤ p.links + tallestOperand n := by
  induction h with
  | letter _ => exact Nat.zero_le _
  | @negation w f n _ ih =>
      rw [Nat.add_comm 1 n, tallestOperand]
      simp only [height, Phrase.links] at *
      omega
  | @group k w f n hf ih =>
      have hk := hf.links_le
      rw [Nat.add_comm 1 n, tallestOperand]
      simp only [Phrase.links] at *
      omega
  | single _ ih => exact ih
  | @link k v w l r m n c _ _ ihl ihr =>
      have hl := tallestOperand_mono (Nat.le_max_left m (k + 1 + n))
      have hr : tallestOperand n ≤ tallestOperand (max m (k + 1 + n)) :=
        tallestOperand_mono (by omega)
      simp only [height, Phrase.links] at *
      omega

theorem Writes.height_le (h : Writes w f n) {d : Nat} (hn : n ≤ d) :
    f.height ≤ tallest d := by
  obtain ⟨k, hf⟩ := h
  have hk := hf.links_le
  have hheight := hf.height_le
  have hmono := tallestOperand_mono hn
  rw [tallest_eq]
  simp only [Phrase.links] at *
  omega

/-! ## The bound is reached -/

/-- Connectives after an operand cost nothing as long as they are no more than its levels, and
each of them puts it one level further down the left side. -/
theorem Derives.exists_chain {m : Nat} (h : Derives .operand w f m) (k : Nat) :
    ∃ v g, Derives (.chain k) v g (max m k) ∧ g.height = k + f.height
      ∧ g.links = k + f.links := by
  induction k with
  | zero => exact ⟨w, f, by simpa using Derives.single h, by simp, by simp⟩
  | succ k ih =>
      obtain ⟨v, g, hg, hheight, hlinks⟩ := ih
      have ha : Derives .operand ['A'] (var 'A') 0 := .letter (by decide)
      have hlink := Derives.link .and hg ha
      rw [show max (max m k) (k + 1 + 0) = max m (k + 1) by omega] at hlink
      exact ⟨_, _, hlink, by simp only [height]; omega, by simp only [links]; omega⟩

theorem exists_operand_height_eq (n : Nat) :
    ∃ w f, Derives .operand w f n ∧ f.height = tallestOperand n := by
  induction n with
  | zero => exact ⟨['A'], var 'A', .letter (by decide), rfl⟩
  | succ n ih =>
      obtain ⟨w, f, hf, hheight⟩ := ih
      rw [tallestOperand, Nat.add_comm n 1]
      rcases Nat.eq_zero_or_pos n with rfl | hpos
      · exact ⟨_, _, .negation hf, by simp only [height]; omega⟩
      · obtain ⟨v, g, hg, hgheight, -⟩ := hf.exists_chain n
        rw [Nat.max_self] at hg
        exact ⟨_, g, .group hg, by omega⟩

theorem exists_writes_height_eq (n : Nat) : ∃ w f, Writes w f n ∧ f.height = tallest n := by
  obtain ⟨w, f, hf, hheight⟩ := exists_operand_height_eq n
  obtain ⟨v, g, hg, hgheight, -⟩ := hf.exists_chain n
  rw [Nat.max_self] at hg
  exact ⟨v, g, ⟨n, hg⟩, by rw [tallest_eq, hgheight, hheight]⟩

theorem lt_tallest {d : Nat} (hd : 0 < d) : d < tallest d := by
  have hsquare : d * 2 ≤ d * (d + 1) := Nat.mul_le_mul_left d (by omega)
  rw [tallest]
  omega

theorem height_le_tallest {limits : Limits} {text : List Char}
    (h : (parse limits text).outcome = .ok f) : f.height ≤ tallest limits.maxDepth := by
  obtain ⟨u, v, n, -, hw, hn⟩ := exists_writes_of_parse h
  exact hw.height_le hn

/-- The condition on one text: the formula at its head is refused, or fits. -/
theorem forall_height_le_iff (limits : Limits) (text : List Char) :
    (∀ f, (parse limits text).outcome = .ok f → f.height ≤ limits.maxDepth) ↔
      ∀ f n, Heads limits.tail text f n → limits.maxDepth < n
        ∨ ∀ i p, f.spine[i]? = some p → f.linksAbove i + p.height ≤ limits.maxDepth := by
  constructor
  · intro h f n hheads
    rcases Nat.lt_or_ge limits.maxDepth n with hlt | hge
    · exact .inl hlt
    · have hok : (parse limits text).outcome = .ok f := parse_eq_ok_iff.mpr ⟨n, hge, hheads⟩
      exact .inr (height_le_iff_spine.mp (h f hok))
  · intro h f hok
    obtain ⟨n, hn, hheads⟩ := parse_eq_ok_iff.mp hok
    have hfits := (h f n hheads).resolve_left (Nat.not_lt.mpr hn)
    exact height_le_iff_spine.mpr hfits

/-- **What the limit says about the height.** The height of what is read is at most `tallest`
of the limit, and a formula of that height is read. A text keeps the limit itself exactly when
the formula at its head costs more, so that it is refused, or no operand of it is too tall for
the connectives above it; all texts keep it only if the limit is zero. -/
theorem height_of_parse (limits : Limits) :
    (∀ text f, (parse limits text).outcome = .ok f → f.height ≤ tallest limits.maxDepth)
      ∧ (∃ text f, (parse limits text).outcome = .ok f ∧ f.height = tallest limits.maxDepth)
      ∧ (∀ text, (∀ f, (parse limits text).outcome = .ok f → f.height ≤ limits.maxDepth) ↔
          ∀ f n, Heads limits.tail text f n → limits.maxDepth < n
            ∨ ∀ i p, f.spine[i]? = some p → f.linksAbove i + p.height ≤ limits.maxDepth)
      ∧ ((∀ text f, (parse limits text).outcome = .ok f → f.height ≤ limits.maxDepth) ↔
          limits.maxDepth = 0) := by
  obtain ⟨w, g, hw, hg⟩ := exists_writes_height_eq limits.maxDepth
  have hread := hw.parse_eq limits (Nat.le_refl _)
  refine ⟨fun text f hf => height_le_tallest hf, ⟨w, g, hread, hg⟩,
    forall_height_le_iff limits, ?_⟩
  constructor
  · intro h
    have hkept := h w g hread
    rw [hg] at hkept
    by_cases hzero : limits.maxDepth = 0
    · exact hzero
    · exact absurd hkept (Nat.not_le.mpr (lt_tallest (Nat.pos_of_ne_zero hzero)))
  · intro h text f hf
    have hzero := height_le_tallest hf
    rwa [h] at hzero ⊢

/-- The limit that is set when nothing else is asked for. -/
example : tallest { : Limits }.maxDepth = 131329 := rfl

/-- A negation before a connective: both signs have the whole limit to themselves. -/
theorem height_exceeds_limit :
    ¬ ∀ (limits : Limits) (text : List Char) (f : Formula),
      (parse limits text).outcome = .ok f → f.height ≤ limits.maxDepth := by
  intro h
  have hread : (parse { maxDepth := 1 } ['!', 'A', '&', 'B']).outcome =
      .ok (binary .and (neg (var 'A')) (var 'B')) := by rfl
  exact absurd (h _ _ _ hread) (by decide)

end Formula

end TruthTable
