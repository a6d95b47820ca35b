import TruthTable.Proofs.Height

/-!
# Reading what was written of a formula that was read

The notation leaves out parentheses around a group that begins a chain, and so it joins the
group and the chain to one longer chain. The levels of the group are gone with the
parentheses, but the operands that follow now have all connectives of the group before them.
So a text may be read and the notation of its formula, read with the same limit, be too
deep.

How deep the notation can get is settled as the height was, along a derivation. A chain of
cost `n` is written with at most `mostLinks n` connectives, the `n` of its own and those of
the groups at its head, one in the other; and what follows such a head lies below all of
them (`Derives.nesting_le`). The bound is reached (`exists_writes_nesting_eq`). Where no
group begins a chain nothing moves, and the notation is as deep as the text at most
(`Derives.nesting_le_of_not_leading`).
-/

namespace TruthTable

namespace Formula

variable {p : Phrase} {w : List Char} {f : Formula} {n : Nat}

/-! ## The longest chains -/

/-- The most connectives that a chain of cost `n` can be written with. -/
def mostLinks : Nat → Nat
  | 0 => 0
  | n + 1 => n + 1 + mostLinks n

theorem mostLinks_eq_add_pred (n : Nat) : mostLinks n = n + mostLinks (n - 1) := by
  cases n with
  | zero => rfl
  | succ n => rfl

theorem mostLinks_mono : Monotone mostLinks :=
  monotone_nat_of_le_succ fun n => Nat.le_add_left (mostLinks n) (n + 1)

theorem Derives.links_formula_le (h : Derives p w f n) :
    f.links ≤ p.links + mostLinks (n - 1) := by
  induction h with
  | letter _ => exact Nat.zero_le _
  | negation _ _ => exact Nat.zero_le _
  | @group k w f n hf ih =>
      have hk := hf.links_le
      have hn := mostLinks_eq_add_pred n
      simp only [Phrase.links, Nat.add_sub_cancel_left] at *
      omega
  | single _ ih => exact ih
  | @link k v w l r m n c _ _ ihl _ =>
      have hm : mostLinks (m - 1) ≤ mostLinks (max m (k + 1 + n) - 1) :=
        mostLinks_mono (by omega)
      simp only [links, Phrase.links] at *
      omega

theorem exists_links_eq (n : Nat) :
    ∃ w f, Derives (.chain n) w f n ∧ f.links = mostLinks n := by
  induction n with
  | zero => exact ⟨['A'], var 'A', .single (.letter (by decide)), rfl⟩
  | succ n ih =>
      obtain ⟨w, f, hf, hlinks⟩ := ih
      have hgroup : Derives .operand ('(' :: w ++ [')']) f (1 + n) := .group hf
      obtain ⟨v, g, hg, -, hglinks⟩ := hgroup.exists_chain (n + 1)
      rw [Nat.add_comm 1 n, Nat.max_self] at hg
      exact ⟨v, g, hg, by rw [hglinks, hlinks, mostLinks]⟩

/-! ## The deepest notation -/

/-- The nesting of the deepest operand of cost `n`: a group around the deepest chain of cost
`n - 1`, or one negation where no connective has room. -/
def deepestOperand : Nat → Nat
  | 0 => 0
  | 1 => 1
  | n + 2 => 2 + mostLinks n + deepestOperand n

/-- The nesting of the deepest formula that a limit of `d` lets through. -/
def deepest (d : Nat) : Nat := d + d * (d + 2) * (2 * d - 1) / 24

theorem two_mul_mostLinks (n : Nat) : 2 * mostLinks n = n * (n + 1) := by
  induction n with
  | zero => rfl
  | succ n ih =>
      rw [mostLinks, Nat.mul_add, ih]
      grind

theorem deepest_add_two (n : Nat) : deepest (n + 2) = deepest n + mostLinks (n + 1) + 2 := by
  have hlinks := two_mul_mostLinks (n + 1)
  have hcube : (n + 2) * (n + 2 + 2) * (2 * (n + 2) - 1)
      = n * (n + 2) * (2 * n - 1) + 24 * mostLinks (n + 1) := by
    cases n with
    | zero => rfl
    | succ n =>
        have h₁ : 2 * (n + 1 + 2) - 1 = 2 * n + 5 := by omega
        have h₂ : 2 * (n + 1) - 1 = 2 * n + 1 := by omega
        rw [h₁, h₂]
        grind
  rw [deepest, deepest, hcube, Nat.add_mul_div_left _ _ (by decide)]
  omega

/-- The deepest chain is the longest one in parentheses, a connective and the deepest operand
that has room after it. -/
theorem deepest_succ : ∀ n, deepest (n + 1) = 1 + mostLinks n + deepestOperand n
  | 0 => rfl
  | 1 => rfl
  | n + 2 => by
      have ih := deepest_succ n
      have hstep : deepest (n + 2 + 1) = deepest (n + 1) + mostLinks (n + 2) + 2 :=
        deepest_add_two (n + 1)
      simp only [mostLinks, deepestOperand] at *
      omega

theorem deepestOperand_succ (n : Nat) : deepestOperand (n + 1) = 1 + deepest n := by
  cases n with
  | zero => rfl
  | succ n =>
      rw [deepest_succ, deepestOperand]
      omega

theorem deepestOperand_le_deepest : ∀ n, deepestOperand n ≤ deepest n
  | 0 => Nat.zero_le _
  | 1 => Nat.le_refl _
  | n + 2 => by
      have ih := deepestOperand_le_deepest n
      rw [deepest_succ, deepestOperand_succ, mostLinks, deepestOperand_succ, deepest_succ]
      omega

theorem deepest_lt_succ (n : Nat) : deepest n < deepest (n + 1) := by
  have hle := deepestOperand_le_deepest (n + 1)
  rw [deepestOperand_succ] at hle
  omega

theorem deepest_mono : Monotone deepest :=
  monotone_nat_of_le_succ fun n => Nat.le_of_lt (deepest_lt_succ n)

/-- Each level that an operand gives up costs it at least one level of nesting. -/
theorem add_deepestOperand_le (k n : Nat) :
    k + deepestOperand n ≤ deepestOperand (k + n) := by
  induction k with
  | zero => simp
  | succ k ih =>
      have hle := deepestOperand_le_deepest (k + n)
      rw [show k + 1 + n = k + n + 1 by omega, deepestOperand_succ]
      omega

/-- The nesting that a formula adds where it is written as a phrase. -/
def Phrase.nesting : Phrase → Formula → Nat
  | .operand, f => f.operandNesting
  | .chain _, f => f.nesting

def Phrase.deepest : Phrase → Nat → Nat
  | .operand, n => deepestOperand n
  | .chain _, n => Formula.deepest n

theorem Derives.nesting_le (h : Derives p w f n) : p.nesting f ≤ p.deepest n := by
  induction h with
  | letter _ => exact Nat.zero_le _
  | @negation w f n _ ih =>
      have hn := deepestOperand_le_deepest n
      simp only [Phrase.nesting, Phrase.deepest, operandNesting_neg] at *
      rw [Nat.add_comm 1 n, deepestOperand_succ]
      omega
  | @group k w f n _ ih =>
      have hbinary : f.isBinary.toNat ≤ 1 := Bool.toNat_le _
      simp only [Phrase.nesting, Phrase.deepest, operandNesting] at *
      rw [Nat.add_comm 1 n, deepestOperand_succ]
      omega
  | @single w f n _ ih =>
      have hn := deepestOperand_le_deepest n
      simp only [Phrase.nesting, Phrase.deepest, operandNesting] at *
      omega
  | @link k v w l r m n c hl _ ihl ihr =>
      have hlinks := hl.links_formula_le
      -- the cost covers the connective itself, so it is a successor
      obtain ⟨q, hq⟩ : ∃ q, max m (k + 1 + n) = q + 1 := ⟨max m (k + 1 + n) - 1, by omega⟩
      have hm : Formula.deepest m ≤ Formula.deepest (q + 1) := deepest_mono (by omega)
      have hhead : mostLinks (m - 1) ≤ mostLinks q := mostLinks_mono (by omega)
      have hlast : k + deepestOperand n ≤ deepestOperand q := by
        have hpush := add_deepestOperand_le (q - n) n
        rw [Nat.sub_add_cancel (by omega)] at hpush
        omega
      have hsucc := deepest_succ q
      simp only [Phrase.nesting, Phrase.deepest, Phrase.links, nesting, hq] at *
      rw [← operandNesting]
      omega

/-! ## The bound is reached -/

theorem exists_binary_nesting_eq {v : List Char} {r : Formula} (hr : Derives .operand v r n)
    (hnesting : r.operandNesting = deepestOperand n) :
    ∃ w c l r, Derives (.chain 1) w (binary c l r) (n + 1)
      ∧ (binary c l r).nesting = deepest (n + 1) := by
  obtain ⟨u, l, hl, hlinks⟩ := exists_links_eq n
  have hhead : Derives .operand ('(' :: u ++ [')']) l (1 + n) := .group hl
  have hlink := Derives.link .and (.single hhead) hr
  rw [show max (1 + n) (0 + 1 + n) = n + 1 by omega] at hlink
  refine ⟨_, _, l, r, hlink, Nat.le_antisymm hlink.nesting_le ?_⟩
  rw [deepest_succ, nesting, ← operandNesting, hnesting, hlinks]
  omega

theorem exists_operand_nesting_eq :
    ∀ n, ∃ w f, Derives .operand w f n ∧ f.operandNesting = deepestOperand n
  | 0 => ⟨['A'], var 'A', .letter (by decide), rfl⟩
  | 1 => ⟨['!', 'A'], neg (var 'A'), .negation (.letter (by decide)), rfl⟩
  | n + 2 => by
      obtain ⟨v, r, hr, hnesting⟩ := exists_operand_nesting_eq n
      obtain ⟨w, c, l, r, hf, hdeep⟩ := exists_binary_nesting_eq hr hnesting
      have hgroup : Derives .operand ('(' :: w ++ [')']) (binary c l r) (1 + (n + 1)) :=
        .group hf
      rw [Nat.add_comm 1 (n + 1)] at hgroup
      refine ⟨_, _, hgroup, ?_⟩
      rw [operandNesting_binary, hdeep, deepestOperand_succ]

theorem exists_writes_nesting_eq (n : Nat) : ∃ w f, Writes w f n ∧ f.nesting = deepest n := by
  cases n with
  | zero => exact ⟨['A'], var 'A', ⟨0, .single (.letter (by decide))⟩, rfl⟩
  | succ n =>
      obtain ⟨v, r, hr, hnesting⟩ := exists_operand_nesting_eq n
      obtain ⟨w, c, l, r, hf, hdeep⟩ := exists_binary_nesting_eq hr hnesting
      exact ⟨w, binary c l r, ⟨1, hf⟩, hdeep⟩

/-! ## Groups that do not lead -/

/-- No chain begins with a group: a parenthesis is opened after a connective or a negation
only. -/
def NoLeadingGroup (w : List Char) : Prop := w.head? ≠ some '(' ∧ ¬['(', '('] <:+: w

theorem Derives.isBinary_eq_false (h : Derives .operand w f n) (hw : w.head? ≠ some '(') :
    f.isBinary = false := by
  cases h with
  | letter _ => rfl
  | negation _ => rfl
  | group _ => exact absurd rfl hw

/-- A group that is no operand of its own keeps its parentheses in the notation, so no operand
moves. -/
theorem Derives.nesting_le_of_not_leading (h : Derives p w f n) (hw : ¬['(', '('] <:+: w) :
    match p with
    | .operand => f.operandNesting ≤ n
    | .chain k => w.head? ≠ some '(' → f.links = k ∧ f.nesting ≤ n := by
  induction h with
  | letter _ => exact Nat.zero_le _
  | @negation w f n _ ih =>
      have hbody := ih fun hin => hw (hin.trans (List.suffix_cons '!' w).isInfix)
      rw [operandNesting_neg]
      exact Nat.add_le_add_left hbody 1
  | @group k w f n hf ih =>
      have hin : w <:+: '(' :: w ++ [')'] := ⟨['('], [')'], rfl⟩
      -- two parentheses would meet
      have hhead : w.head? ≠ some '(' := by
        cases w with
        | nil => exact nofun
        | cons x w =>
            intro hx
            obtain rfl := Option.some.inj hx
            exact hw ⟨[], w ++ [')'], by simp⟩
      obtain ⟨-, hnesting⟩ := ih (fun hin' => hw (hin'.trans hin)) hhead
      have hbinary : f.isBinary.toNat ≤ 1 := Bool.toNat_le _
      rw [operandNesting]
      omega
  | @single w f n hf ih =>
      intro hhead
      have hbinary := hf.isBinary_eq_false hhead
      have hnesting := ih hw
      rw [operandNesting, hbinary] at hnesting
      refine ⟨?_, hnesting⟩
      cases f with
      | binary c l r => cases hbinary
      | var x => rfl
      | neg f => rfl
  | @link k v w l r m n c hl _ ihl ihr =>
      intro hhead
      have hleft : v <:+: v ++ c.symbol :: w := (List.prefix_append v _).isInfix
      have hright : w <:+: v ++ c.symbol :: w := ⟨v ++ [c.symbol], [], by simp⟩
      have hfirst : v.head? ≠ some '(' := by
        obtain ⟨x, v, rfl⟩ := List.exists_cons_of_ne_nil hl.ne_nil
        exact hhead
      obtain ⟨hlinks, hnesting⟩ := ihl (fun hin => hw (hin.trans hleft)) hfirst
      have hlast := ihr fun hin => hw (hin.trans hright)
      rw [operandNesting] at hlast
      refine ⟨congrArg (· + 1) hlinks, ?_⟩
      rw [nesting, hlinks]
      omega

theorem NoLeadingGroup.left {u v : List Char} (h : NoLeadingGroup (u ++ v)) (hu : u ≠ []) :
    NoLeadingGroup u := by
  constructor
  · obtain ⟨x, u, rfl⟩ := List.exists_cons_of_ne_nil hu
    exact h.1
  · exact fun hin => h.2 (hin.trans (List.prefix_append u v).isInfix)

theorem Writes.nesting_le_of_noLeadingGroup (h : Writes w f n) (hw : NoLeadingGroup w) :
    f.nesting ≤ n := by
  obtain ⟨k, hf⟩ := h
  exact (hf.nesting_le_of_not_leading hw.2 hw.1).2

/-! ## Reading again -/

variable {limits : Limits} {text : List Char}

theorem parse_text_eq_ok_iff (h : ∀ x ∈ f.vars, isLetter x = true) :
    (parse limits f.text).outcome = .ok f ↔ f.nesting ≤ limits.maxDepth := by
  constructor
  · intro hok
    rcases Nat.lt_or_ge limits.maxDepth f.nesting with hlt | hge
    · obtain ⟨pos, hpos⟩ := (heads_text h limits.tail).parse_tooDeep limits hlt
      cases hok.symm.trans hpos
    · exact hge
  · intro hn
    exact parse_eq_ok_iff.mpr ⟨f.nesting, hn, heads_text h limits.tail⟩

theorem nesting_le_deepest (h : (parse limits text).outcome = .ok f) :
    f.nesting ≤ deepest limits.maxDepth := by
  obtain ⟨u, v, n, -, ⟨k, hf⟩, hn⟩ := exists_writes_of_parse h
  exact Nat.le_trans hf.nesting_le (deepest_mono hn)

theorem deepest_eq_self {d : Nat} (hd : d ≤ 1) : deepest d = d := by
  rcases Nat.le_one_iff_eq_zero_or_eq_one.mp hd with rfl | rfl
  · rfl
  · rfl

theorem lt_deepest {d : Nat} (hd : 2 ≤ d) : d < deepest d := by
  induction d, hd using Nat.le_induction with
  | base => decide
  | succ d hd ih => exact Nat.lt_of_le_of_lt ih (deepest_lt_succ d)

/-- **What becomes of the notation of a formula that was read.** Under any limit it is read
as the same formula or is too deep, and its nesting decides which. The nesting is at most
`deepest` of the limit that let the text through, and gets that far. It stays within that
limit where no group leads a chain; for all texts it does so only under a limit of one or
none. -/
theorem reread_of_parse (limits : Limits) :
    (∀ text f, (parse limits text).outcome = .ok f →
        f.nesting ≤ deepest limits.maxDepth
          ∧ ∀ limits' : Limits,
              ((parse limits' f.text).outcome = .ok f ↔ f.nesting ≤ limits'.maxDepth)
                ∧ (limits'.maxDepth < f.nesting → ∃ pos,
                    (parse limits' f.text).outcome = .error (.tooDeep pos limits'.maxDepth)))
      ∧ (∃ text f, (parse limits text).outcome = .ok f ∧ f.nesting = deepest limits.maxDepth)
      ∧ (∀ text f, NoLeadingGroup (significant text) → (parse limits text).outcome = .ok f →
          (parse limits f.text).outcome = .ok f)
      ∧ ((∀ text f, (parse limits text).outcome = .ok f →
            (parse limits f.text).outcome = .ok f) ↔ limits.maxDepth ≤ 1) := by
  obtain ⟨w, g, hw, hg⟩ := exists_writes_nesting_eq limits.maxDepth
  have hread := hw.parse_eq limits (Nat.le_refl _)
  refine ⟨?_, ⟨w, g, hread, hg⟩, ?_, ?_⟩
  · intro text f hf
    exact ⟨nesting_le_deepest hf, fun limits' => ⟨parse_text_eq_ok_iff (isLetter_of_parse hf),
      (heads_text (isLetter_of_parse hf) limits'.tail).parse_tooDeep limits'⟩⟩
  · intro text f hlead hf
    obtain ⟨u, v, n, huv, hu, hn⟩ := exists_writes_of_parse hf
    rw [huv] at hlead
    rw [parse_text_eq_ok_iff (isLetter_of_parse hf)]
    exact Nat.le_trans (hu.nesting_le_of_noLeadingGroup (hlead.left hu.ne_nil)) hn
  · constructor
    · intro h
      have hkept := (parse_text_eq_ok_iff (isLetter_of_parse hread)).mp (h w g hread)
      rw [hg] at hkept
      rcases Nat.lt_or_ge 1 limits.maxDepth with hlt | hge
      · exact absurd hkept (Nat.not_le.mpr (lt_deepest hlt))
      · exact hge
    · intro hdepth text f hf
      have hle := nesting_le_deepest hf
      rw [parse_text_eq_ok_iff (isLetter_of_parse hf)]
      rwa [deepest_eq_self hdepth] at hle

/-- The limit that is set when nothing else is asked for. -/
example : deepest { : Limits }.maxDepth = 11218048 := rfl

/-- `(A&B)&C&D` is read with a limit of two, and `A&B&C&D` needs three. -/
theorem reread_too_deep :
    ¬ ∀ (limits : Limits) (text : List Char) (f : Formula),
      (parse limits text).outcome = .ok f → (parse limits f.text).outcome = .ok f := by
  intro h
  have hread :
      (parse { maxDepth := 2 } ['(', 'A', '&', 'B', ')', '&', 'C', '&', 'D']).outcome =
        .ok (binary .and (binary .and (binary .and (var 'A') (var 'B')) (var 'C'))
          (var 'D')) := by
    rfl
  have hagain := h _ _ _ hread
  have hdeep : (parse { maxDepth := 2 } ['A', '&', 'B', '&', 'C', '&', 'D']).outcome =
      .error (.tooDeep 5 2) := by rfl
  cases hdeep.symm.trans hagain

end Formula

end TruthTable
