import Mathlib.Algebra.Group.Nat.Defs
import TruthTable.Proofs.Deepening
import TruthTable.Proofs.Descent
import TruthTable.Proofs.Resuming

/-!
# The depth counter comes back

Reading by parts is balanced (`balanced_operand`, `balanced_expression`). Two things are
left to show of it.

- The counter is a machine word. A change in range is exact in each word that can hold the
  limit, the largest limit included, and a change downwards starts above zero
  (`Change.Fits`).
- It is the same reader. A part is read in the middle of other parts, and a run has a slot
  for each group around it, so the two are compared with any slots around
  (`Return.Matches`): where the part returns a fault, the run has stopped with it; where it
  returns a formula, the run has come to the reading that the formula leads to, and goes on.
  A fault needs no second look on its way out, since the run is over then. With no slots
  around, an expression is all that the reader reads (`formula_eq_expression`).
-/

namespace TruthTable.Descent

open Formula Reading

/-! ## Changes in range -/

/-- What the change leaves in a machine word of so many bits. -/
def Change.inWord (width : Nat) : Change → BitVec width
  | up n => BitVec.ofNat width n + BitVec.ofNat width 1
  | down n => BitVec.ofNat width n - BitVec.ofNat width 1
  | reset _ base => BitVec.ofNat width base

/-- A change within the range from `low` to `high`. A word that can hold `high` does not
wrap. -/
structure Change.Fits (low high : Nat) (c : Change) : Prop where
  before_mem : low ≤ c.before ∧ c.before ≤ high
  after_mem : low ≤ c.after ∧ c.after ≤ high
  down_pos : ∀ n, c = .down n → 0 < n
  toNat_inWord : ∀ width, high < 2 ^ width → (c.inWord width).toNat = c.after

section Fits

variable {low high d d' : Nat} {cs : List Change}

theorem toNat_ofNat_of_le {n width : Nat} (hn : n ≤ high) (hwidth : high < 2 ^ width) :
    (BitVec.ofNat width n).toNat = n := by
  rw [BitVec.toNat_ofNat, Nat.mod_eq_of_lt (Nat.lt_of_le_of_lt hn hwidth)]

theorem fits_up (hlow : low ≤ d) (hhigh : d < high) : (Change.up d).Fits low high where
  before_mem := ⟨hlow, Nat.le_of_lt hhigh⟩
  after_mem := ⟨Nat.le_succ_of_le hlow, hhigh⟩
  down_pos := nofun
  toNat_inWord width hwidth := by
    rw [Change.inWord, ← BitVec.ofNat_add]
    exact toNat_ofNat_of_le hhigh hwidth

theorem fits_down (hlow : low ≤ d) (hhigh : d < high) :
    (Change.down (d + 1)).Fits low high where
  before_mem := ⟨Nat.le_succ_of_le hlow, hhigh⟩
  after_mem := ⟨hlow, Nat.le_of_lt hhigh⟩
  down_pos n hn := by
    obtain rfl := Change.down.inj hn
    exact Nat.succ_pos d
  toNat_inWord width hwidth := by
    rw [Change.inWord, BitVec.ofNat_add, BitVec.add_sub_cancel]
    exact toNat_ofNat_of_le (Nat.le_of_lt hhigh) hwidth

theorem fits_reset {base : Nat} (hlow : low ≤ base) (hbase : base ≤ d) (hhigh : d ≤ high) :
    (Change.reset d base).Fits low high where
  before_mem := ⟨Nat.le_trans hlow hbase, hhigh⟩
  after_mem := ⟨hlow, Nat.le_trans hbase hhigh⟩
  down_pos := nofun
  toNat_inWord _ hwidth := toNat_ofNat_of_le (Nat.le_trans hbase hhigh) hwidth

theorem Counts.fits (h : Counts low high d cs d') : ∀ c ∈ cs, c.Fits low high := by
  induction h with
  | nil => nofun
  | up hlow hhigh _ ih => exact List.forall_mem_cons.mpr ⟨fits_up hlow hhigh, ih⟩
  | down hlow hhigh _ ih => exact List.forall_mem_cons.mpr ⟨fits_down hlow hhigh, ih⟩
  | reset hlow hbase hhigh _ ih =>
      exact List.forall_mem_cons.mpr ⟨fits_reset hlow hbase hhigh, ih⟩

end Fits

/-! ## The same reader -/

/-- The run of the reader from `p` is what the part says: at a fault it stops with that
fault and leaves the same lexemes, and behind a formula it goes on from a reading that the
formula leads to. -/
structure Return.Matches {ts : List Lexeme} (limit stop : Nat) (p : Reading)
    (reaches : Formula → List Lexeme → Reading → Prop) (r : Return ts) : Prop where
  error : ∀ e, r.outcome = .error e →
    (run limit stop p ts).outcome = .error e ∧ (run limit stop p ts).rest = r.rest
  ok : ∀ f, r.outcome = .ok f →
    ∃ q, reaches f r.rest q ∧ run limit stop p ts = run limit stop q r.rest

/-- The operand is complete and in its place. -/
def Placed (slot : Slot) (outer : List Slot) (d : Nat) (f : Formula) (_ : List Lexeme)
    (q : Reading) : Prop :=
  q = filled slot outer d f

/-- The chain is complete: it holds a level for each connective, and no other connective
follows. -/
def Chained (outer : List Slot) (d : Nat) (f : Formula) (rest : List Lexeme)
    (q : Reading) : Prop :=
  (∃ k, q = ⟨.connective f k, outer, d + k⟩) ∧ ∀ t ∈ rest.head?, ∀ c, t.kind ≠ .connective c

theorem placed_neg (slot : Slot) (outer : List Slot) (d : Nat) :
    (fun f => Placed slot outer d (neg f)) = Placed slot.negated outer (d + 1) := by
  funext f rest q
  rw [Placed, Placed, filled_negated]

section Moving

variable {limit : Nat} {p q : Reading} {t : Lexeme}

theorem run_next (he : Effect limit p t (.next q)) (stop : Nat) (ts : List Lexeme) :
    run limit stop p (t :: ts) = run limit stop q ts :=
  (Moves.head he .refl).run_eq stop ts

/-- A group gives back the levels of its chain and its own. -/
theorem effect_close (limit : Nat) (f : Formula) (k : Nat) (slot : Slot) (outer : List Slot)
    (d : Nat) (ht : t.kind = .closing) :
    Effect limit ⟨.connective f k, slot :: outer, d + 1 + k⟩ t
      (.next (filled slot outer d f)) := by
  have hclosing : Effect limit ⟨.connective f k, slot :: outer, d + 1 + k⟩ t
      (.next (filled slot outer (d + 1 + k - k - 1) f)) := .closing ht
  have hlevels : d + 1 + k - k - 1 = d := by omega
  rwa [hlevels] at hclosing

end Moving

namespace Return

variable {limit stop d : Nat} {t : Lexeme} {ts : List Lexeme} {p q : Reading} {r : Return ts}
  {reaches mid : Formula → List Lexeme → Reading → Prop}

theorem matches_error {e : ReadFault} (hout : r.outcome = .error e)
    (hrun : run limit stop p ts = ⟨.error e, r.rest, q⟩) :
    r.Matches limit stop p reaches where
  error e' he' := by
    obtain rfl := Except.error.inj (hout.symm.trans he')
    rw [hrun]
    exact ⟨rfl, rfl⟩
  ok f hf := by rw [hout] at hf; cases hf

theorem matches_ok {f : Formula} (hout : r.outcome = .ok f) (hq : reaches f r.rest q)
    (hrun : run limit stop p ts = run limit stop q r.rest) :
    r.Matches limit stop p reaches where
  error e he := by rw [hout] at he; cases he
  ok g hg := by
    obtain rfl := Except.ok.inj (hout.symm.trans hg)
    exact ⟨q, hq, hrun⟩

/-- A part that returns a fault reaches nothing, so all that it may reach is the same. -/
theorem Matches.of_error {e : ReadFault} (h : r.Matches limit stop p mid)
    (hout : r.outcome = .error e) : r.Matches limit stop p reaches where
  error := h.error
  ok f hf := by rw [hout] at hf; cases hf

theorem matches_leaf_ok {f : Formula} (h : reaches f ts p) (d : Nat) :
    (leaf (.ok f) d : Return ts).Matches limit stop p reaches :=
  matches_ok rfl h rfl

theorem matches_fault {e : ReadFault} {consumed : Bool} {r : Return (t :: ts)}
    (he : Effect limit p t (.fault e consumed)) (hout : r.outcome = .error e)
    (hrest : r.rest = if consumed then ts else t :: ts) : r.Matches limit stop p reaches :=
  matches_error hout (hrest ▸ (Stops.fault he).run_eq)

theorem Matches.past (h : r.Matches limit stop q reaches) (he : Effect limit p t (.next q)) :
    (r.past t).Matches limit stop p reaches := by
  constructor
  · rw [run_next he]
    exact h.error
  · rw [run_next he]
    exact h.ok

/-! The changes of the counter decide nothing about the outcome and what is left. -/

theorem Matches.enter (h : r.Matches limit stop p reaches) (d : Nat) :
    (r.enter d).Matches limit stop p reaches :=
  ⟨h.error, h.ok⟩

theorem Matches.leave (h : r.Matches limit stop p reaches) :
    r.leave.Matches limit stop p reaches :=
  ⟨h.error, h.ok⟩

theorem Matches.restore (h : r.Matches limit stop p reaches) (d : Nat) :
    (r.restore d).Matches limit stop p reaches :=
  ⟨h.error, h.ok⟩

theorem Matches.map {g : Formula → Formula}
    (h : r.Matches limit stop p fun f => reaches (g f)) :
    (r.map g).Matches limit stop p reaches := by
  obtain ⟨outcome, rest, depth, changes, hsuffix⟩ := r
  cases outcome with
  | error e => exact h.of_error rfl
  | ok f =>
      obtain ⟨q, hq, hrun⟩ := h.ok f rfl
      exact matches_ok rfl hq hrun

theorem Matches.andThen {next : Formula → Return r.rest} (h : r.Matches limit stop p mid)
    (hnext : ∀ f q, mid f r.rest q → (next f).Matches limit stop q reaches) :
    (r.andThen next).Matches limit stop p reaches := by
  obtain ⟨outcome, rest, depth, changes, hsuffix⟩ := r
  cases outcome with
  | error e => exact h.of_error rfl
  | ok f =>
      obtain ⟨q, hq, hrun⟩ := h.ok f rfl
      have hmatches := hnext f q hq
      constructor
      · rw [hrun]
        exact hmatches.error
      · rw [hrun]
        exact hmatches.ok

theorem Matches.close {slot : Slot} {outer : List Slot}
    (h : r.Matches limit stop p (Chained (slot :: outer) (d + 1))) :
    (r.close stop).Matches limit stop p (Placed slot outer d) := by
  obtain ⟨outcome, rest, depth, changes, hsuffix⟩ := r
  cases outcome with
  | error e => exact h.of_error rfl
  | ok f =>
      obtain ⟨q, ⟨⟨k, rfl⟩, hunlinked⟩, hrun⟩ := h.ok f rfl
      cases rest with
      | nil => exact matches_error rfl hrun
      | cons u rest =>
          by_cases hu : u.kind = .closing
          · have hclose := effect_close limit f k slot outer d hu
            simp only [Return.close, if_pos hu]
            exact matches_ok rfl rfl (hrun.trans (run_next hclose stop rest))
          · have hfault : Effect limit ⟨.connective f k, slot :: outer, d + 1 + k⟩ u
                (.fault (.unclosed u.pos (some u.symbol)) true) :=
              .unclosed (hunlinked u rfl) hu
            simp only [Return.close, if_neg hu]
            exact matches_error rfl (hrun.trans (Stops.fault hfault).run_eq)

end Return

mutual

theorem matches_operand (limit stop : Nat) (ts : List Lexeme) (d : Nat) (slot : Slot)
    (outer : List Slot) :
    (operand limit stop ts d).Matches limit stop ⟨.operand slot, outer, d⟩
      (Placed slot outer d) := by
  rw [operand.eq_def]
  cases ts with
  | nil => exact Return.matches_error rfl rfl
  | cons t ts =>
      simp only
      split
      · next hk =>
        by_cases hd : d < limit
        · rw [nested, if_pos hd]
          have hgroup := matches_expression limit stop ts (d + 1) (slot :: outer)
          exact (hgroup.leave.enter d).close.past (.opening hk hd)
        · rw [nested, if_neg hd]
          exact Return.matches_fault (.signTooDeep (.inl hk) (Nat.not_lt.mp hd)) rfl rfl
      · next hk =>
        by_cases hd : d < limit
        · rw [nested, if_pos hd]
          have hnegated := matches_operand limit stop ts (d + 1) slot.negated outer
          rw [← placed_neg] at hnegated
          exact (hnegated.leave.enter d).map.past (.negation hk hd)
        · rw [nested, if_neg hd]
          exact Return.matches_fault (.signTooDeep (.inr hk) (Nat.not_lt.mp hd)) rfl rfl
      · next hk => exact (Return.matches_leaf_ok rfl d).past (.letter hk)
      · next h₁ h₂ h₃ =>
        exact Return.matches_fault (.operandExpected h₁ h₂ h₃) rfl rfl
termination_by 3 * ts.length

theorem matches_links (limit stop : Nat) (f : Formula) (ts : List Lexeme) (d k : Nat)
    (outer : List Slot) :
    (links limit stop f ts (d + k)).Matches limit stop ⟨.connective f k, outer, d + k⟩
      (Chained outer d) := by
  rw [links.eq_def]
  cases ts with
  | nil => exact Return.matches_leaf_ok ⟨⟨k, rfl⟩, nofun⟩ _
  | cons t ts =>
      simp only
      split
      · next c hc =>
        split
        · next hlt =>
          have hright := matches_operand limit stop ts (d + k + 1) (.after f c (k + 1)) outer
          have hdepth := (balanced_operand limit stop ts (d + k + 1)).depth_eq
          -- the recursion is on what the operand has left
          have hrest := (operand limit stop ts (d + k + 1)).length_rest_le
          refine ((hright.andThen fun g q hq => ?_).enter (d + k)).past (.connective hc hlt)
          obtain rfl := hq
          rw [hdepth]
          exact matches_links limit stop (binary c f g)
            (operand limit stop ts (d + k + 1)).rest d (k + 1) outer
        · next hd =>
          exact Return.matches_fault (.connectiveTooDeep hc (Nat.not_lt.mp hd)) rfl rfl
      · next hc =>
        refine Return.matches_leaf_ok ⟨⟨k, rfl⟩, fun u hu => ?_⟩ _
        obtain rfl := Option.some.inj hu
        exact hc
termination_by 3 * ts.length

theorem matches_chain (limit stop : Nat) (ts : List Lexeme) (d : Nat) (outer : List Slot) :
    (chain limit stop ts d).Matches limit stop ⟨.operand .first, outer, d⟩
      (Chained outer d) := by
  rw [chain.eq_def]
  have hfirst := matches_operand limit stop ts d .first outer
  have hdepth := (balanced_operand limit stop ts d).depth_eq
  have hrest := (operand limit stop ts d).length_rest_le
  refine hfirst.andThen fun f q hq => ?_
  obtain rfl := hq
  rw [hdepth]
  exact matches_links limit stop f (operand limit stop ts d).rest d 0 outer
termination_by 3 * ts.length + 1

theorem matches_expression (limit stop : Nat) (ts : List Lexeme) (d : Nat)
    (outer : List Slot) :
    (expression limit stop ts d).Matches limit stop ⟨.operand .first, outer, d⟩
      (Chained outer d) := by
  rw [expression.eq_def]
  exact (matches_chain limit stop ts d outer).restore d
termination_by 3 * ts.length + 2

end

theorem run_start_eq_expression (limit stop : Nat) (ts : List Lexeme) (d : Nat) :
    (run limit stop (start d) ts).outcome = (expression limit stop ts d).outcome
      ∧ (run limit stop (start d) ts).rest = (expression limit stop ts d).rest := by
  have hmatches : (expression limit stop ts d).Matches limit stop (start d) (Chained [] d) :=
    matches_expression limit stop ts d []
  cases hout : (expression limit stop ts d).outcome with
  | error e => exact hmatches.error e hout
  | ok f =>
      obtain ⟨q, ⟨⟨k, rfl⟩, hunlinked⟩, hrun⟩ := hmatches.ok f hout
      rw [hrun]
      cases hrest : (expression limit stop ts d).rest with
      | nil => exact ⟨rfl, rfl⟩
      | cons t rest =>
          rw [hrest] at hunlinked
          have hcomplete : Effect limit ⟨.connective f k, [], d + k⟩ t (.complete f) :=
            .complete (hunlinked t rfl)
          rw [(Stops.complete hcomplete).run_eq]
          exact ⟨rfl, rfl⟩

theorem formula_eq_expression {r : Reader} (hd : r.depth ≤ r.limit) :
    r.formula =
      ((expression r.limit r.stop r.rest r.depth).outcome,
        { r with
          rest := (expression r.limit r.stop r.rest r.depth).rest
          depth := (expression r.limit r.stop r.rest r.depth).depth }) := by
  obtain ⟨hout, hrest⟩ := run_start_eq_expression r.limit r.stop r.rest r.depth
  have hdepth := (balanced_expression r.limit r.stop r.rest r.depth hd).depth_eq
  rw [Reader.formula, ← hout, ← hrest, hdepth, run_released hd]

/-! ## The counter comes back -/

section Readings

variable {limit base d : Nat} {q : Reading} {outer : List Slot} {w : List Char}

theorem base_le_of_stacked (h : Stacked limit base outer w d) : base ≤ d := by
  induction h with
  | nil => exact Nat.le_refl base
  | cons _ _ _ ih => omega

theorem base_le_of_understands (h : Understands limit base q w) : base ≤ q.depth := by
  cases h with
  | operand ho _ _ _ => exact Nat.le_add_right_of_le (base_le_of_stacked ho)
  | connective ho _ _ => exact Nat.le_add_right_of_le (base_le_of_stacked ho)

end Readings

/-- **The depth counter comes back and stays in range.** An operand and an expression, read
from any place on and with the counter anywhere up to the limit, return with the counter
where it was, whether they return a formula or a fault. On the way it stays between that
value and the limit, never goes down from zero, and never wraps in a word that can hold the
limit. The same range holds for the readings of a run, and a run reads just these operands
and expressions. -/
theorem counter_comes_back (r : Reader) (hd : r.depth ≤ r.limit) :
    let primary := operand r.limit r.stop r.rest r.depth
    let formula := expression r.limit r.stop r.rest r.depth
    primary.depth = r.depth
      ∧ formula.depth = r.depth
      ∧ Counts r.depth r.limit r.depth primary.changes r.depth
      ∧ Counts r.depth r.limit r.depth formula.changes r.depth
      ∧ (∀ c ∈ primary.changes ++ formula.changes, c.Fits r.depth r.limit)
      ∧ (∀ us q, Moves r.limit (start r.depth) us q →
          (r.depth ≤ q.depth ∧ q.depth ≤ r.limit) ∧ q.released = r.depth)
      ∧ (∀ slot outer, primary.Matches r.limit r.stop ⟨.operand slot, outer, r.depth⟩
          (Placed slot outer r.depth))
      ∧ r.formula =
          (formula.outcome, { r with rest := formula.rest, depth := formula.depth }) := by
  intro primary formula
  have hprimary : primary.Balanced r.limit r.depth :=
    balanced_operand r.limit r.stop r.rest r.depth
  have hformula : formula.Balanced r.limit r.depth :=
    balanced_expression r.limit r.stop r.rest r.depth hd
  refine ⟨hprimary.depth_eq, hformula.depth_eq, hprimary.counts, hformula.counts, ?_, ?_, ?_,
    formula_eq_expression hd⟩
  · exact List.forall_mem_append.mpr ⟨hprimary.counts.fits, hformula.counts.fits⟩
  · intro us q hmoves
    have hq := Understands.moves hmoves (understands_start hd)
    exact ⟨⟨base_le_of_understands hq, hmoves.depth_le_limit hd⟩, hq.released_eq⟩
  · exact matches_operand r.limit r.stop r.rest r.depth

/-- The text ends in a chain, in a group, in a negation. -/
theorem counter_comes_back_unclosed :
    (1 ≤ 9 ∧ (⟨Lexeme.ofText ['!', '(', 'A', '&', 'B'], 1, 9, 5⟩ : Reader).formula =
        (.error (.unclosed 5 none), ⟨[], 1, 9, 5⟩))
      ∧ (expression 9 5 (Lexeme.ofText ['!', '(', 'A', '&', 'B']) 1).changes =
        [.up 1, .up 2, .up 3, .reset 4 3, .down 3, .down 2, .reset 1 1]
      ∧ (expression 9 5 (Lexeme.ofText ['!', '(', 'A', '&', 'B']) 1).depth = 1 := by
  have hback :=
    counter_comes_back ⟨Lexeme.ofText ['!', '(', 'A', '&', 'B'], 1, 9, 5⟩ (by decide)
  exact ⟨⟨by decide, rfl⟩, by decide +kernel, hback.2.1⟩

end TruthTable.Descent
