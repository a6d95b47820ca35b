import TruthTable.Reading

/-!
# Reading by recursive descent

A run of the reader goes from reading to reading. Here a formula is read by its parts
instead: an operand is a letter, a negated operand or a group; a chain is an operand with
links; an expression is a chain that gives its levels back. The depth counter is passed from
part to part, and a part returns it with every change that was made to it (`Return`).

Levels are given back in two ways. Whoever enters a group or a negation goes down by one
afterwards, which is right only if all that was inside has come back to the level it began
at. A chain takes a level for each connective and holds them to its end, wherever that is;
the expression knows where the chain began and sets the counter back to it. Either is done
after a fault as it is after a formula.

So an operand and an expression are balanced (`Return.Balanced`). Links and a chain are not:
they end above the level they began at, and what is true of them is that the counter has
stayed in range (`Counts`). Each way to put parts together has its own lemma for the
counter, and the theorems on the parts follow the recursion.
-/

namespace TruthTable.Descent

open Formula

/-! ## The counter -/

/-- A change of the depth counter, with the value that it is made to. -/
inductive Change where
  /-- A sign is entered. -/
  | up (n : Nat)
  /-- A group or a negation is left. -/
  | down (n : Nat)
  /-- A chain is left, and with it all its connectives. -/
  | reset (n base : Nat)
deriving DecidableEq, Repr

namespace Change

def before : Change → Nat
  | up n => n
  | down n => n
  | reset n _ => n

def after : Change → Nat
  | up n => n + 1
  | down n => n - 1
  | reset _ base => base

end Change

/-- The changes lead the counter from one value to another, one after the other, and it
never leaves the range from `low` to `high`. So it goes up only where there is room, and
down only to a value that is in the range as well. -/
inductive Counts (low high : Nat) : Nat → List Change → Nat → Prop where
  | nil {d : Nat} : Counts low high d [] d
  | up {d d' : Nat} {cs : List Change} :
      low ≤ d → d < high → Counts low high (d + 1) cs d' → Counts low high d (.up d :: cs) d'
  | down {d d' : Nat} {cs : List Change} :
      low ≤ d → d < high → Counts low high d cs d' →
      Counts low high (d + 1) (.down (d + 1) :: cs) d'
  | reset {d base d' : Nat} {cs : List Change} :
      low ≤ base → base ≤ d → d ≤ high → Counts low high base cs d' →
      Counts low high d (.reset d base :: cs) d'

namespace Counts

variable {low low' high d d' d'' : Nat} {cs cs' : List Change}

theorem append (h : Counts low high d cs d') (h' : Counts low high d' cs' d'') :
    Counts low high d (cs ++ cs') d'' := by
  induction h with
  | nil => exact h'
  | up hlow hhigh _ ih => exact .up hlow hhigh (ih h')
  | down hlow hhigh _ ih => exact .down hlow hhigh (ih h')
  | reset hlow hbase hhigh _ ih => exact .reset hlow hbase hhigh (ih h')

theorem mono (h : Counts low high d cs d') (hle : low' ≤ low) : Counts low' high d cs d' := by
  induction h with
  | nil => exact .nil
  | up hlow hhigh _ ih => exact .up (Nat.le_trans hle hlow) hhigh ih
  | down hlow hhigh _ ih => exact .down (Nat.le_trans hle hlow) hhigh ih
  | reset hlow hbase hhigh _ ih => exact .reset (Nat.le_trans hle hlow) hbase hhigh ih

theorem last_mem (h : Counts low high d cs d') (hd : low ≤ d ∧ d ≤ high) :
    low ≤ d' ∧ d' ≤ high := by
  induction h with
  | nil => exact hd
  | up hlow hhigh _ ih => exact ih ⟨Nat.le_succ_of_le hlow, hhigh⟩
  | down hlow hhigh _ ih => exact ih ⟨hlow, Nat.le_of_lt hhigh⟩
  | reset hlow hbase hhigh _ ih => exact ih ⟨hlow, Nat.le_trans hbase hhigh⟩

end Counts

/-- What a part of a text is read as, what is left behind it, and the counter with all changes
made to it. -/
structure Return (ts : List Lexeme) where
  outcome : Except ReadFault Formula
  rest : List Lexeme
  depth : Nat
  changes : List Change
  rest_suffix : rest <:+ ts

namespace Return

variable {ts : List Lexeme}

theorem length_rest_le (r : Return ts) : r.rest.length ≤ ts.length := r.rest_suffix.length_le

/-- The counter is not touched, and nothing is read. -/
def leaf (outcome : Except ReadFault Formula) (d : Nat) : Return ts :=
  ⟨outcome, ts, d, [], List.suffix_refl ts⟩

/-- The same behind a lexeme that was read first. -/
def past (t : Lexeme) (r : Return ts) : Return (t :: ts) :=
  { r with rest_suffix := r.rest_suffix.trans (List.suffix_cons t ts) }

def map (g : Formula → Formula) (r : Return ts) : Return ts :=
  { r with outcome := r.outcome.map g }

/-- Go on behind the formula; a fault ends the reading. -/
def andThen (r : Return ts) (next : Formula → Return r.rest) : Return ts :=
  match r.outcome with
  | .error _ => r
  | .ok f =>
    { next f with
      changes := r.changes ++ (next f).changes
      rest_suffix := (next f).rest_suffix.trans r.rest_suffix }

/-- The parenthesis that closes a group has to follow. Another lexeme is at fault and counts
as read. -/
def close (stop : Nat) (r : Return ts) : Return ts :=
  match r.outcome, hrest : r.rest with
  | .error _, _ => r
  | .ok _, [] => { r with outcome := .error (.unclosed stop none) }
  | .ok _, u :: rest =>
    have hsuffix : rest <:+ ts := (hrest ▸ List.suffix_cons u rest).trans r.rest_suffix
    if u.kind = .closing then { r with rest := rest, rest_suffix := hsuffix }
    else { r with
      outcome := .error (.unclosed u.pos (some u.symbol))
      rest := rest
      rest_suffix := hsuffix }

/-- The counter went up from `d` before. -/
def enter (d : Nat) (r : Return ts) : Return ts := { r with changes := .up d :: r.changes }

/-- The counter goes down afterwards. -/
def leave (r : Return ts) : Return ts :=
  { r with depth := r.depth - 1, changes := r.changes ++ [.down r.depth] }

/-- The counter is set back to `d` afterwards. -/
def restore (d : Nat) (r : Return ts) : Return ts :=
  { r with depth := d, changes := r.changes ++ [.reset r.depth d] }

end Return

/-! ## The parts of a formula -/

/-- What a sign encloses, one level deeper. The sign at `pos` counts as read, also where no
level is left for it. -/
def nested {ts : List Lexeme} (limit pos d : Nat) (inner : Nat → Return ts) : Return ts :=
  if d < limit then (inner (d + 1)).leave.enter d
  else .leaf (.error (.tooDeep pos limit)) d

mutual

/-- A letter, a negated operand, or a chain in parentheses. -/
def operand (limit stop : Nat) (ts : List Lexeme) (d : Nat) : Return ts :=
  match ts with
  | [] => .leaf (.error .unfinished) d
  | t :: ts =>
    match t.kind with
    | .opening => ((nested limit t.pos d (expression limit stop ts)).close stop).past t
    | .negation => ((nested limit t.pos d (operand limit stop ts)).map neg).past t
    | .letter => (Return.leaf (.ok (var t.symbol)) d).past t
    | _ => (Return.leaf (.error (.operandExpected t.pos t.symbol)) d).past t
termination_by 3 * ts.length

/-- The connectives that follow a chain, each with the operand to its right. A connective
for which no level is left does not count as read. -/
def links (limit stop : Nat) (f : Formula) (ts : List Lexeme) (d : Nat) : Return ts :=
  match ts with
  | [] => .leaf (.ok f) d
  | t :: ts =>
    match t.kind with
    | .connective c =>
      if d < limit then
        let right := operand limit stop ts (d + 1)
        ((right.andThen fun g =>
          links limit stop (binary c f g) right.rest right.depth).enter d).past t
      else .leaf (.error (.tooDeep t.pos limit)) d
    | _ => .leaf (.ok f) d
termination_by 3 * ts.length
decreasing_by
  · simp
  · have hright := right.length_rest_le
    exact Nat.mul_lt_mul_of_pos_left (Nat.lt_succ_of_le hright) (by decide)

/-- An operand and what follows it. The levels of the connectives are held at the end. -/
def chain (limit stop : Nat) (ts : List Lexeme) (d : Nat) : Return ts :=
  let first := operand limit stop ts d
  first.andThen fun f => links limit stop f first.rest first.depth
termination_by 3 * ts.length + 1
decreasing_by
  · omega
  · have hfirst := first.length_rest_le
    exact Nat.lt_succ_of_le (Nat.mul_le_mul_left 3 hfirst)

/-- A chain that gives its levels back, however it ends. -/
def expression (limit stop : Nat) (ts : List Lexeme) (d : Nat) : Return ts :=
  (chain limit stop ts d).restore d
termination_by 3 * ts.length + 2

end

/-! ## Balance -/

/-- A part that has given back all that it took, and nothing else. -/
structure Return.Balanced {ts : List Lexeme} (limit d : Nat) (r : Return ts) : Prop where
  depth_eq : r.depth = d
  counts : Counts d limit d r.changes d

namespace Return

variable {ts : List Lexeme} {limit low high d : Nat} {r : Return ts}

theorem balanced_leaf (limit : Nat) (outcome : Except ReadFault Formula) (d : Nat) :
    (leaf outcome d : Return ts).Balanced limit d :=
  ⟨rfl, .nil⟩

theorem Balanced.counts_depth (h : r.Balanced limit d) :
    Counts d limit d r.changes r.depth := by
  rw [h.depth_eq]
  exact h.counts

theorem Balanced.past (h : r.Balanced limit d) (t : Lexeme) : (r.past t).Balanced limit d :=
  ⟨h.depth_eq, h.counts⟩

theorem Balanced.map (h : r.Balanced limit d) (g : Formula → Formula) :
    (r.map g).Balanced limit d :=
  ⟨h.depth_eq, h.counts⟩

/-- Closing a group leaves the counter alone. -/
theorem close_counter (stop : Nat) (r : Return ts) :
    (r.close stop).depth = r.depth ∧ (r.close stop).changes = r.changes := by
  unfold close
  split
  · exact ⟨rfl, rfl⟩
  · exact ⟨rfl, rfl⟩
  · split <;> exact ⟨rfl, rfl⟩

theorem Balanced.close (h : r.Balanced limit d) (stop : Nat) :
    (r.close stop).Balanced limit d := by
  obtain ⟨hdepth, hchanges⟩ := close_counter stop r
  exact ⟨hdepth.trans h.depth_eq, hchanges ▸ h.counts⟩

theorem counts_andThen {next : Formula → Return r.rest}
    (h : Counts low high d r.changes r.depth)
    (hnext : ∀ f, Counts low high r.depth (next f).changes (next f).depth) :
    Counts low high d (r.andThen next).changes (r.andThen next).depth := by
  unfold andThen
  split
  · exact h
  · next f _ => exact h.append (hnext f)

theorem balanced_restore (hd : d ≤ limit) (h : Counts d limit d r.changes r.depth) :
    (r.restore d).Balanced limit d := by
  obtain ⟨hle, hlimit⟩ := h.last_mem ⟨Nat.le_refl d, hd⟩
  exact ⟨rfl, h.append (.reset (Nat.le_refl d) hle hlimit .nil)⟩

theorem Balanced.leave_enter (h : r.Balanced limit (d + 1)) (hd : d < limit) :
    (r.leave.enter d).Balanced limit d := by
  have hdown : Counts d limit r.depth [.down r.depth] d := by
    rw [h.depth_eq]
    exact .down (Nat.le_refl d) hd .nil
  have hinside := (h.counts_depth.mono (Nat.le_succ d)).append hdown
  refine ⟨?_, .up (Nat.le_refl d) hd hinside⟩
  show r.depth - 1 = d
  rw [h.depth_eq, Nat.add_sub_cancel]

end Return

theorem balanced_nested {ts : List Lexeme} {limit d : Nat} (pos : Nat)
    {inner : Nat → Return ts}
    (hinner : d < limit → (inner (d + 1)).Balanced limit (d + 1)) :
    (nested limit pos d inner).Balanced limit d := by
  unfold nested
  split
  · next hd => exact (hinner hd).leave_enter hd
  · exact Return.balanced_leaf limit _ d

mutual

theorem balanced_operand (limit stop : Nat) (ts : List Lexeme) (d : Nat) :
    (operand limit stop ts d).Balanced limit d := by
  rw [operand.eq_def]
  cases ts with
  | nil => exact Return.balanced_leaf limit _ d
  | cons t ts =>
      simp only
      split
      · refine ((balanced_nested t.pos fun hlt => ?_).close stop).past t
        exact balanced_expression limit stop ts (d + 1) hlt
      · refine ((balanced_nested t.pos fun _ => ?_).map neg).past t
        exact balanced_operand limit stop ts (d + 1)
      · exact (Return.balanced_leaf limit _ d).past t
      · exact (Return.balanced_leaf limit _ d).past t
termination_by 3 * ts.length

theorem counts_links (limit stop : Nat) (f : Formula) (ts : List Lexeme) (d : Nat) :
    Counts d limit d (links limit stop f ts d).changes (links limit stop f ts d).depth := by
  rw [links.eq_def]
  cases ts with
  | nil => exact .nil
  | cons t ts =>
      simp only
      split
      · next c _ =>
        split
        · next hlt =>
          have hright := balanced_operand limit stop ts (d + 1)
          -- the recursion is on what the operand has left
          have hrest := (operand limit stop ts (d + 1)).length_rest_le
          have hcounts := hright.counts_depth.mono (Nat.le_succ d)
          refine .up (Nat.le_refl d) hlt (Return.counts_andThen hcounts fun g => ?_)
          have hlinks := counts_links limit stop (binary c f g)
            (operand limit stop ts (d + 1)).rest (d + 1)
          rw [hright.depth_eq]
          exact hlinks.mono (Nat.le_succ d)
        · exact .nil
      · exact .nil
termination_by 3 * ts.length

theorem counts_chain (limit stop : Nat) (ts : List Lexeme) (d : Nat) :
    Counts d limit d (chain limit stop ts d).changes (chain limit stop ts d).depth := by
  rw [chain.eq_def]
  have hfirst := balanced_operand limit stop ts d
  have hrest := (operand limit stop ts d).length_rest_le
  refine Return.counts_andThen hfirst.counts_depth fun f => ?_
  have hlinks := counts_links limit stop f (operand limit stop ts d).rest d
  rw [hfirst.depth_eq]
  exact hlinks
termination_by 3 * ts.length + 1

theorem balanced_expression (limit stop : Nat) (ts : List Lexeme) (d : Nat) (hd : d ≤ limit) :
    (expression limit stop ts d).Balanced limit d := by
  rw [expression.eq_def]
  exact Return.balanced_restore hd (counts_chain limit stop ts d)
termination_by 3 * ts.length + 2

end

end TruthTable.Descent
