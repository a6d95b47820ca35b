import TruthTable.Proofs.Resuming

/-!
# A reader makes progress

A request for a formula comes to an end, since each move takes a lexeme; but a caller that
goes on after faults has to know more. The reader must not stop where it began, or it would
find the same fault for ever.

It can stop before a lexeme in two ways only: the formula was complete there, or a
connective is too deep there. Either way a chain comes before it. At the beginning of a
request no chain has been read, so the first lexeme counts as read whatever becomes of it
(`Stops.rest_suffix_of_operand`), also where no level is left for it. Later lexemes may be
given back, that one is not (`run_start_rest_suffix`).

So every request leaves fewer lexemes, and a caller that asks until nothing is left has
asked no more often than there were lexemes (`exists_requests_to_end`).
-/

namespace TruthTable

open Reading

namespace Reading

variable {limit stop : Nat} {slot : Slot} {outer : List Slot} {d : Nat} {t : Lexeme}
  {ts : List Lexeme} {halt : Halt}

/-- Where an operand has to come, the lexeme that is there counts as read. -/
theorem Stops.rest_suffix_of_operand
    (h : Stops limit stop ⟨.operand slot, outer, d⟩ (t :: ts) halt) : halt.rest <:+ ts := by
  cases h with
  | complete he => cases he
  | fault he =>
      cases he with
      | signTooDeep _ _ => exact List.suffix_refl _
      | operandExpected _ _ _ => exact List.suffix_refl _

/-- A run from the beginning reads the first lexeme: it moves on with it, or stops at it. -/
theorem run_start_rest_suffix (limit stop base : Nat) (t : Lexeme) (ts : List Lexeme) :
    (run limit stop (start base) (t :: ts)).rest <:+ ts := by
  obtain ⟨us, vs, r, hts, hmoves, hstops⟩ := run_splits limit stop (start base) (t :: ts)
  cases hmoves with
  | refl =>
      rw [← List.nil_append vs, ← hts] at hstops
      exact hstops.rest_suffix_of_operand
  | @head _ _ _ u us _ _ =>
      obtain ⟨-, hts⟩ := List.cons.inj hts
      have hvs : vs <:+ ts := ⟨us, hts.symm⟩
      exact hstops.rest_suffix.trans hvs

end Reading

namespace Reader

variable {r : Reader} {t : Lexeme} {ts : List Lexeme}

/-! ## One request -/

/-- A request for a formula is some moves and a stop, with the outcome that is answered. -/
theorem formula_splits (r : Reader) :
    ∃ us vs reading, r.rest = us ++ vs ∧ Moves r.limit (start r.depth) us reading
      ∧ Stops r.limit r.stop reading vs ⟨r.formula.1, r.formula.2.rest, reading⟩ := by
  obtain ⟨us, vs, reading, hrest, hmoves, hstops⟩ :=
    run_splits r.limit r.stop (start r.depth) r.rest
  obtain rfl := hstops.last_eq
  exact ⟨us, vs, _, hrest, hmoves, hstops⟩

theorem formula_of_rest_eq_nil (h : r.rest = []) : r.formula = (.error .unfinished, r) := by
  obtain ⟨rest, depth, limit, stop⟩ := r
  obtain rfl : rest = [] := h
  rfl

theorem rest_formula_suffix (h : r.rest = t :: ts) : r.formula.2.rest <:+ ts := by
  have hrun := run_start_rest_suffix r.limit r.stop r.depth t ts
  rwa [← h] at hrun

theorem length_rest_formula_lt (h : r.rest ≠ []) :
    r.formula.2.rest.length < r.rest.length := by
  obtain ⟨t, ts, hrest⟩ := List.exists_cons_of_ne_nil h
  rw [hrest]
  exact Nat.lt_succ_of_le (rest_formula_suffix hrest).length_le

theorem finish_reject_eq_ok_iff : (r.finish .reject).outcome = .ok () ↔ r.rest = [] := by
  obtain ⟨rest, depth, limit, stop⟩ := r
  cases rest with
  | nil => simp [finish]
  | cons t ts => simp [finish]

/-! ## Requests until the end -/

/-- There is a first number of requests for a formula after which nothing is left, and each
of them has read a lexeme of its own. -/
theorem exists_requests_to_end (r : Reader) :
    ∃ n, n ≤ r.rest.length ∧ (r.after (.replicate n .formula)).rest = []
      ∧ ∀ m, m < n → (r.after (.replicate m .formula)).rest ≠ [] := by
  by_cases hrest : r.rest = []
  · exact ⟨0, Nat.zero_le _, hrest, fun m hm => absurd hm (Nat.not_lt_zero m)⟩
  · have hlt := length_rest_formula_lt hrest
    obtain ⟨n, hn, hend, hbefore⟩ := exists_requests_to_end r.formula.2
    refine ⟨n + 1, Nat.lt_of_le_of_lt hn hlt, hend, fun m hm => ?_⟩
    cases m with
    | zero => exact hrest
    | succ m => exact hbefore m (Nat.lt_of_succ_lt_succ hm)
termination_by r.rest.length

/-- **A reader makes progress.** After any requests a reader stands before some lexeme of
the text, or behind the last. A request for a formula comes to an end: some lexemes lead on
one after another, and then it stops with the answer. If a lexeme is left, the reader stands
further on then, and never beyond the last one, whether there was a formula or a fault; if
none is left, the text is unfinished and the reader is the same. Asking for formulas until
the end of the text is accepted takes no more requests than there are lexemes left. -/
theorem formula_makes_progress (limit : Nat) (text : List Char) (history : List Request) :
    let r := (ofText limit text).after history
    let lexemes := Lexeme.ofText text
    ∃ i, i ≤ lexemes.length ∧ r.rest = lexemes.drop i
      ∧ (∃ us vs reading, r.rest = us ++ vs ∧ Moves limit (start r.depth) us reading
          ∧ Stops limit text.length reading vs ⟨r.formula.1, r.formula.2.rest, reading⟩)
      ∧ (r.rest ≠ [] → ∃ j, i < j ∧ j ≤ lexemes.length ∧ r.formula.2.rest = lexemes.drop j)
      ∧ (r.rest = [] → r.formula = (.error .unfinished, r))
      ∧ ∃ n, n ≤ lexemes.length - i
          ∧ ((r.after (.replicate n .formula)).finish .reject).outcome = .ok ()
          ∧ ∀ m, m < n →
              ((r.after (.replicate m .formula)).finish .reject).outcome ≠ .ok () := by
  intro r lexemes
  have hwithin : Within limit text r := (within_ofText limit text).after history
  have hrest := hwithin.rest_suffix
  have hlength : r.rest.length ≤ lexemes.length := hrest.length_le
  refine ⟨lexemes.length - r.rest.length, Nat.sub_le _ _, List.suffix_iff_eq_drop.mp hrest,
    ?_, ?_, formula_of_rest_eq_nil, ?_⟩
  · have hcall := r.formula_splits
    rwa [hwithin.limit_eq, hwithin.stop_eq] at hcall
  · intro hne
    have hlt := length_rest_formula_lt hne
    exact ⟨lexemes.length - r.formula.2.rest.length, by omega, Nat.sub_le _ _,
      List.suffix_iff_eq_drop.mp hwithin.formula.rest_suffix⟩
  · obtain ⟨n, hn, hend, hbefore⟩ := exists_requests_to_end r
    refine ⟨n, by omega, finish_reject_eq_ok_iff.mpr hend, fun m hm => ?_⟩
    exact fun hok => hbefore m hm (finish_reject_eq_ok_iff.mp hok)

/-- Without any level the connective is refused at its own place twice, and the three
lexemes take three requests. -/
example : ((ofText 0 ['A', '&', 'B']).answers (.replicate 3 .formula)).1.map Logged.outcome =
    [.error (.tooDeep 1 0), .error (.operandExpected 1 '&'), .ok (.formula (.var 'B'))] := rfl

end Reader

end TruthTable
