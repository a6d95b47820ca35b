import TruthTable.Reading

/-!
# Moves of the reader

What one lexeme can do to a reading, and what follows for a whole run.

`Effect` lists the answers of `Reading.step` as rules, one for each thing that a lexeme
can bring about: five ways to go on, one way to find the formula complete, and four
faults. It is the step function itself (`step_effect` and `Effect.step_eq`), so an
invariant is shown by cases on the rules and no proof has to split the code again.

`Moves` joins the ways to go on. A run moves as far as it can and stops there
(`run_splits`), and what it does after some moves does not depend on what was read during
them (`Moves.run_eq`): these two are all that later proofs use of `Reading.run`. An
invariant of the steps is one of the moves (`Moves.preserves`). The limit only refuses: at a
higher one all other effects are the same (`Effect.higher`), and so the same moves can be
made (`Moves.mono`).
-/

namespace TruthTable

namespace Reading

open Formula

/-! ## One lexeme -/

inductive Effect (limit : Nat) : Reading → Lexeme → Step → Prop where
  | opening {slot : Slot} {outer : List Slot} {d : Nat} {t : Lexeme} :
      t.kind = .opening → d < limit →
      Effect limit ⟨.operand slot, outer, d⟩ t (.next ⟨.operand .first, slot :: outer, d + 1⟩)
  | negation {slot : Slot} {outer : List Slot} {d : Nat} {t : Lexeme} :
      t.kind = .negation → d < limit →
      Effect limit ⟨.operand slot, outer, d⟩ t (.next ⟨.operand slot.negated, outer, d + 1⟩)
  | letter {slot : Slot} {outer : List Slot} {d : Nat} {t : Lexeme} :
      t.kind = .letter →
      Effect limit ⟨.operand slot, outer, d⟩ t (.next (filled slot outer d (var t.symbol)))
  | connective {f : Formula} {k : Nat} {outer : List Slot} {d : Nat} {t : Lexeme}
      {c : Connective} :
      t.kind = .connective c → d < limit →
      Effect limit ⟨.connective f k, outer, d⟩ t
        (.next ⟨.operand (.after f c (k + 1)), outer, d + 1⟩)
  | closing {f : Formula} {k : Nat} {slot : Slot} {outer : List Slot} {d : Nat}
      {t : Lexeme} :
      t.kind = .closing →
      Effect limit ⟨.connective f k, slot :: outer, d⟩ t
        (.next (filled slot outer (d - k - 1) f))
  | complete {f : Formula} {k d : Nat} {t : Lexeme} :
      (∀ c, t.kind ≠ .connective c) →
      Effect limit ⟨.connective f k, [], d⟩ t (.complete f)
  | signTooDeep {slot : Slot} {outer : List Slot} {d : Nat} {t : Lexeme} :
      t.kind = .opening ∨ t.kind = .negation → limit ≤ d →
      Effect limit ⟨.operand slot, outer, d⟩ t (.fault (.tooDeep t.pos limit) true)
  | connectiveTooDeep {f : Formula} {k : Nat} {outer : List Slot} {d : Nat} {t : Lexeme}
      {c : Connective} :
      t.kind = .connective c → limit ≤ d →
      Effect limit ⟨.connective f k, outer, d⟩ t (.fault (.tooDeep t.pos limit) false)
  | operandExpected {slot : Slot} {outer : List Slot} {d : Nat} {t : Lexeme} :
      t.kind ≠ .opening → t.kind ≠ .negation → t.kind ≠ .letter →
      Effect limit ⟨.operand slot, outer, d⟩ t (.fault (.operandExpected t.pos t.symbol) true)
  | unclosed {f : Formula} {k : Nat} {slot : Slot} {outer : List Slot} {d : Nat}
      {t : Lexeme} :
      (∀ c, t.kind ≠ .connective c) → t.kind ≠ .closing →
      Effect limit ⟨.connective f k, slot :: outer, d⟩ t
        (.fault (.unclosed t.pos (some t.symbol)) true)

variable {limit stop : Nat} {r r' r'' : Reading} {t : Lexeme} {us vs ts : List Lexeme}

theorem step_effect (limit : Nat) (r : Reading) (t : Lexeme) :
    Effect limit r t (r.step limit t) := by
  obtain ⟨phase, outer, d⟩ := r
  cases phase with
  | operand slot =>
      simp only [step]
      split
      · next hk =>
        split
        · next hd => exact .opening hk hd
        · next hd => exact .signTooDeep (.inl hk) (Nat.not_lt.mp hd)
      · next hk =>
        split
        · next hd => exact .negation hk hd
        · next hd => exact .signTooDeep (.inr hk) (Nat.not_lt.mp hd)
      · next hk => exact .letter hk
      · next h₁ h₂ h₃ => exact .operandExpected h₁ h₂ h₃
  | connective f k =>
      simp only [step]
      split
      · next c _ hk =>
        split
        · next hd => exact .connective hk hd
        · next hd => exact .connectiveTooDeep hk (Nat.not_lt.mp hd)
      · next hk => exact .closing hk
      · next hc hk => exact .unclosed hc hk
      · next hc => exact .complete hc

theorem Effect.step_eq {s : Step} (h : Effect limit r t s) : r.step limit t = s := by
  cases h <;> grind [step]

theorem atEnd_eq_ok {stop : Nat} {f : Formula} (h : r.atEnd stop = .ok f) :
    ∃ k d, r = ⟨.connective f k, [], d⟩ := by
  obtain ⟨phase, outer, d⟩ := r
  cases phase with
  | operand slot => cases h
  | connective g k =>
      cases outer with
      | nil =>
          obtain rfl := Except.ok.inj h
          exact ⟨k, d, rfl⟩
      | cons slot outer => cases h

/-! ## A run -/

/-- `Moves limit r ts r'`: the lexemes `ts` lead from `r` to `r'`, each by a step that goes
on. -/
inductive Moves (limit : Nat) : Reading → List Lexeme → Reading → Prop where
  | refl {r : Reading} : Moves limit r [] r
  | head {r r' r'' : Reading} {t : Lexeme} {ts : List Lexeme} :
      Effect limit r t (.next r') → Moves limit r' ts r'' → Moves limit r (t :: ts) r''

theorem Moves.trans (h : Moves limit r us r') (h' : Moves limit r' vs r'') :
    Moves limit r (us ++ vs) r'' := by
  induction h with
  | refl => exact h'
  | head he _ ih => exact .head he (ih h')

/-- What every step keeps, of a reading and the characters read up to it, moves keep. -/
theorem Moves.preserves {P : Reading → List Char → Prop}
    (hstep : ∀ {r r' : Reading} {t : Lexeme} {w : List Char}, P r w →
      Effect limit r t (.next r') → P r' (w ++ [t.symbol]))
    (h : Moves limit r ts r') :
    ∀ {w : List Char}, P r w → P r' (w ++ ts.map Lexeme.symbol) := by
  induction h with
  | refl =>
      intro w hw
      simpa using hw
  | @head r r₁ r' t ts he _ ih =>
      intro w hw
      have hw₁ := ih (hstep hw he)
      rwa [List.append_assoc] at hw₁

theorem Moves.run_eq (h : Moves limit r us r') (stop : Nat) (ts : List Lexeme) :
    run limit stop r (us ++ ts) = run limit stop r' ts := by
  induction h with
  | refl => rfl
  | head he _ ih =>
      rw [List.cons_append, run, he.step_eq]
      exact ih

/-- All that depends on the limit is what is too deep: any other effect of a lexeme is the
same at a higher limit. -/
theorem Effect.higher {s : Step} (h : Effect limit r t s)
    (hs : ∀ consumed, s ≠ .fault (.tooDeep t.pos limit) consumed) {limit' : Nat}
    (hle : limit ≤ limit') : Effect limit' r t s := by
  cases h with
  | opening hk hd => exact .opening hk (Nat.lt_of_lt_of_le hd hle)
  | negation hk hd => exact .negation hk (Nat.lt_of_lt_of_le hd hle)
  | letter hk => exact .letter hk
  | connective hk hd => exact .connective hk (Nat.lt_of_lt_of_le hd hle)
  | closing hk => exact .closing hk
  | complete hc => exact .complete hc
  | signTooDeep _ _ => exact absurd rfl (hs true)
  | connectiveTooDeep _ _ => exact absurd rfl (hs false)
  | operandExpected h₁ h₂ h₃ => exact .operandExpected h₁ h₂ h₃
  | unclosed hc hk => exact .unclosed hc hk

theorem Effect.mono (h : Effect limit r t (.next r')) {limit' : Nat} (hle : limit ≤ limit') :
    Effect limit' r t (.next r') :=
  h.higher nofun hle

theorem Moves.mono (h : Moves limit r ts r') {limit' : Nat} (hle : limit ≤ limit') :
    Moves limit' r ts r' := by
  induction h with
  | refl => exact .refl
  | head he _ ih => exact .head (he.mono hle) ih

/-- Moves are determined by the lexemes, so those over a longer list begin with those over a
shorter one. -/
theorem Moves.cancel (h : Moves limit r us r') (h' : Moves limit r (us ++ vs) r'') :
    Moves limit r' vs r'' := by
  induction h with
  | refl => exact h'
  | head he _ ih =>
      cases h' with
      | head he' hmoves =>
          obtain rfl := Step.next.inj (he.step_eq.symm.trans he'.step_eq)
          exact ih hmoves

/-- What makes a run stop in `r` before the lexemes `ts`: there are none, or the first of
them does not lead on. -/
inductive Stops (limit stop : Nat) (r : Reading) : List Lexeme → Halt → Prop where
  | atEnd : Stops limit stop r [] ⟨r.atEnd stop, [], r⟩
  | complete {f : Formula} {t : Lexeme} {ts : List Lexeme} :
      Effect limit r t (.complete f) → Stops limit stop r (t :: ts) ⟨.ok f, t :: ts, r⟩
  | fault {e : ReadFault} {consumed : Bool} {t : Lexeme} {ts : List Lexeme} :
      Effect limit r t (.fault e consumed) →
      Stops limit stop r (t :: ts) ⟨.error e, if consumed then ts else t :: ts, r⟩

theorem Stops.run_eq {halt : Halt} (h : Stops limit stop r ts halt) :
    run limit stop r ts = halt := by
  cases h with
  | atEnd => rfl
  | complete he => rw [run, he.step_eq]
  | fault he => rw [run, he.step_eq]

/-- A run is some moves and a stop. -/
theorem run_splits (limit stop : Nat) (r : Reading) (ts : List Lexeme) :
    ∃ us vs r', ts = us ++ vs ∧ Moves limit r us r'
      ∧ Stops limit stop r' vs (run limit stop r ts) := by
  induction ts generalizing r with
  | nil => exact ⟨[], [], r, rfl, .refl, .atEnd⟩
  | cons t ts ih =>
      have he := step_effect limit r t
      rw [run]
      cases hs : r.step limit t with
      | next r₁ =>
          rw [hs] at he
          obtain ⟨us, vs, r', rfl, hmoves, hstops⟩ := ih r₁
          exact ⟨t :: us, vs, r', rfl, .head he hmoves, hstops⟩
      | complete f =>
          rw [hs] at he
          exact ⟨[], t :: ts, r, rfl, .refl, .complete he⟩
      | fault e consumed =>
          rw [hs] at he
          exact ⟨[], t :: ts, r, rfl, .refl, .fault he⟩

theorem Stops.rest_suffix {halt : Halt} (h : Stops limit stop r ts halt) :
    halt.rest <:+ ts := by
  cases h with
  | atEnd => exact List.suffix_refl _
  | complete _ => exact List.suffix_refl _
  | @fault e consumed t ts _ =>
      cases consumed with
      | true => exact List.suffix_cons t ts
      | false => exact List.suffix_refl _

/-- The reader only moves on: what is left is an end part of what there was. -/
theorem run_rest_suffix (limit stop : Nat) (r : Reading) (ts : List Lexeme) :
    (run limit stop r ts).rest <:+ ts := by
  obtain ⟨us, vs, r', hts, -, hstops⟩ := run_splits limit stop r ts
  have hvs : vs <:+ ts := ⟨us, hts.symm⟩
  exact hstops.rest_suffix.trans hvs

end Reading

end TruthTable
