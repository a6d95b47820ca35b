import TruthTable.Proofs.Faults

/-!
# Raising the limit

The limit decides how far a text is read and nothing else. Two runs over one text under two
limits make the same moves until the lower limit refuses a sign, so there are two cases.

- No sign is refused. Then every effect, the last one included, is the same at the higher
  limit (`Effect.higher`), and so is the run (`run_higher`).
- A sign is refused. The counter stands at the lower limit there (`Moves.depth_le_limit`,
  `Stops.tooDeep_inv`), so the higher one has room for the sign, and the reader moves past it.
  What it blames from then on, it has not read yet (`parse_pointsInto`).

A lexeme raises the counter by one at most (`Moves.depth_le_add`), so no sign of a text is
refused under a limit of as many levels as the text has lexemes.
-/

namespace TruthTable

open Formula Reading

namespace Reading

variable {limit limit' stop : Nat} {r r' : Reading} {t : Lexeme} {ts : List Lexeme}
  {halt : Halt}

/-! ## The depth counter on the way -/

theorem Effect.depth_le_limit (h : Effect limit r t (.next r')) (hr : r.depth ≤ limit) :
    r'.depth ≤ limit := by
  cases h with
  | opening _ hd => exact hd
  | negation _ hd => exact hd
  | letter _ => exact Nat.le_trans (Nat.sub_le _ _) hr
  | connective _ hd => exact hd
  | @closing f k slot outer d t _ =>
      show d - k - 1 - slot.negations ≤ limit
      have hd : d ≤ limit := hr
      omega

theorem Effect.depth_le_succ (h : Effect limit r t (.next r')) : r'.depth ≤ r.depth + 1 := by
  cases h with
  | opening _ _ => exact Nat.le_refl _
  | negation _ _ => exact Nat.le_refl _
  | @letter slot outer d t _ =>
      show d - slot.negations ≤ d + 1
      omega
  | connective _ _ => exact Nat.le_refl _
  | @closing f k slot outer d t _ =>
      show d - k - 1 - slot.negations ≤ d + 1
      omega

theorem Moves.depth_le_limit (h : Moves limit r ts r') (hr : r.depth ≤ limit) :
    r'.depth ≤ limit := by
  induction h with
  | refl => exact hr
  | head he _ ih => exact ih (he.depth_le_limit hr)

theorem Moves.depth_le_add (h : Moves limit r ts r') : r'.depth ≤ r.depth + ts.length := by
  induction h with
  | refl => exact Nat.le_refl _
  | head he _ ih =>
      have hstep := he.depth_le_succ
      rw [List.length_cons]
      omega

/-! ## Two limits -/

theorem Stops.higher (h : Stops limit stop r ts halt)
    (hout : ∀ pos, halt.outcome ≠ .error (.tooDeep pos limit)) (hle : limit ≤ limit') :
    Stops limit' stop r ts halt := by
  cases h with
  | atEnd => exact .atEnd
  | complete he => exact .complete (he.higher nofun hle)
  | @fault e consumed t ts he =>
      refine .fault (he.higher (fun _ hs => ?_) hle)
      obtain ⟨rfl, -⟩ := Step.fault.inj hs
      exact hout t.pos rfl

/-- A run that the limit did not stop is the same run at every higher limit. -/
theorem run_higher (hout : ∀ pos, (run limit stop r ts).outcome ≠ .error (.tooDeep pos limit))
    (hle : limit ≤ limit') : run limit' stop r ts = run limit stop r ts := by
  obtain ⟨us, vs, r', hts, hmoves, hstops⟩ := run_splits limit stop r ts
  calc run limit' stop r ts
      = run limit' stop r (us ++ vs) := by rw [hts]
    _ = run limit' stop r' vs := (hmoves.mono hle).run_eq stop vs
    _ = run limit stop r ts := (hstops.higher hout hle).run_eq

/-- The limit stops a run at a lexeme for which it has no room, and with room for it the
lexeme leads on. -/
theorem Stops.tooDeep_inv {pos n : Nat} (h : Stops limit stop r ts halt)
    (hout : halt.outcome = .error (.tooDeep pos n)) :
    n = limit ∧ limit ≤ r.depth ∧ ∃ t vs, ts = t :: vs ∧ t.pos = pos
      ∧ ∀ limit', r.depth < limit' → ∃ r', Effect limit' r t (.next r') := by
  cases h with
  | atEnd =>
      cases atEnd_pointsInto hout [] with
      | tooDeep ht => cases ht
  | complete he => cases hout
  | @fault e consumed t vs he =>
      obtain rfl := Except.error.inj hout
      cases he with
      | signTooDeep hk hd =>
          refine ⟨rfl, hd, t, vs, rfl, rfl, fun limit' hlt => ?_⟩
          rcases hk with hk | hk
          · exact ⟨_, .opening hk hlt⟩
          · exact ⟨_, .negation hk hlt⟩
      | connectiveTooDeep hk hd =>
          exact ⟨rfl, hd, t, vs, rfl, rfl, fun limit' hlt => ⟨_, .connective hk hlt⟩⟩

end Reading

/-- What points into the lexemes behind a place, points behind it. -/
theorem ReadFault.PointsInto.behind {stop pos : Nat} {ts : List Lexeme} {e : ReadFault}
    (h : e.PointsInto stop ts) (hstop : pos < stop) (hts : ∀ t ∈ ts, pos < t.pos) :
    e = .unfinished ∨ ∃ pos', e.pos? = some pos' ∧ pos < pos' := by
  cases hpos : e.pos? with
  | none => exact .inl (pos?_eq_none_iff.mp hpos)
  | some pos' =>
      right
      refine ⟨pos', rfl, ?_⟩
      rcases h.place hpos with rfl | ⟨t, ht, rfl⟩
      · exact hstop
      · exact hts t ht

namespace Formula

variable {limits : Limits} {text : List Char} {limit pos n : Nat}

/-! ## A whole text -/

theorem parse_eq_tooDeep_iff :
    (parse limits text).outcome = .error (.tooDeep pos n) ↔
      (halt limits text).outcome = .error (.tooDeep pos n) := by
  rw [outcome_parse]
  cases (halt limits text).outcome with
  | error e => exact Iff.rfl
  | ok f =>
      cases (halt limits text).rest with
      | nil => cases limits.tail <;> simp
      | cons t rest => cases limits.tail <;> simp

theorem parse_higher (hout : ∀ pos n, (parse limits text).outcome ≠ .error (.tooDeep pos n))
    (hle : limits.maxDepth ≤ limit) :
    parse { limits with maxDepth := limit } text = parse limits text := by
  have hhalt : halt { limits with maxDepth := limit } text = halt limits text :=
    run_higher (fun pos hpos => hout pos _ (parse_eq_tooDeep_iff.mpr hpos)) hle
  rw [parse_eq, parse_eq, hhalt]

/-- Where the limit stops the reading of a text: it has read `us` and comes to a sign at depth
`limits.maxDepth`. -/
theorem parse_tooDeep_inv (h : (parse limits text).outcome = .error (.tooDeep pos n)) :
    ∃ us t vs r, Lexeme.ofText text = us ++ t :: vs ∧ t.pos = pos
      ∧ Moves limits.maxDepth (start 0) us r ∧ r.depth = limits.maxDepth
      ∧ ∀ limit', limits.maxDepth < limit' → ∃ r', Effect limit' r t (.next r') := by
  obtain ⟨us, vs, r, hsplit, hmoves, hstops⟩ :=
    run_splits limits.maxDepth text.length (start 0) (Lexeme.ofText text)
  obtain ⟨-, hfull, t, vs, rfl, hpos, hnext⟩ := hstops.tooDeep_inv (parse_eq_tooDeep_iff.mp h)
  have hdepth : r.depth = limits.maxDepth :=
    Nat.le_antisymm (hmoves.depth_le_limit (Nat.zero_le _)) hfull
  rw [hdepth] at hnext
  exact ⟨us, t, vs, r, hsplit, hpos, hmoves, hdepth, hnext⟩

/-- The sign that one limit refuses is read under a higher one, so a fault that the text has
then is behind that sign. -/
theorem parse_higher_behind {e : ReadFault} (hlt : limits.maxDepth < limit)
    (h : (parse limits text).outcome = .error (.tooDeep pos n))
    (he : (parse { limits with maxDepth := limit } text).outcome = .error e) :
    e = .unfinished ∨ ∃ pos', e.pos? = some pos' ∧ pos < pos' := by
  obtain ⟨us, t, vs, r, hsplit, rfl, hmoves, -, hnext⟩ := parse_tooDeep_inv h
  obtain ⟨r', heffect⟩ := hnext limit hlt
  have hpast : Moves limit (start 0) (us ++ [t]) r' :=
    (hmoves.mono (Nat.le_of_lt hlt)).trans (.head heffect .refl)
  have hsplit' : Lexeme.ofText text = us ++ [t] ++ vs := by
    rw [hsplit, List.append_assoc, List.singleton_append]
  have hmem : t ∈ Lexeme.ofText text :=
    hsplit ▸ List.mem_append_right us (List.mem_cons_self ..)
  have hpoints := parse_pointsInto hsplit' hpast he
  exact hpoints.behind (Lexeme.pos_lt_length hmem) (Lexeme.pos_lt_of_eq_append hsplit)

/-- The counter comes to no more than the lexemes before the sign. -/
theorem parse_ne_tooDeep (h : (Lexeme.ofText text).length ≤ limits.maxDepth) (pos n : Nat) :
    (parse limits text).outcome ≠ .error (.tooDeep pos n) := by
  intro hout
  obtain ⟨us, t, vs, r, hsplit, -, hmoves, hdepth, -⟩ := parse_tooDeep_inv hout
  have hle : r.depth ≤ 0 + us.length := hmoves.depth_le_add
  rw [hsplit, List.length_append, List.length_cons] at h
  omega

/-- **The limit only cuts a reading short.** What is read under a limit, and every fault but
that of a sign that is too deep, is the same under a higher limit. Where a sign was too
deep, the higher limit gives a formula, or finds that the text is unfinished, or blames a
place behind the sign. No sign is too deep under a limit of at least as many levels as the
text has lexemes. -/
theorem parse_raise_limit (limits : Limits) (text : List Char) (limit : Nat)
    (h : limits.maxDepth < limit) :
    (match (parse limits text).outcome with
      | .error (.tooDeep pos _) =>
          ∀ e, (parse { limits with maxDepth := limit } text).outcome = .error e →
            e = .unfinished ∨ ∃ pos', e.pos? = some pos' ∧ pos < pos'
      | _ => parse { limits with maxDepth := limit } text = parse limits text)
      ∧ ((Lexeme.ofText text).length ≤ limits.maxDepth →
          ∀ pos n, (parse limits text).outcome ≠ .error (.tooDeep pos n)) := by
  refine ⟨?_, parse_ne_tooDeep⟩
  split
  · next pos n hout => exact fun e he => parse_higher_behind h hout he
  · next hout => exact parse_higher (fun pos n => hout pos n) (Nat.le_of_lt h)

/-- `!(A!` under a limit of one stops at the parenthesis, and under any higher one at the
character that cannot be there. -/
theorem parse_raise_limit_negatedGroup :
    (parse { maxDepth := 1 } ['!', '(', 'A', '!']).outcome = .error (.tooDeep 1 1)
      ∧ (parse { maxDepth := 2 } ['!', '(', 'A', '!']).outcome =
          .error (.unclosed 3 (some '!'))
      ∧ (∃ pos, (ReadFault.unclosed 3 (some '!')).pos? = some pos ∧ 1 < pos)
      ∧ parse { maxDepth := 9 } ['!', '(', 'A', '!'] =
          parse { maxDepth := 2 } ['!', '(', 'A', '!']
      ∧ ∀ pos n, (parse { maxDepth := 4 } ['!', '(', 'A', '!']).outcome ≠
          .error (.tooDeep pos n) := by
  have hdeep : (parse { maxDepth := 1 } ['!', '(', 'A', '!']).outcome =
      .error (.tooDeep 1 1) := by
    rfl
  have hunclosed : (parse { maxDepth := 2 } ['!', '(', 'A', '!']).outcome =
      .error (.unclosed 3 (some '!')) := by rfl
  have hcut := (parse_raise_limit { maxDepth := 1 } ['!', '(', 'A', '!'] 2 (by decide)).1
  have hsame := (parse_raise_limit { maxDepth := 2 } ['!', '(', 'A', '!'] 9 (by decide)).1
  have henough := (parse_raise_limit { maxDepth := 4 } ['!', '(', 'A', '!'] 5 (by decide)).2
  rw [hdeep] at hcut
  rw [hunclosed] at hsame
  exact ⟨hdeep, hunclosed, (hcut _ hunclosed).resolve_left nofun, hsame, henough (by decide)⟩

end Formula

end TruthTable
