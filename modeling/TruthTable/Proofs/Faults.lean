import TruthTable.Proofs.Parsing

/-!
# What a fault says about the text

The reader finds a fault as soon as there is one: what it has read can still become a
formula, and with the next character it cannot. So the place of a fault is a property of the
text and not of the reader, and so is its kind, by the character before it and the groups
open there.

- What the reader has understood is viable: a letter, where an operand is missing, and the
  closing parentheses complete it (`Understands.viable`).
- What it refuses cannot be continued. A formula that began this way would be read
  at some limit, by the same moves up to here, and one more (`not_isViable_of_refused`).
- A sign that is too deep is not wrong. Under a higher limit the reader moves on
  (`Effect.classify_fault`), so what has been read with the sign is viable as well.

What is blamed, by place and character, is a lexeme that had not been read, or else the end
of the text (`ReadFault.PointsInto`).
-/

namespace TruthTable

open Formula Reading

/-! ## The left context -/

/-- An operand has to come at the beginning, and after a character that leaves one open. -/
def wantsOperand : Option Char → Bool
  | none => true
  | some c => c = '(' || c = '!' || (Connective.ofSymbol? c).isSome

/-- The last character of an operand. -/
def endsOperand : Option Char → Bool
  | none => false
  | some c => c = ')' || isLetter c

def countGroup (n : Nat) (c : Char) : Nat :=
  if c = '(' then n + 1 else if c = ')' then n - 1 else n

/-- The number of parentheses opened and not closed. -/
def openGroups (w : List Char) : Nat := w.foldl countGroup 0

theorem openGroups_append_singleton (w : List Char) (c : Char) :
    openGroups (w ++ [c]) = countGroup (openGroups w) c := by
  rw [openGroups, List.foldl_append]
  rfl

namespace ReadFault

/-- The fault of a character that cannot come after the text `before`. -/
def atChar (before : List Char) (pos : Nat) (found : Char) : ReadFault :=
  if wantsOperand before.getLast? then .operandExpected pos found
  else if 0 < openGroups before then .unclosed pos (some found)
  else .trailing pos found

/-- The fault of a text that ends too early. -/
def atStop (written : List Char) (stop : Nat) : ReadFault :=
  if wantsOperand written.getLast? then .unfinished else .unclosed stop none

theorem atChar_cases (before : List Char) (pos : Nat) (x : Char) :
    atChar before pos x = .operandExpected pos x
      ∨ atChar before pos x = .unclosed pos (some x)
      ∨ atChar before pos x = .trailing pos x := by
  unfold atChar
  split
  · exact .inl rfl
  · split
    · exact .inr (.inl rfl)
    · exact .inr (.inr rfl)

theorem atStop_cases (written : List Char) (stop : Nat) :
    atStop written stop = .unfinished ∨ atStop written stop = .unclosed stop none := by
  unfold atStop
  split
  · exact .inl rfl
  · exact .inr rfl

end ReadFault

namespace Lexeme.Kind

variable {x : Char}

/-- How a character that a formula can hold counts in the context, by its kind. -/
structure Context (x : Char) (wants : Bool) (group : Nat → Nat) : Prop where
  wants_eq : wantsOperand (some x) = wants
  ends_eq : endsOperand (some x) = !wants
  group_eq : ∀ n, countGroup n x = group n

theorem context_opening (h : ofChar x = opening) : Context x true (· + 1) := by
  obtain rfl := ofChar_eq_opening_iff.mp h
  exact ⟨rfl, rfl, fun n => rfl⟩

theorem context_closing (h : ofChar x = closing) : Context x false (· - 1) := by
  obtain rfl := ofChar_eq_closing_iff.mp h
  exact ⟨rfl, rfl, fun n => rfl⟩

theorem context_negation (h : ofChar x = negation) : Context x true id := by
  obtain rfl := ofChar_eq_negation_iff.mp h
  exact ⟨rfl, rfl, fun n => rfl⟩

theorem context_connective {c : Connective} (h : ofChar x = connective c) :
    Context x true id := by
  obtain rfl := ofChar_eq_connective_iff.mp h
  cases c <;> exact ⟨rfl, rfl, fun n => rfl⟩

theorem context_letter (h : ofChar x = letter) : Context x false id := by
  have hx := ofChar_eq_letter_iff.mp h
  have hopening : x ≠ '(' := fun he => by cases (ofChar_eq_opening_iff.mpr he).symm.trans h
  have hclosing : x ≠ ')' := fun he => by cases (ofChar_eq_closing_iff.mpr he).symm.trans h
  have hnegation : x ≠ '!' := fun he => by cases (ofChar_eq_negation_iff.mpr he).symm.trans h
  have hconnective : Connective.ofSymbol? x = none := by
    cases hc : Connective.ofSymbol? x with
    | none => rfl
    | some c =>
        have he := ofChar_eq_connective_iff.mpr (Connective.ofSymbol?_eq_some_iff.mp hc)
        cases he.symm.trans h
  exact ⟨by simp [wantsOperand, hopening, hnegation, hconnective], by simp [endsOperand, hx],
    fun n => by simp [countGroup, hopening, hclosing]⟩

end Lexeme.Kind

namespace Reading

def awaitsOperand (r : Reading) : Bool :=
  match r.phase with
  | .operand _ => true
  | .connective _ _ => false

/-- The reading `r` stands in the context that the text `w` leaves. -/
structure Fits (r : Reading) (w : List Char) : Prop where
  wants : wantsOperand w.getLast? = r.awaitsOperand
  ends : endsOperand w.getLast? = !r.awaitsOperand
  opened : openGroups w = r.outer.length

variable {limit limit' base : Nat} {r r' : Reading} {t : Lexeme} {w : List Char}
  {us ts : List Lexeme}

theorem Fits.ends_eq_not_wants (h : r.Fits w) :
    endsOperand w.getLast? = !wantsOperand w.getLast? := by
  rw [h.ends, h.wants]

theorem fits_start (d : Nat) : (start d).Fits [] := ⟨rfl, rfl, rfl⟩

theorem Fits.snoc {wants : Bool} {group : Nat → Nat} (h : r.Fits w)
    (hc : Lexeme.Kind.Context t.symbol wants group) (hwants : r'.awaitsOperand = wants)
    (hgroup : r'.outer.length = group r.outer.length) : r'.Fits (w ++ [t.symbol]) := by
  refine ⟨?_, ?_, ?_⟩
  · rw [List.getLast?_concat, hc.wants_eq, hwants]
  · rw [List.getLast?_concat, hc.ends_eq, hwants]
  · rw [openGroups_append_singleton, h.opened, hc.group_eq, hgroup]

theorem Fits.step (h : r.Fits w) (he : Effect limit r t (.next r')) :
    r'.Fits (w ++ [t.symbol]) := by
  cases he with
  | opening hk _ => exact h.snoc (Lexeme.Kind.context_opening hk) rfl rfl
  | negation hk _ => exact h.snoc (Lexeme.Kind.context_negation hk) rfl rfl
  | letter hk => exact h.snoc (Lexeme.Kind.context_letter hk) rfl rfl
  | connective hk _ => exact h.snoc (Lexeme.Kind.context_connective hk) rfl rfl
  | closing hk => exact h.snoc (Lexeme.Kind.context_closing hk) rfl rfl

theorem Fits.moves (h : Moves limit r ts r') (hr : r.Fits w) :
    r'.Fits (w ++ ts.map Lexeme.symbol) :=
  h.preserves (fun hr he => hr.step he) hr

/-! ## What has been read is viable -/

/-- Closing the open groups one after another makes a formula of what they hold. -/
theorem Stacked.exists_writes {outer : List Slot} {v : List Char} {d : Nat}
    (h : Stacked limit base outer v d) :
    ∀ {k : Nat} {w : List Char} {f : Formula} {n : Nat}, Derives (.chain k) w f n →
      ∃ g m, Writes (v ++ w ++ List.replicate outer.length ')') g m := by
  induction h with
  | nil =>
      intro k w f n hf
      exact ⟨f, n, k, by simpa using hf⟩
  | @cons slot outer v u d m _ hs _ ih =>
      intro k w f n hf
      have hgroup : Derives .operand ('(' :: w ++ [')']) f (1 + n) := .group hf
      obtain ⟨g, m', hg⟩ := ih (hs.fill hgroup)
      refine ⟨g, m', ?_⟩
      rw [show v ++ u ++ ['('] ++ w ++ List.replicate (slot :: outer).length ')'
          = v ++ (u ++ ('(' :: w ++ [')'])) ++ List.replicate outer.length ')' by
        simp [List.replicate_succ]]
      exact hg

theorem Understands.viable (h : Understands limit base r w) : IsViable w := by
  cases h with
  | @operand slot outer v u d m ho hs _ _ =>
      have ha : Derives .operand ['A'] (var 'A') 0 := .letter (by decide)
      obtain ⟨g, n, hg⟩ := ho.exists_writes (hs.fill ha)
      refine ⟨'A' :: List.replicate outer.length ')', g, n, ?_⟩
      simpa using hg
  | @connective f k outer v u d m ho hf _ =>
      obtain ⟨g, n, hg⟩ := ho.exists_writes hf
      exact ⟨List.replicate outer.length ')', g, n, hg⟩

theorem isViable_of_moves (h : Moves limit (start 0) ts r) :
    IsViable (ts.map Lexeme.symbol) :=
  (Understands.moves h (understands_start (Nat.zero_le limit))).viable

/-! ## What the reader refuses -/

/-- A formula that begins with what has been read is read on from there, at a limit that
covers its cost. -/
theorem Moves.rest_of_writes (h : Moves limit (start 0) us r) {f : Formula} {n : Nat}
    (hf : Writes ((us ++ ts).map Lexeme.symbol) f n) :
    ∃ limit' k, Moves limit' r ts ⟨.connective f k, [], k⟩ := by
  obtain ⟨k, hf⟩ := hf
  have hroom : 0 + n ≤ max limit n := by omega
  have hmoves := hf.moves .first [] 0 (us ++ ts) rfl rfl hroom
  rw [behind, Nat.zero_add] at hmoves
  exact ⟨max limit n, k, (h.mono (Nat.le_max_left limit n)).cancel hmoves⟩

/-- No limit lets the reader move on. -/
def Refuses (r : Reading) (t : Lexeme) : Prop := ∀ limit r', ¬Effect limit r t (.next r')

theorem not_isViable_of_refused (h : Moves limit (start 0) us r) (ht : r.Refuses t) :
    ¬IsViable ((us ++ [t]).map Lexeme.symbol) := by
  rintro ⟨v, f, n, hf⟩
  -- the positions of the lexemes to come do not matter
  have hsymbols : (v.map (Lexeme.mk 0)).map Lexeme.symbol = v := by simp [Function.comp_def]
  rw [← hsymbols, ← List.map_append, List.append_assoc] at hf
  obtain ⟨limit', k, hmoves⟩ := h.rest_of_writes hf
  cases hmoves with
  | head he _ => exact ht _ _ he

/-- A formula ends where the reader knows it to be complete. -/
theorem atEnd_of_isSentence (h : Moves limit (start 0) ts r)
    (hsentence : IsSentence (ts.map Lexeme.symbol)) (stop : Nat) :
    ∃ f, r.atEnd stop = .ok f := by
  obtain ⟨f, n, hf⟩ := hsentence
  rw [← List.append_nil ts] at hf
  obtain ⟨limit', k, hmoves⟩ := h.rest_of_writes hf
  cases hmoves with
  | refl => exact ⟨f, rfl⟩

theorem Effect.classify_complete {f : Formula} (he : Effect limit r t (.complete f))
    (hr : r.Fits w) :
    r.Refuses t ∧ .trailing t.pos t.symbol = ReadFault.atChar w t.pos t.symbol := by
  cases he with
  | complete hc =>
      constructor
      · intro limit' r' he'
        cases he' with
        | connective hk _ => exact hc _ hk
      · simp [ReadFault.atChar, hr.wants, hr.opened, awaitsOperand]

/-- Either there is a limit at which the lexeme leads on, or there is none, and then the fault
is the one that the context asks for. -/
theorem Effect.classify_fault {e : ReadFault} {consumed : Bool}
    (he : Effect limit r t (.fault e consumed)) (hr : r.Fits w) :
    (e = .tooDeep t.pos limit ∧ ∃ limit' r', limit ≤ limit' ∧ Effect limit' r t (.next r'))
      ∨ (r.Refuses t ∧ e = ReadFault.atChar w t.pos t.symbol) := by
  cases he with
  | signTooDeep hk hd =>
      rcases hk with hk | hk
      · exact .inl ⟨rfl, _, _, Nat.le_succ_of_le hd, .opening hk (Nat.lt_succ_self _)⟩
      · exact .inl ⟨rfl, _, _, Nat.le_succ_of_le hd, .negation hk (Nat.lt_succ_self _)⟩
  | connectiveTooDeep hk hd =>
      exact .inl ⟨rfl, _, _, Nat.le_succ_of_le hd, .connective hk (Nat.lt_succ_self _)⟩
  | operandExpected h₁ h₂ h₃ =>
      right
      constructor
      · intro limit' r' he'
        cases he' with
        | opening hk _ => exact h₁ hk
        | negation hk _ => exact h₂ hk
        | letter hk => exact h₃ hk
      · simp [ReadFault.atChar, hr.wants, awaitsOperand]
  | unclosed hc hk =>
      right
      constructor
      · intro limit' r' he'
        cases he' with
        | connective hk' _ => exact hc _ hk'
        | closing hk' => exact hk hk'
      · simp [ReadFault.atChar, hr.wants, hr.opened, awaitsOperand]

theorem atEnd_eq_error {stop : Nat} {e : ReadFault} (h : r.atEnd stop = .error e)
    (hr : r.Fits w) : e = ReadFault.atStop w stop := by
  obtain ⟨phase, outer, d⟩ := r
  cases phase with
  | operand slot =>
      obtain rfl := Except.error.inj h
      simp [ReadFault.atStop, hr.wants, awaitsOperand]
  | connective f k =>
      cases outer with
      | nil => cases h
      | cons slot outer =>
          obtain rfl := Except.error.inj h
          simp [ReadFault.atStop, hr.wants, awaitsOperand]

end Reading

/-! ## What a fault points at -/

/-- The fault is about one of the lexemes, with its place and its character, or about the
end of the text. -/
inductive ReadFault.PointsInto (stop : Nat) (ts : List Lexeme) : ReadFault → Prop where
  | unfinished : PointsInto stop ts .unfinished
  | operandExpected {t : Lexeme} :
      t ∈ ts → PointsInto stop ts (.operandExpected t.pos t.symbol)
  | unclosed {t : Lexeme} : t ∈ ts → PointsInto stop ts (.unclosed t.pos (some t.symbol))
  | unclosedAtEnd : PointsInto stop ts (.unclosed stop none)
  | trailing {t : Lexeme} : t ∈ ts → PointsInto stop ts (.trailing t.pos t.symbol)
  | tooDeep {t : Lexeme} {limit : Nat} : t ∈ ts → PointsInto stop ts (.tooDeep t.pos limit)

theorem ReadFault.PointsInto.place {stop pos : Nat} {ts : List Lexeme} {e : ReadFault}
    (h : e.PointsInto stop ts) (hpos : e.pos? = some pos) :
    pos = stop ∨ ∃ t ∈ ts, t.pos = pos := by
  cases h with
  | unfinished => cases hpos
  | operandExpected ht => exact .inr ⟨_, ht, Option.some.inj hpos⟩
  | unclosed ht => exact .inr ⟨_, ht, Option.some.inj hpos⟩
  | unclosedAtEnd => exact .inl (Option.some.inj hpos).symm
  | trailing ht => exact .inr ⟨_, ht, Option.some.inj hpos⟩
  | tooDeep ht => exact .inr ⟨_, ht, Option.some.inj hpos⟩

namespace Reading

variable {limit stop : Nat} {r : Reading} {t : Lexeme} {ts : List Lexeme} {e : ReadFault}

theorem atEnd_pointsInto (h : r.atEnd stop = .error e) (ts : List Lexeme) :
    e.PointsInto stop ts := by
  obtain ⟨phase, outer, d⟩ := r
  cases phase with
  | operand slot =>
      obtain rfl := Except.error.inj h
      exact .unfinished
  | connective f k =>
      cases outer with
      | nil => cases h
      | cons slot outer =>
          obtain rfl := Except.error.inj h
          exact .unclosedAtEnd

theorem Effect.pointsInto {consumed : Bool} (h : Effect limit r t (.fault e consumed))
    (ht : t ∈ ts) : e.PointsInto stop ts := by
  cases h with
  | signTooDeep _ _ => exact .tooDeep ht
  | connectiveTooDeep _ _ => exact .tooDeep ht
  | operandExpected _ _ _ => exact .operandExpected ht
  | unclosed _ _ => exact .unclosed ht

theorem run_pointsInto (h : (run limit stop r ts).outcome = .error e) :
    e.PointsInto stop ts := by
  obtain ⟨us, vs, r', hts, -, hstops⟩ := run_splits limit stop r ts
  generalize run limit stop r ts = halt at h hstops
  cases hstops with
  | atEnd => exact atEnd_pointsInto h ts
  | complete _ => cases h
  | fault he =>
      obtain rfl := Except.error.inj h
      exact he.pointsInto (hts ▸ List.mem_append_right us (List.mem_cons_self ..))

end Reading

namespace Formula

/-- A fault never points back at what has been read. -/
theorem parse_pointsInto {limits : Limits} {text : List Char} {r : Reading}
    {us ts : List Lexeme} {e : ReadFault} (hsplit : Lexeme.ofText text = us ++ ts)
    (hmoves : Moves limits.maxDepth (start 0) us r)
    (h : (parse limits text).outcome = .error e) :
    e.PointsInto text.length ts := by
  have hhalt : halt limits text = r.run limits.maxDepth text.length ts := by
    rw [halt, hsplit, hmoves.run_eq]
  rw [outcome_parse, hhalt] at h
  cases hout : (r.run limits.maxDepth text.length ts).outcome with
  | error e' =>
      rw [hout] at h
      obtain rfl := Except.error.inj h
      exact run_pointsInto hout
  | ok f =>
      -- then it is about the tail, and the first lexeme left over
      have hsuffix := run_rest_suffix limits.maxDepth text.length r ts
      rw [hout] at h
      cases hrest : (r.run limits.maxDepth text.length ts).rest with
      | nil =>
          rw [hrest] at h
          cases h
      | cons t rest =>
          rw [hrest] at h hsuffix
          cases htail : limits.tail with
          | ignore =>
              rw [htail] at h
              cases h
          | reject =>
              rw [htail] at h
              obtain rfl := Except.error.inj h
              exact .trailing (hsuffix.subset (List.mem_cons_self ..))

/-! ## Faults of a whole text -/

variable {limits : Limits} {text : List Char} {e : ReadFault} {limit : Nat} {r : Reading}
  {t : Lexeme} {us vs : List Lexeme}

/-- A fault comes from a lexeme at which the reader stops, or from the end of the text. -/
theorem parse_eq_error_cases (h : (parse limits text).outcome = .error e) :
    ∃ us r, Moves limits.maxDepth (start 0) us r
      ∧ ((∃ t vs, Lexeme.ofText text = us ++ t :: vs ∧ r.Refuses t
            ∧ e = .atChar (us.map Lexeme.symbol) t.pos t.symbol)
        ∨ (∃ t vs limit' r', Lexeme.ofText text = us ++ t :: vs
            ∧ e = .tooDeep t.pos limits.maxDepth ∧ limits.maxDepth ≤ limit'
            ∧ Effect limit' r t (.next r'))
        ∨ (Lexeme.ofText text = us ∧ r.atEnd text.length = .error e)) := by
  obtain ⟨us, vs, r, hsplit, hmoves, hstops⟩ :=
    run_splits limits.maxDepth text.length (start 0) (Lexeme.ofText text)
  have hfits := Fits.moves hmoves (fits_start 0)
  refine ⟨us, r, hmoves, ?_⟩
  rw [outcome_parse, halt] at h
  generalize run limits.maxDepth text.length (start 0) (Lexeme.ofText text) = stopped
    at h hstops
  cases hstops with
  | atEnd =>
      right; right
      rw [List.append_nil] at hsplit
      refine ⟨hsplit, ?_⟩
      cases hend : r.atEnd text.length with
      | error e' =>
          rw [hend] at h
          exact h
      | ok f =>
          rw [hend] at h
          cases h
  | @complete f t vs he =>
      left
      obtain ⟨hrefuses, hkind⟩ := he.classify_complete hfits
      refine ⟨t, vs, hsplit, hrefuses, ?_⟩
      cases htail : limits.tail with
      | ignore =>
          rw [htail] at h
          cases h
      | reject =>
          rw [htail] at h
          exact (Except.error.inj h).symm.trans hkind
  | @fault e' consumed t vs he =>
      obtain rfl := Except.error.inj h
      rcases he.classify_fault hfits with ⟨hdeep, limit', r', hle, hnext⟩ | ⟨hrefuses, hkind⟩
      · exact .inr (.inl ⟨t, vs, limit', r', hsplit, hdeep, hle, hnext⟩)
      · exact .inl ⟨t, vs, hsplit, hrefuses, hkind⟩

/-- The text up to a position can become a formula, and with the character there it cannot. -/
structure BreaksAt (text : List Char) (pos : Nat) (x : Char) : Prop where
  getElem? : text[pos]? = some x
  not_space : x ≠ ' '
  viable : IsViable (significant (text.take pos))
  not_viable : ¬IsViable (significant (text.take (pos + 1)))

theorem breaksAt_of_refused (hmoves : Moves limit (start 0) us r)
    (hsplit : Lexeme.ofText text = us ++ t :: vs) (hrefuses : r.Refuses t) :
    BreaksAt text t.pos t.symbol := by
  have hmem : t ∈ Lexeme.ofText text :=
    hsplit ▸ List.mem_append_right us (List.mem_cons_self ..)
  obtain ⟨hget, hspace⟩ := Lexeme.mem_ofText.mp hmem
  obtain ⟨hbefore, hupto⟩ := Lexeme.ofText_take_of_eq_append hsplit
  refine ⟨hget, hspace, ?_, ?_⟩
  · rw [significant_eq_map_symbol, hbefore]
    exact isViable_of_moves hmoves
  · rw [significant_eq_map_symbol, hupto]
    exact not_isViable_of_refused hmoves hrefuses

/-- **Faults are blamed on the text.** A fault at a character stands where the text stops
being the beginning of a formula, not earlier and not later, and its kind follows from what
stands before. A fault at the end is that of a text that is no formula and can still become
one. A sign that is too deep can be part of a formula. -/
theorem fault_of_parse (limits : Limits) (text : List Char) (e : ReadFault)
    (h : (parse limits text).outcome = .error e) :
    match e with
    | .operandExpected pos x | .unclosed pos (some x) | .trailing pos x =>
        BreaksAt text pos x
          ∧ e = .atChar (significant (text.take pos)) pos x
          ∧ endsOperand (significant (text.take pos)).getLast?
              = !wantsOperand (significant (text.take pos)).getLast?
    | .unfinished | .unclosed _ none =>
        IsViable (significant text) ∧ ¬IsSentence (significant text)
          ∧ e = .atStop (significant text) text.length
          ∧ endsOperand (significant text).getLast? =
              !wantsOperand (significant text).getLast?
    | .tooDeep pos limit =>
        limit = limits.maxDepth ∧ (∃ x, text[pos]? = some x ∧ x ≠ ' ')
          ∧ IsViable (significant (text.take (pos + 1))) := by
  obtain ⟨us, r, hmoves, hcases⟩ := parse_eq_error_cases h
  have hfits : r.Fits (us.map Lexeme.symbol) := Fits.moves hmoves (fits_start 0)
  rcases hcases with ⟨t, vs, hsplit, hrefuses, he⟩
      | ⟨t, vs, limit', r', hsplit, rfl, hle, hnext⟩
    | ⟨rfl, hend⟩
  -- the reader refuses a character; the three kinds say the same, with their own place
  · have hbreaks := breaksAt_of_refused hmoves hsplit hrefuses
    rw [← (Lexeme.ofText_take_of_eq_append hsplit).1, ← significant_eq_map_symbol] at he hfits
    have hcontext := hfits.ends_eq_not_wants
    rcases ReadFault.atChar_cases (significant (text.take t.pos)) t.pos t.symbol
      with hc | hc | hc
    · obtain rfl := he.trans hc
      exact ⟨hbreaks, he, hcontext⟩
    · obtain rfl := he.trans hc
      exact ⟨hbreaks, he, hcontext⟩
    · obtain rfl := he.trans hc
      exact ⟨hbreaks, he, hcontext⟩
  -- a higher limit takes the sign that is too deep
  · obtain ⟨-, hupto⟩ := Lexeme.ofText_take_of_eq_append hsplit
    have hmem : t ∈ Lexeme.ofText text :=
      hsplit ▸ List.mem_append_right us (List.mem_cons_self ..)
    have hviable := isViable_of_moves ((hmoves.mono hle).trans (.head hnext .refl))
    rw [← hupto, ← significant_eq_map_symbol] at hviable
    exact ⟨rfl, ⟨t.symbol, Lexeme.mem_ofText.mp hmem⟩, hviable⟩
  -- the text ends too early: were it a formula, the reading would be complete
  · have he := atEnd_eq_error hend hfits
    have hviable := isViable_of_moves hmoves
    have hsentence : ¬IsSentence ((Lexeme.ofText text).map Lexeme.symbol) := fun hs => by
      obtain ⟨f, hf⟩ := atEnd_of_isSentence hmoves hs text.length
      cases hend.symm.trans hf
    rw [← significant_eq_map_symbol] at he hfits hviable hsentence
    have hcontext := hfits.ends_eq_not_wants
    rcases ReadFault.atStop_cases (significant text) text.length with hc | hc
    · obtain rfl := he.trans hc
      exact ⟨hviable, hsentence, he, hcontext⟩
    · obtain rfl := he.trans hc
      exact ⟨hviable, hsentence, he, hcontext⟩

/-- `(A !B` breaks at the negation, `(A&!` only stops too early, and of `!!A` both negations
are good under a limit that refuses the second one. -/
theorem fault_of_parse_negations :
    (parse {} ['(', 'A', ' ', '!', 'B']).outcome = .error (.unclosed 3 (some '!'))
      ∧ BreaksAt ['(', 'A', ' ', '!', 'B'] 3 '!'
      ∧ (parse {} ['(', 'A', '&', '!']).outcome = .error .unfinished
      ∧ IsViable ['(', 'A', '&', '!'] ∧ ¬IsSentence ['(', 'A', '&', '!']
      ∧ (parse { maxDepth := 1 } ['!', '!', 'A']).outcome = .error (.tooDeep 1 1)
      ∧ IsViable ['!', '!'] := by
  have hunclosed : (parse {} ['(', 'A', ' ', '!', 'B']).outcome =
      .error (.unclosed 3 (some '!')) := by rfl
  have hunfinished : (parse {} ['(', 'A', '&', '!']).outcome = .error .unfinished := by rfl
  have hdeep : (parse { maxDepth := 1 } ['!', '!', 'A']).outcome = .error (.tooDeep 1 1) := by
    rfl
  obtain ⟨hbreaks, -, -⟩ := fault_of_parse _ _ _ hunclosed
  obtain ⟨hviable, hsentence, -, -⟩ := fault_of_parse _ _ _ hunfinished
  obtain ⟨-, -, hsigns⟩ := fault_of_parse _ _ _ hdeep
  exact ⟨hunclosed, hbreaks, hunfinished, hviable, hsentence, hdeep, hsigns⟩

end Formula

end TruthTable
