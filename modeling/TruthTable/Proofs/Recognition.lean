import TruthTable.Proofs.Moves

/-!
# The reader recognizes the grammar

A *chain* is one or more operands joined by connectives and groups to the left. An *operand*
is a letter, a negated operand, or a chain in parentheses. Spaces play no part, so the
grammar is about texts without them. A derivation carries the formula that the text stands
for and its *cost*: negations and parentheses add a level around what they enclose, and the
operand after the `i`-th connective of a chain lies `i` levels deep.

The reader keeps a stack and a counter; the grammar knows neither. Three facts join them.

- **Completeness** (`Derives.moves`). A phrase of cost `n` is read through wherever the
  counter leaves room for `n` more levels, and the reading behind it holds its formula. The
  lexemes that follow are not looked at, so the induction is on the derivation alone.
- **Overflow** (`Derives.tooDeep`). With less room the reader stops inside the phrase at a
  sign that is too deep. So the cost is exactly the room that a phrase needs.
- **Soundness** (`Understands.moves`). A reading understands the lexemes that led to it: its
  stack splits them into one piece for each open group, its phase into the last piece, and
  every complete part of every piece derives with a cost that fits under the limit. This is
  the invariant of the reader; each step keeps it by one rule of the grammar.
-/

namespace TruthTable

/-! ## The grammar -/

namespace Formula

/-- The two kinds of phrase; a chain has a number of connectives of its own. -/
inductive Phrase where
  | operand
  | chain (links : Nat)
deriving DecidableEq, Repr

/-- `Derives p w f n`: the characters `w` form a phrase `p` that stands for `f` at
cost `n`. -/
inductive Derives : Phrase → List Char → Formula → Nat → Prop where
  | letter {x : Char} : isLetter x = true → Derives .operand [x] (var x) 0
  | negation {w : List Char} {f : Formula} {n : Nat} :
      Derives .operand w f n → Derives .operand ('!' :: w) (neg f) (1 + n)
  | group {k : Nat} {w : List Char} {f : Formula} {n : Nat} :
      Derives (.chain k) w f n → Derives .operand ('(' :: w ++ [')']) f (1 + n)
  | single {w : List Char} {f : Formula} {n : Nat} :
      Derives .operand w f n → Derives (.chain 0) w f n
  | link {k : Nat} {v w : List Char} {l r : Formula} {m n : Nat} (c : Connective) :
      Derives (.chain k) v l m → Derives .operand w r n →
      Derives (.chain (k + 1)) (v ++ c.symbol :: w) (binary c l r) (max m (k + 1 + n))

/-- The characters `w` form a whole formula `f` at cost `n`. -/
def Writes (w : List Char) (f : Formula) (n : Nat) : Prop := ∃ k, Derives (.chain k) w f n

/-- The characters of a text that are not spaces. -/
def significant (text : List Char) : List Char := text.filter (· ≠ ' ')

/-- Some formula is written `w`. -/
def IsSentence (w : List Char) : Prop := ∃ f n, Writes w f n

/-- The characters `w` can be continued to a sentence. -/
def IsViable (w : List Char) : Prop := ∃ v, IsSentence (w ++ v)

end Formula

open Formula Reading

/-! ## From derivations to moves -/

namespace Formula

/-- Where a phrase may begin: an operand in any slot, a chain only in a fresh group. -/
def Phrase.Fits : Phrase → Slot → Prop
  | .operand, _ => True
  | .chain _, slot => slot = .first

end Formula

/-- The reading behind a phrase for `f` that began in `slot` at depth `d`. -/
def Reading.behind (slot : Slot) (outer : List Slot) (d : Nat) (f : Formula) :
    Phrase → Reading
  | .operand => filled slot outer d f
  | .chain k => ⟨.connective f k, outer, d + k⟩

namespace Formula

variable {limit : Nat} {p : Phrase} {w : List Char} {f : Formula} {n : Nat}

theorem Derives.moves (h : Derives p w f n) :
    ∀ (slot : Slot) (outer : List Slot) (d : Nat) (ts : List Lexeme), p.Fits slot →
      ts.map Lexeme.symbol = w → d + n ≤ limit →
      Moves limit ⟨.operand slot, outer, d⟩ ts (behind slot outer d f p) := by
  induction h with
  | letter hx =>
      intro slot outer d ts _ hts _
      obtain ⟨t, rfl, rfl⟩ := List.map_eq_singleton_iff.mp hts
      exact .head (.letter (Lexeme.Kind.ofChar_eq_letter_iff.mpr hx)) .refl
  | negation _ ih =>
      intro slot outer d ts _ hts hd
      obtain ⟨t, ts, rfl, ht, hts⟩ := List.map_eq_cons_iff.mp hts
      have hk : t.kind = .negation := Lexeme.Kind.ofChar_eq_negation_iff.mpr ht
      have hbody := ih slot.negated outer (d + 1) ts trivial hts (by omega)
      rw [behind, filled_negated] at hbody
      exact .head (.negation hk (by omega)) hbody
  | @group k w f n _ ih =>
      intro slot outer d ts _ hts hd
      obtain ⟨t, ts, rfl, ht, hts⟩ := List.map_eq_cons_iff.mp hts
      obtain ⟨us, vs, rfl, hus, hvs⟩ := List.map_eq_append_iff.mp hts
      obtain ⟨u, rfl, hu⟩ := List.map_eq_singleton_iff.mp hvs
      have hk : t.kind = .opening := Lexeme.Kind.ofChar_eq_opening_iff.mpr ht
      have hk' : u.kind = .closing := Lexeme.Kind.ofChar_eq_closing_iff.mpr hu
      have hbody := ih .first (slot :: outer) (d + 1) us rfl hus (by omega)
      have hclose : Moves limit ⟨.connective f k, slot :: outer, d + 1 + k⟩ [u]
          (filled slot outer (d + 1 + k - k - 1) f) := .head (.closing hk') .refl
      rw [Nat.add_sub_cancel, Nat.add_sub_cancel] at hclose
      exact .head (.opening hk (by omega)) (hbody.trans hclose)
  | single _ ih =>
      intro slot outer d ts hslot hts hd
      obtain rfl : slot = .first := hslot
      exact ih .first outer d ts trivial hts hd
  | @link k v w l r m n c hl _ ihl ihr =>
      intro slot outer d ts hslot hts hd
      obtain ⟨us, vs, rfl, hus, hvs⟩ := List.map_eq_append_iff.mp hts
      obtain ⟨t, vs, rfl, ht, hvs⟩ := List.map_eq_cons_iff.mp hvs
      have hk : t.kind = .connective c := Lexeme.Kind.ofChar_eq_connective_iff.mpr ht
      have hleft := ihl slot outer d us hslot hus (by omega)
      have hright := ihr (.after l c (k + 1)) outer (d + k + 1) vs trivial hvs (by omega)
      exact hleft.trans (.head (.connective hk (by omega)) hright)

end Formula

/-! ## Without room -/

namespace Reading

/-- Among the lexemes is one that the reader comes to and finds too deep. -/
def Overflows (limit : Nat) (r : Reading) (ts : List Lexeme) : Prop :=
  ∃ us t vs r' consumed, ts = us ++ t :: vs ∧ Moves limit r us r'
    ∧ Effect limit r' t (.fault (.tooDeep t.pos limit) consumed)

variable {limit : Nat} {r r' : Reading} {t : Lexeme} {us ts : List Lexeme}

theorem Overflows.here {consumed : Bool}
    (h : Effect limit r t (.fault (.tooDeep t.pos limit) consumed)) (ts : List Lexeme) :
    Overflows limit r (t :: ts) :=
  ⟨[], t, ts, r, consumed, rfl, .refl, h⟩

theorem Overflows.after (h : Moves limit r us r') (h' : Overflows limit r' ts) :
    Overflows limit r (us ++ ts) := by
  obtain ⟨us', t, vs, r'', consumed, rfl, hmoves, he⟩ := h'
  exact ⟨us ++ us', t, vs, r'', consumed, (List.append_assoc ..).symm, h.trans hmoves, he⟩

theorem Overflows.append (h : Overflows limit r us) (ts : List Lexeme) :
    Overflows limit r (us ++ ts) := by
  obtain ⟨us', t, vs, r', consumed, rfl, hmoves, he⟩ := h
  exact ⟨us', t, vs ++ ts, r', consumed, List.append_assoc .., hmoves, he⟩

theorem Overflows.run_outcome (h : Overflows limit r ts) (stop : Nat) :
    ∃ pos, (run limit stop r ts).outcome = .error (.tooDeep pos limit) := by
  obtain ⟨us, t, vs, r', consumed, rfl, hmoves, he⟩ := h
  exact ⟨t.pos, by rw [hmoves.run_eq, (Stops.fault he).run_eq]⟩

end Reading

namespace Formula

variable {limit : Nat} {p : Phrase} {w : List Char} {f : Formula} {n : Nat}

/-- In a chain the fault is in the left part, or at the connective, or in the operand to
its right; the left part is read through unless the fault is in it. -/
theorem Derives.tooDeep (h : Derives p w f n) :
    ∀ (slot : Slot) (outer : List Slot) (d : Nat) (ts : List Lexeme), p.Fits slot →
      ts.map Lexeme.symbol = w → d ≤ limit → limit < d + n →
      Overflows limit ⟨.operand slot, outer, d⟩ ts := by
  induction h with
  | letter hx =>
      intro slot outer d ts _ _ hd hn
      exact absurd hn (Nat.not_lt.mpr hd)
  | negation _ ih =>
      intro slot outer d ts _ hts hd hn
      obtain ⟨t, ts, rfl, ht, hts⟩ := List.map_eq_cons_iff.mp hts
      have hk : t.kind = .negation := Lexeme.Kind.ofChar_eq_negation_iff.mpr ht
      rcases Nat.lt_or_ge d limit with hlt | hge
      · have hbody := ih slot.negated outer (d + 1) ts trivial hts hlt (by omega)
        exact hbody.after (.head (.negation hk hlt) .refl)
      · exact .here (.signTooDeep (.inr hk) hge) ts
  | group _ ih =>
      intro slot outer d ts _ hts hd hn
      obtain ⟨t, ts, rfl, ht, hts⟩ := List.map_eq_cons_iff.mp hts
      obtain ⟨us, vs, rfl, hus, hvs⟩ := List.map_eq_append_iff.mp hts
      have hk : t.kind = .opening := Lexeme.Kind.ofChar_eq_opening_iff.mpr ht
      rcases Nat.lt_or_ge d limit with hlt | hge
      · have hbody := ih .first (slot :: outer) (d + 1) us rfl hus hlt (by omega)
        exact (hbody.append vs).after (.head (.opening hk hlt) .refl)
      · exact .here (.signTooDeep (.inl hk) hge) (us ++ vs)
  | single _ ih =>
      intro slot outer d ts _ hts hd hn
      exact ih slot outer d ts trivial hts hd hn
  | @link k v w l r m n c hl _ ihl ihr =>
      intro slot outer d ts hslot hts hd hn
      obtain ⟨us, vs, rfl, hus, hvs⟩ := List.map_eq_append_iff.mp hts
      obtain ⟨t, vs, rfl, ht, hvs⟩ := List.map_eq_cons_iff.mp hvs
      have hk : t.kind = .connective c := Lexeme.Kind.ofChar_eq_connective_iff.mpr ht
      rcases Nat.lt_or_ge limit (d + m) with hm | hm
      · exact (ihl slot outer d us hslot hus hd hm).append (t :: vs)
      · have hleft := hl.moves slot outer d us hslot hus hm
        refine .after hleft ?_
        rcases Nat.lt_or_ge (d + k) limit with hlt | hge
        · have hright :=
            ihr (.after l c (k + 1)) outer (d + k + 1) vs trivial hvs hlt (by omega)
          exact hright.after (.head (.connective hk hlt) .refl)
        · exact .here (.connectiveTooDeep hk hge) vs

end Formula

/-! ## From moves to derivations

A slot has been read as some text: the chain to its left, that chain's connective and the
negations. The cost that goes with it is that of the chain; filling the slot with an operand
of cost `n` gives a chain in which the operand lies below all the levels of the slot. -/

inductive Slot.Reads : Slot → List Char → Nat → Prop where
  | first : Reads .first [] 0
  | after {k : Nat} {w : List Char} {l : Formula} {m : Nat} (c : Connective) :
      Derives (.chain k) w l m → Reads (.after l c (k + 1)) (w ++ [c.symbol]) m
  | negated {s : Slot} {w : List Char} {m : Nat} :
      Reads s w m → Reads s.negated (w ++ ['!']) m

theorem Slot.Reads.fill {s : Slot} {v : List Char} {m : Nat} (h : s.Reads v m) :
    ∀ {w : List Char} {f : Formula} {n : Nat}, Derives .operand w f n →
      Derives (.chain s.links) (v ++ w) (s.fill f) (max m (s.levels + n)) := by
  induction h with
  | first =>
      intro w f n hf
      have hsingle : Derives (.chain 0) w f n := .single hf
      simpa [Slot.first, Slot.fill, Slot.levels, negate] using hsingle
  | @after k v l m c hl =>
      intro w f n hf
      have hlink := Derives.link c hl hf
      simpa [Slot.after, Slot.fill, Slot.levels, negate] using hlink
  | @negated s v m _ ih =>
      intro w f n hf
      have hneg := ih (Derives.negation hf)
      rw [fill_negated, links_negated, levels_negated]
      rw [show s.levels + (1 + n) = s.levels + 1 + n by omega] at hneg
      simpa using hneg

namespace Reading

/-- `Stacked limit base outer w d`: the slots `outer` have been read as `w`, from a counter at
`base` up to `d` inside the innermost group, and every chain before an open group fits
under the limit. -/
inductive Stacked (limit base : Nat) : List Slot → List Char → Nat → Prop where
  | nil : Stacked limit base [] [] base
  | cons {slot : Slot} {outer : List Slot} {v w : List Char} {d m : Nat} :
      Stacked limit base outer v d → slot.Reads w m → d + m ≤ limit →
      Stacked limit base (slot :: outer) (v ++ w ++ ['(']) (d + slot.levels + 1)

/-- `Understands limit base r w`: the reading `r` of a formula that began with the counter at
`base` is what the text `w` leads to. -/
inductive Understands (limit base : Nat) : Reading → List Char → Prop where
  | operand {slot : Slot} {outer : List Slot} {v w : List Char} {d m : Nat} :
      Stacked limit base outer v d → slot.Reads w m → d + m ≤ limit →
      d + slot.levels ≤ limit →
      Understands limit base ⟨.operand slot, outer, d + slot.levels⟩ (v ++ w)
  | connective {f : Formula} {k : Nat} {outer : List Slot} {v w : List Char} {d m : Nat} :
      Stacked limit base outer v d → Derives (.chain k) w f m → d + m ≤ limit →
      Understands limit base ⟨.connective f k, outer, d + k⟩ (v ++ w)

variable {limit base : Nat} {r r' : Reading} {t : Lexeme} {w : List Char} {ts : List Lexeme}

theorem understands_start (h : base ≤ limit) : Understands limit base (start base) [] :=
  .operand .nil .first h h

/-- A complete operand takes its place in the chain, and its negations give their levels
back. -/
theorem understands_filled {slot : Slot} {outer : List Slot} {u v w : List Char} {f : Formula}
    {d m n : Nat} (ho : Stacked limit base outer u d) (hs : slot.Reads v m)
    (hm : d + m ≤ limit) (hf : Derives .operand w f n) (hn : d + slot.levels + n ≤ limit) :
    Understands limit base (filled slot outer (d + slot.levels) f) (u ++ (v ++ w)) := by
  have hd : d + slot.levels - slot.negations = d + slot.links := by
    rw [Slot.levels]
    omega
  rw [filled, hd]
  exact .connective ho (hs.fill hf) (by omega)

/-- The invariant of the reader: a step that goes on understands one more character. -/
theorem Understands.step (h : Understands limit base r w) (he : Effect limit r t (.next r')) :
    Understands limit base r' (w ++ [t.symbol]) := by
  cases he with
  | opening hk hd =>
      cases h with
      | operand ho hs hm hl =>
          rw [Lexeme.Kind.ofChar_eq_opening_iff.mp hk, ← List.append_nil (_ ++ ['('])]
          exact .operand (.cons ho hs hm) .first hd hd
  | negation hk hd =>
      cases h with
      | operand ho hs hm hl =>
          rw [Lexeme.Kind.ofChar_eq_negation_iff.mp hk, List.append_assoc]
          exact .operand ho hs.negated hm hd
  | letter hk =>
      cases h with
      | operand ho hs hm hl =>
          rw [List.append_assoc]
          exact understands_filled ho hs hm
            (.letter (Lexeme.Kind.ofChar_eq_letter_iff.mp hk)) hl
  | @connective f k outer d t c hk hd =>
      cases h with
      | connective ho hf hm =>
          rw [Lexeme.Kind.ofChar_eq_connective_iff.mp hk, List.append_assoc]
          exact .operand ho (.after c hf) hm hd
  | @closing f k slot outer d t hk =>
      cases h with
      | @connective _ _ _ v w d m ho hf hm =>
          cases ho with
          | @cons _ _ u v d m' ho hs hm' =>
              have hgroup : Derives .operand ('(' :: w ++ [')']) f (1 + m) := .group hf
              have hd : d + slot.levels + 1 + k - k - 1 = d + slot.levels := by omega
              rw [Lexeme.Kind.ofChar_eq_closing_iff.mp hk, hd,
                show u ++ v ++ ['('] ++ w ++ [')'] = u ++ (v ++ ('(' :: w ++ [')'])) by simp]
              exact understands_filled ho hs hm' hgroup (by omega)

theorem Understands.moves (h : Moves limit r ts r') {w : List Char}
    (hw : Understands limit base r w) :
    Understands limit base r' (w ++ ts.map Lexeme.symbol) :=
  h.preserves (fun hw he => hw.step he) hw

/-- Outside of all groups, what a reading holds is a whole formula. -/
theorem Understands.writes {f : Formula} {k d : Nat}
    (h : Understands limit base ⟨.connective f k, [], d⟩ w) :
    ∃ n, Writes w f n ∧ base + n ≤ limit := by
  cases h with
  | @connective _ _ _ v w d m ho hf hm =>
      cases ho with
      | nil => exact ⟨m, ⟨k, hf⟩, hm⟩

/-! ## Runs -/

/-- The lexemes begin with the formula `f` at cost `n`, followed by `rest`, and no connective
continues it there. -/
def Leads (f : Formula) (n : Nat) (ts rest : List Lexeme) : Prop :=
  ∃ us, ts = us ++ rest ∧ Writes (us.map Lexeme.symbol) f n
    ∧ ∀ t ∈ rest.head?, ∀ c, t.kind ≠ .connective c

variable {stop n : Nat} {f : Formula} {rest : List Lexeme}

theorem Leads.run_eq (h : Leads f n ts rest) (hn : base + n ≤ limit) (stop : Nat) :
    ∃ r, run limit stop (start base) ts = ⟨.ok f, rest, r⟩ := by
  obtain ⟨us, rfl, ⟨k, hf⟩, hrest⟩ := h
  have hmoves := hf.moves .first [] base us rfl rfl hn
  refine ⟨⟨.connective f k, [], base + k⟩, ?_⟩
  rw [start, hmoves.run_eq]
  cases rest with
  | nil => rfl
  | cons t rest =>
      exact (Stops.complete (.complete (hrest t rfl))).run_eq

theorem Leads.run_tooDeep (h : Leads f n ts rest) (hb : base ≤ limit) (hn : limit < base + n)
    (stop : Nat) :
    ∃ pos, (run limit stop (start base) ts).outcome = .error (.tooDeep pos limit) := by
  obtain ⟨us, rfl, ⟨k, hf⟩, -⟩ := h
  have hover := hf.tooDeep .first [] base us rfl rfl hb hn
  exact (hover.append rest).run_outcome stop

theorem leads_of_run (hb : base ≤ limit)
    (h : (run limit stop (start base) ts).outcome = .ok f) :
    ∃ n, Leads f n ts (run limit stop (start base) ts).rest ∧ base + n ≤ limit := by
  obtain ⟨us, vs, r, hts, hmoves, hstops⟩ := run_splits limit stop (start base) ts
  have hw := Understands.moves hmoves (understands_start hb)
  generalize run limit stop (start base) ts = halt at *
  subst hts
  cases hstops with
  | atEnd =>
      obtain ⟨k, d, rfl⟩ := atEnd_eq_ok h
      obtain ⟨n, hf, hn⟩ := hw.writes
      exact ⟨n, ⟨us, rfl, hf, nofun⟩, hn⟩
  | @complete g t vs he =>
      obtain rfl := Except.ok.inj h
      cases he with
      | complete hc =>
          obtain ⟨n, hf, hn⟩ := hw.writes
          refine ⟨n, ⟨us, rfl, hf, fun u hu => ?_⟩, hn⟩
          obtain rfl := Option.some.inj hu
          exact hc
  | fault he => cases h

end Reading

end TruthTable
