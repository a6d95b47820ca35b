import TruthTable.Proofs.Resuming
import TruthTable.Proofs.Faults

/-!
# The places of faults

A reader that is kept finds one fault after another, and each names a place in the text. Two
things make these places of use to a caller that goes on after a fault.

- They are right. A lexeme carries its position from the text to wherever the fault is
  found, so the character there is the one that the fault is about, or the sign that has no
  level left (`ReadFault.StandsIn`, `Within.standsIn`).
- They come in order. Behind a fault the reader has only later lexemes before it, or that of
  the fault itself where it did not count as read; and later lexemes have later positions.
  `From pos` says that all that a reader can still blame is at `pos` or behind it. A fault
  brings it about (`Within.from_answer`), requests keep it (`From.answer`), and it bounds
  every later fault (`From.le_of_mem_answers`).
-/

namespace TruthTable

open Formula Reading

namespace ReadFault

/-- What stands at the place of a fault: the character that it is about, a sign that takes a
level, or the end of the text. -/
def StandsIn (limit : Nat) (text : List Char) : ReadFault → Prop
  | unfinished => True
  | operandExpected pos found | unclosed pos (some found) | trailing pos found =>
      pos < text.length ∧ text[pos]? = some found ∧ found ≠ ' '
  | unclosed pos none => pos = text.length
  | tooDeep pos n =>
      n = limit ∧ (text[pos]? = some '(' ∨ text[pos]? = some '!'
        ∨ ∃ c : Connective, text[pos]? = some c.symbol)

/-- The character that the fault is about counts as read. -/
def skips : ReadFault → Bool
  | operandExpected _ _ | unclosed _ (some _) => true
  | _ => false

/-- The later fault is not before the earlier one, and not at a place that this has skipped.
-/
def Precedes (e e' : ReadFault) : Prop :=
  ∀ pos ∈ e.pos?, ∀ pos' ∈ e'.pos?, pos ≤ pos' ∧ (e.skips = true → pos < pos')

end ReadFault

namespace Reading

variable {limit stop pos : Nat} {text : List Char} {r : Reading} {t : Lexeme}
  {ts : List Lexeme} {halt : Halt} {e : ReadFault}

/-! ## The place of one fault -/

theorem atEnd_error_cases (h : r.atEnd stop = .error e) :
    e = .unfinished ∨ e = .unclosed stop none := by
  obtain ⟨phase, outer, d⟩ := r
  cases phase with
  | operand slot => exact .inl (Except.error.inj h).symm
  | connective f k =>
      cases outer with
      | nil => cases h
      | cons slot outer => exact .inr (Except.error.inj h).symm

theorem Effect.standsIn {consumed : Bool} (h : Effect limit r t (.fault e consumed))
    (ht : t ∈ Lexeme.ofText text) : e.StandsIn limit text := by
  have hlt := Lexeme.pos_lt_length ht
  obtain ⟨hget, hspace⟩ := Lexeme.mem_ofText.mp ht
  cases h with
  | signTooDeep hk _ =>
      refine ⟨rfl, ?_⟩
      rcases hk with hk | hk
      · rw [Lexeme.Kind.ofChar_eq_opening_iff.mp hk] at hget
        exact .inl hget
      · rw [Lexeme.Kind.ofChar_eq_negation_iff.mp hk] at hget
        exact .inr (.inl hget)
  | @connectiveTooDeep _ _ _ _ _ c hk _ =>
      rw [Lexeme.Kind.ofChar_eq_connective_iff.mp hk] at hget
      exact ⟨rfl, .inr (.inr ⟨c, hget⟩)⟩
  | operandExpected _ _ _ => exact ⟨hlt, hget, hspace⟩
  | unclosed _ _ => exact ⟨hlt, hget, hspace⟩

theorem run_standsIn (hts : ts <:+ Lexeme.ofText text)
    (h : (run limit text.length r ts).outcome = .error e) : e.StandsIn limit text := by
  obtain ⟨us, vs, r', hsplit, -, hstops⟩ := run_splits limit text.length r ts
  generalize run limit text.length r ts = halt at h hstops
  cases hstops with
  | atEnd =>
      rcases atEnd_error_cases h with rfl | rfl
      · trivial
      · rfl
  | complete _ => cases h
  | @fault _ _ t _ he =>
      obtain rfl := Except.error.inj h
      have ht : t ∈ ts := hsplit ▸ List.mem_append_right us (List.mem_cons_self ..)
      exact he.standsIn (hts.subset ht)

/-! ## What is left behind a fault -/

/-- The lexemes that are left are not before the fault, and if its character counts as read
they are all behind it. -/
theorem Stops.le_rest (h : Stops limit stop r ts halt) (hout : halt.outcome = .error e)
    (hsorted : ts.Pairwise (·.pos < ·.pos)) (hstop : ∀ t ∈ ts, t.pos < stop)
    (hpos : e.pos? = some pos) :
    pos + e.skips.toNat ≤ stop ∧ ∀ t ∈ halt.rest, pos + e.skips.toNat ≤ t.pos := by
  cases h with
  | atEnd =>
      rcases atEnd_error_cases hout with rfl | rfl
      · cases hpos
      · obtain rfl := Option.some.inj hpos
        exact ⟨Nat.le_refl _, nofun⟩
  | complete _ => cases hout
  | @fault e' consumed t ts he =>
      obtain rfl := Except.error.inj hout
      have hend := hstop t (List.mem_cons_self ..)
      have hlater := (List.pairwise_cons.mp hsorted).1
      cases he with
      | signTooDeep _ _ =>
          obtain rfl := Option.some.inj hpos
          exact ⟨Nat.le_of_lt hend, fun u hu => Nat.le_of_lt (hlater u hu)⟩
      | connectiveTooDeep _ _ =>
          obtain rfl := Option.some.inj hpos
          refine ⟨Nat.le_of_lt hend, fun u hu => ?_⟩
          rcases List.mem_cons.mp hu with rfl | hu
          · exact Nat.le_refl _
          · exact Nat.le_of_lt (hlater u hu)
      | operandExpected _ _ _ =>
          obtain rfl := Option.some.inj hpos
          exact ⟨hend, hlater⟩
      | unclosed _ _ =>
          obtain rfl := Option.some.inj hpos
          exact ⟨hend, hlater⟩

theorem run_le_rest (h : (run limit stop r ts).outcome = .error e)
    (hsorted : ts.Pairwise (·.pos < ·.pos)) (hstop : ∀ t ∈ ts, t.pos < stop)
    (hpos : e.pos? = some pos) :
    pos + e.skips.toNat ≤ stop
      ∧ ∀ t ∈ (run limit stop r ts).rest, pos + e.skips.toNat ≤ t.pos := by
  obtain ⟨us, vs, r', hsplit, -, hstops⟩ := run_splits limit stop r ts
  have hvs : vs <:+ ts := ⟨us, hsplit.symm⟩
  exact hstops.le_rest h (hsorted.sublist hvs.sublist) (fun t ht => hstop t (hvs.subset ht))
    hpos

end Reading

namespace Reader

variable {limit pos : Nat} {text : List Char} {r : Reader} {q : Request} {e : ReadFault}

/-- A request fails where the formula has a fault, or where the end of the text is asked for
and a lexeme is left. -/
theorem answer_error_cases (h : (r.answer q).1.outcome = .error e) :
    (q = .formula ∧ r.formula.1 = .error e)
      ∨ ∃ t ts, q = .finish .reject ∧ r.rest = t :: ts ∧ e = .trailing t.pos t.symbol := by
  cases q with
  | formula =>
      left
      refine ⟨rfl, ?_⟩
      cases hout : r.formula.1 with
      | error e' =>
          rw [answer, Logged.outcome_ofExcept, hout] at h
          obtain rfl := Except.error.inj h
          rfl
      | ok f =>
          rw [answer, Logged.outcome_ofExcept, hout] at h
          cases h
  | finish tail =>
      right
      obtain ⟨rest, depth, limit, stop⟩ := r
      cases rest with
      | nil => cases h
      | cons t ts =>
          cases tail with
          | reject =>
              obtain rfl := Except.error.inj h
              exact ⟨t, ts, rfl, rfl, rfl⟩
          | ignore => cases h

/-! ## One request -/

theorem Within.standsIn (h : Within limit text r) (he : (r.answer q).1.outcome = .error e) :
    e.StandsIn limit text := by
  rcases answer_error_cases he with ⟨-, hformula⟩ | ⟨t, ts, -, hrest, rfl⟩
  · rw [Reader.formula, h.limit_eq, h.stop_eq] at hformula
    exact run_standsIn h.rest_suffix hformula
  · have ht : t ∈ Lexeme.ofText text := h.rest_suffix.subset (hrest ▸ List.mem_cons_self ..)
    exact ⟨Lexeme.pos_lt_length ht, Lexeme.mem_ofText.mp ht⟩

/-- All that a reader can still blame is at `pos` or behind it. -/
structure From (pos : Nat) (r : Reader) : Prop where
  le_stop : pos ≤ r.stop
  le_rest : ∀ t ∈ r.rest, pos ≤ t.pos

theorem Within.pairwise_rest (h : Within limit text r) : r.rest.Pairwise (·.pos < ·.pos) :=
  (Lexeme.pairwise_ofText text).sublist h.rest_suffix.sublist

theorem Within.pos_lt_stop (h : Within limit text r) : ∀ t ∈ r.rest, t.pos < r.stop := by
  intro t ht
  rw [h.stop_eq]
  exact Lexeme.pos_lt_length (h.rest_suffix.subset ht)

theorem Within.from_answer (h : Within limit text r) (he : (r.answer q).1.outcome = .error e)
    (hpos : e.pos? = some pos) : From (pos + e.skips.toNat) (r.answer q).2 := by
  rcases answer_error_cases he with ⟨rfl, hformula⟩ | ⟨t, ts, rfl, hrest, rfl⟩
  · obtain ⟨hstop, hleft⟩ := run_le_rest hformula h.pairwise_rest h.pos_lt_stop hpos
    exact ⟨hstop, hleft⟩
  · obtain rfl := Option.some.inj hpos
    have hsorted := h.pairwise_rest
    have hstop := h.pos_lt_stop t (hrest ▸ List.mem_cons_self ..)
    rw [hrest] at hsorted
    refine ⟨Nat.le_of_lt hstop, fun u hu => ?_⟩
    rcases List.mem_cons.mp (hrest ▸ hu) with rfl | hu
    · exact Nat.le_refl _
    · exact Nat.le_of_lt ((List.pairwise_cons.mp hsorted).1 u hu)

theorem From.answer (h : From pos r) (q : Request) : From pos (r.answer q).2 := by
  cases q with
  | formula =>
      have hsuffix := run_rest_suffix r.limit r.stop (start r.depth) r.rest
      exact ⟨h.le_stop, fun t ht => h.le_rest t (hsuffix.subset ht)⟩
  | finish tail => exact h

theorem From.le_of_answer (h : From pos r) (he : (r.answer q).1.outcome = .error e)
    {pos' : Nat} (hpos' : e.pos? = some pos') : pos ≤ pos' := by
  have hpoints : e.PointsInto r.stop r.rest := by
    rcases answer_error_cases he with ⟨-, hformula⟩ | ⟨t, ts, -, hrest, rfl⟩
    · exact run_pointsInto hformula
    · exact .trailing (hrest ▸ List.mem_cons_self ..)
  rcases hpoints.place hpos' with rfl | ⟨t, ht, rfl⟩
  · exact h.le_stop
  · exact h.le_rest t ht

/-! ## All requests -/

/-- What each answer keeps of the reader and shows in its reply, all replies show. -/
theorem forall_mem_answers {I : Reader → Prop} {P : Logged ReadFault Reply → Prop}
    (hkeeps : ∀ r q, I r → I (r.answer q).2) (hshows : ∀ r q, I r → P (r.answer q).1)
    (h : I r) (requests : List Request) : ∀ reply ∈ (r.answers requests).1, P reply := by
  induction requests generalizing r with
  | nil => exact nofun
  | cons q qs ih =>
      intro reply hreply
      rcases List.mem_cons.mp hreply with rfl | hreply
      · exact hshows r q h
      · exact ih (hkeeps r q h) reply hreply

theorem Within.standsIn_of_mem_answers (h : Within limit text r) (requests : List Request) :
    ∀ reply ∈ (r.answers requests).1, ∀ e, reply.outcome = .error e → e.StandsIn limit text :=
  forall_mem_answers (fun _ q h => h.answer q) (fun _ _ h _ => h.standsIn) h requests

theorem From.le_of_mem_answers (h : From pos r) (requests : List Request) :
    ∀ reply ∈ (r.answers requests).1, ∀ e, reply.outcome = .error e →
      ∀ pos' ∈ e.pos?, pos ≤ pos' :=
  forall_mem_answers (fun _ q h => h.answer q) (fun _ _ h _ he _ => h.le_of_answer he) h
    requests

theorem Within.pairwise_answers (h : Within limit text r) (requests : List Request) :
    (r.answers requests).1.Pairwise fun reply later =>
      ∀ e e', reply.outcome = .error e → later.outcome = .error e' → e.Precedes e' := by
  induction requests generalizing r with
  | nil => exact .nil
  | cons q qs ih =>
      refine .cons (fun later hlater e e' he he' pos hpos pos' hpos' => ?_) (ih (h.answer q))
      have hle : pos + e.skips.toNat ≤ pos' :=
        (h.from_answer he hpos).le_of_mem_answers qs later hlater e' he' pos' hpos'
      refine ⟨Nat.le_trans (Nat.le_add_right _ _) hle, fun hskips => ?_⟩
      rw [hskips] at hle
      exact hle

/-- **Faults name their places, in order.** Whatever is asked of a reader, a fault about a
character has the place of that character in the text, spaces counted, and it is not a
space; a sign that is too deep is a parenthesis, a negation or a connective of the text; and
what is missing at the end is missing behind the last character. Of two faults that have a
place the later one is not before the earlier one, and it is behind it if that has skipped
its character. -/
theorem answers_name_places_in_order (limit : Nat) (text : List Char)
    (requests : List Request) :
    (∀ reply ∈ ((ofText limit text).answers requests).1, ∀ e, reply.outcome = .error e →
        e.StandsIn limit text)
      ∧ ((ofText limit text).answers requests).1.Pairwise fun reply later =>
          ∀ e e', reply.outcome = .error e → later.outcome = .error e' → e.Precedes e' :=
  ⟨(within_ofText limit text).standsIn_of_mem_answers requests,
    (within_ofText limit text).pairwise_answers requests⟩

/-- Places count characters, however many bytes they take. -/
example : ((ofText 1 ['é', ' ', '(', '(', 'A']).answers (.replicate 3 .formula)).1.map
    Logged.outcome = [.error (.operandExpected 0 'é'), .error (.tooDeep 3 1),
      .ok (.formula (.var 'A'))] := rfl

end Reader

end TruthTable
