import TruthTable.Proofs.Parsing

/-!
# What follows the formula

A text may go on after its formula. `Tail` says what is made of that, and it is asked only
when the run is over: the run is the same in both modes (`halt` does not look at the tail),
so the modes can differ only where a formula came out and lexemes are left.

- No run blames the tail by itself (`halt_ne_trailing`), so a trailing fault comes from the
  check after the run, and everything else that goes wrong goes wrong in both modes.
- A formula is complete where no connective continues it. The text that ends there has the
  same lexemes up to that place, so it derives the same formula at the same cost, and it is
  read with nothing left over (`Leads.writes_take`).
-/

namespace TruthTable

open Formula Reading

namespace Reading

variable {limit stop n : Nat} {r : Reading} {ts rest : List Lexeme} {halt : Halt}
  {text : List Char} {f : Formula} {t : Lexeme}

theorem atEnd_ne_trailing (stop : Nat) (r : Reading) (pos : Nat) (x : Char) :
    r.atEnd stop ≠ .error (.trailing pos x) := by
  obtain ⟨phase, outer, d⟩ := r
  cases phase with
  | operand slot => exact nofun
  | connective f k => cases outer <;> exact nofun

theorem Stops.ne_trailing (h : Stops limit stop r ts halt) (pos : Nat) (x : Char) :
    halt.outcome ≠ .error (.trailing pos x) := by
  cases h with
  | atEnd => exact atEnd_ne_trailing stop r pos x
  | complete _ => exact nofun
  | fault he => cases he <;> exact nofun

/-- The text up to the first lexeme left over is the formula and nothing else. -/
theorem Leads.writes_take (h : Leads f n (Lexeme.ofText text) (t :: rest)) :
    Writes (significant (text.take t.pos)) f n := by
  obtain ⟨us, hus, hw, -⟩ := h
  obtain ⟨hbefore, -⟩ := Lexeme.ofText_take_of_eq_append hus
  rwa [significant_eq_map_symbol, hbefore]

end Reading

namespace Formula

variable {limits : Limits} {text : List Char} {f : Formula}

theorem halt_ne_trailing (limits : Limits) (text : List Char) (pos : Nat) (x : Char) :
    (halt limits text).outcome ≠ .error (.trailing pos x) := by
  obtain ⟨us, vs, r, -, -, hstops⟩ :=
    run_splits limits.maxDepth text.length (start 0) (Lexeme.ofText text)
  exact hstops.ne_trailing pos x

/-- Something follows the formula where the run left over a lexeme. -/
theorem exists_halt_of_trailing {pos : Nat} {x : Char}
    (h : (parse { limits with tail := .reject } text).outcome = .error (.trailing pos x)) :
    ∃ f t rest, (halt limits text).outcome = .ok f ∧ (halt limits text).rest = t :: rest
      ∧ t.pos = pos := by
  rw [outcome_parse] at h
  have hsame : halt { limits with tail := .reject } text = halt limits text := rfl
  rw [hsame] at h
  cases hout : (halt limits text).outcome with
  | error e =>
      rw [hout] at h
      obtain rfl := Except.error.inj h
      exact absurd hout (halt_ne_trailing limits text pos x)
  | ok f =>
      rw [hout] at h
      cases hrest : (halt limits text).rest with
      | nil =>
          rw [hrest] at h
          cases h
      | cons t rest =>
          rw [hrest] at h
          obtain ⟨hpos, -⟩ := ReadFault.trailing.inj (Except.error.inj h)
          exact ⟨f, t, rest, rfl, rfl, hpos⟩

/-- Cutting off what a run left over makes the text one formula, at the same cost. -/
theorem parse_take_of_halt {t : Lexeme} {rest : List Lexeme}
    (hok : (halt limits text).outcome = .ok f) (hrest : (halt limits text).rest = t :: rest) :
    (parse { limits with tail := .reject } (text.take t.pos)).outcome = .ok f := by
  obtain ⟨n, hleads, hn⟩ := leads_of_run (Nat.zero_le limits.maxDepth) hok
  rw [halt] at hrest
  rw [hrest] at hleads
  rw [Nat.zero_add] at hn
  exact parse_eq_ok_iff.mpr ⟨n, hn, heads_of_writes hleads.writes_take .reject⟩

/-- **Ignoring the tail changes nothing else.** Where a text is one formula, both modes read
it and neither warns. Where something follows the formula, the one mode fails there, and the
other answers what the text up to that place is read as, with one warning that names the
place. Any other fault is the same in both modes, and nothing is noted. -/
theorem parse_ignore_tail (limits : Limits) (text : List Char) :
    match (parse { limits with tail := .reject } text).outcome with
    | .ok f => parse { limits with tail := .ignore } text = ⟨.ok f, [.read text f]⟩
    | .error (.trailing pos _) =>
        ∃ f, parse { limits with tail := .ignore } text =
            ⟨.ok f, [.ignoredTail pos, .read text f]⟩
          ∧ (parse { limits with tail := .reject } (text.take pos)).outcome = .ok f
    | .error e => parse { limits with tail := .ignore } text = ⟨.error e, []⟩ := by
  have hstrict := outcome_parse { limits with tail := .reject } text
  have hlenient := parse_eq { limits with tail := .ignore } text
  have hsame : halt { limits with tail := .ignore } text =
      halt { limits with tail := .reject } text := rfl
  rw [hsame] at hlenient
  cases hout : (halt { limits with tail := .reject } text).outcome with
  | error e =>
      rw [hout] at hstrict hlenient
      rw [hstrict, hlenient]
      cases e with
      | trailing pos x => exact absurd hout (halt_ne_trailing _ text pos x)
      | unfinished => rfl
      | operandExpected pos x => rfl
      | unclosed pos x => rfl
      | tooDeep pos limit => rfl
  | ok f =>
      rw [hout] at hstrict hlenient
      cases hrest : (halt { limits with tail := .reject } text).rest with
      | nil =>
          rw [hrest] at hstrict hlenient
          rw [hstrict]
          exact hlenient
      | cons t rest =>
          have htake := parse_take_of_halt hout hrest
          rw [hrest] at hstrict hlenient
          rw [hstrict]
          exact ⟨f, hlenient, htake⟩

/-- The closing parenthesis is no part of a formula, and neither is the letter after it. -/
example : parse { tail := .ignore } ['A', ' ', ')', 'B'] =
    ⟨.ok (var 'A'), [.ignoredTail 2, .read ['A', ' ', ')', 'B'] (var 'A')]⟩ := rfl

end Formula

end TruthTable
