import TruthTable.Reader
import TruthTable.Proofs.Recognition

/-!
# Reading a whole text

`Formula.parse` runs a fresh reader and then asks for the end of the text. What it answers is
said here in terms of the grammar: a formula comes out exactly when it stands at the head of
the text (`Formula.Heads`) at a cost within the limit (`parse_eq_ok_iff`), and a
formula that heads the text at a higher cost is refused as too deep (`Heads.parse_tooDeep`).

The grammar itself is unambiguous, tree and cost alike (`Writes.unique`). No induction on
derivations is needed for that: two derivations of one text are read by the same run, and a
run has one outcome at every limit.
-/

namespace TruthTable

open Reading

namespace Formula

/-! ## The outcome of a run -/

/-- Where the run over a text stops. -/
def halt (limits : Limits) (text : List Char) : Halt :=
  (Reading.start 0).run limits.maxDepth text.length (Lexeme.ofText text)

/-- Reading a text is a run and a look at what it leaves over; the notes are made at the end,
so a text that is refused leaves none. -/
theorem parse_eq (limits : Limits) (text : List Char) :
    parse limits text =
      match (halt limits text).outcome with
      | .error e => ⟨.error e, []⟩
      | .ok f =>
        match (halt limits text).rest, limits.tail with
        | [], _ => ⟨.ok f, [.read text f]⟩
        | t :: _, .reject => ⟨.error (.trailing t.pos t.symbol), []⟩
        | t :: _, .ignore => ⟨.ok f, [.ignoredTail t.pos, .read text f]⟩ := by
  have hparse : parse limits text = .ofExcept (halt limits text).outcome >>= fun f =>
      (⟨(halt limits text).rest, (halt limits text).last.released, limits.maxDepth,
        text.length⟩ : Reader).finish limits.tail >>= fun _ =>
      .note (.read text f) >>= fun _ => pure f := rfl
  rw [hparse]
  cases (halt limits text).outcome with
  | error e => rfl
  | ok f =>
      cases (halt limits text).rest with
      | nil => cases limits.tail <;> rfl
      | cons t rest => cases limits.tail <;> rfl

theorem outcome_parse (limits : Limits) (text : List Char) :
    (parse limits text).outcome =
      match (halt limits text).outcome with
      | .error e => .error e
      | .ok f =>
        match (halt limits text).rest, limits.tail with
        | t :: _, .reject => .error (.trailing t.pos t.symbol)
        | _, _ => .ok f := by
  rw [parse_eq]
  cases (halt limits text).outcome with
  | error e => rfl
  | ok f =>
      cases (halt limits text).rest with
      | nil => cases limits.tail <;> rfl
      | cons t rest => cases limits.tail <;> rfl

variable {limits : Limits} {text w : List Char} {f g : Formula} {m n : Nat}

theorem parse_eq_ok_iff_halt :
    (parse limits text).outcome = .ok f ↔
      (halt limits text).outcome = .ok f
        ∧ (limits.tail = .reject → (halt limits text).rest = []) := by
  rw [outcome_parse]
  cases (halt limits text).outcome with
  | error e => simp
  | ok g =>
      cases (halt limits text).rest with
      | nil => simp
      | cons t rest => cases limits.tail <;> simp

theorem parse_eq_error_of_halt {e : ReadFault} (h : (halt limits text).outcome = .error e) :
    (parse limits text).outcome = .error e := by
  rw [outcome_parse, h]

/-! ## The formula at the head of a text -/

/-- The formula `f` of cost `n` stands at the head of a text and ends only where no connective
continues it; if no tail is allowed, it is all of the text. -/
def Heads (tail : Tail) (text : List Char) (f : Formula) (n : Nat) : Prop :=
  ∃ rest, Leads f n (Lexeme.ofText text) rest ∧ (tail = .reject → rest = [])

theorem parse_eq_ok_iff :
    (parse limits text).outcome = .ok f ↔
      ∃ n, n ≤ limits.maxDepth ∧ Heads limits.tail text f n := by
  rw [parse_eq_ok_iff_halt]
  constructor
  · rintro ⟨hok, htail⟩
    obtain ⟨n, hleads, hn⟩ := leads_of_run (Nat.zero_le limits.maxDepth) hok
    exact ⟨n, by omega, _, hleads, htail⟩
  · rintro ⟨n, hn, rest, hleads, htail⟩
    have hroom : 0 + n ≤ limits.maxDepth := by omega
    obtain ⟨r, hrun⟩ := hleads.run_eq hroom text.length
    rw [halt, hrun]
    exact ⟨rfl, htail⟩

theorem Heads.parse_tooDeep {tail : Tail} (h : Heads tail text f n) (limits : Limits)
    (hn : limits.maxDepth < n) :
    ∃ pos, (parse limits text).outcome = .error (.tooDeep pos limits.maxDepth) := by
  obtain ⟨rest, hleads, -⟩ := h
  obtain ⟨pos, hpos⟩ :=
    hleads.run_tooDeep (Nat.zero_le limits.maxDepth) (by omega) text.length
  exact ⟨pos, parse_eq_error_of_halt hpos⟩

theorem significant_eq_map_symbol (text : List Char) :
    significant text = (Lexeme.ofText text).map Lexeme.symbol :=
  (Lexeme.map_symbol_ofText text).symm

theorem heads_of_writes (h : Writes (significant text) f n) (tail : Tail) :
    Heads tail text f n := by
  rw [significant_eq_map_symbol] at h
  exact ⟨[], ⟨Lexeme.ofText text, (List.append_nil _).symm, h, nofun⟩, fun _ => rfl⟩

theorem heads_reject_iff : Heads .reject text f n ↔ Writes (significant text) f n := by
  constructor
  · rintro ⟨rest, ⟨us, hus, hw, -⟩, hrest⟩
    obtain rfl := hrest rfl
    rw [List.append_nil] at hus
    rwa [significant_eq_map_symbol, hus]
  · exact fun h => heads_of_writes h .reject

theorem exists_writes_of_parse (h : (parse limits text).outcome = .ok f) :
    ∃ u v n, significant text = u ++ v ∧ Writes u f n ∧ n ≤ limits.maxDepth := by
  obtain ⟨n, hn, rest, ⟨us, hus, hf, -⟩, -⟩ := parse_eq_ok_iff.mp h
  refine ⟨us.map Lexeme.symbol, rest.map Lexeme.symbol, n, ?_, hf, hn⟩
  rw [significant_eq_map_symbol, hus, List.map_append]

/-! ## The characters of a phrase -/

theorem Derives.ne_nil (h : Derives p w f n) : w ≠ [] := by
  induction h with
  | letter _ => simp
  | negation _ _ => simp
  | group _ _ => simp
  | single _ ih => exact ih
  | link c _ _ _ _ => simp

theorem Writes.ne_nil (h : Writes w f n) : w ≠ [] := by
  obtain ⟨k, hf⟩ := h
  exact hf.ne_nil

theorem Derives.isLetter_of_mem_vars (h : Derives p w f n) :
    ∀ x ∈ f.vars, isLetter x = true := by
  induction h with
  | letter hx =>
      intro y hy
      obtain rfl := List.mem_singleton.mp hy
      exact hx
  | negation _ ih => exact ih
  | group _ ih => exact ih
  | single _ ih => exact ih
  | link c _ _ ihl ihr =>
      intro x hx
      rcases List.mem_append.mp hx with hl | hr
      · exact ihl x hl
      · exact ihr x hr

theorem isLetter_of_parse (h : (parse limits text).outcome = .ok f) :
    ∀ x ∈ f.vars, isLetter x = true := by
  obtain ⟨u, v, n, -, ⟨k, hf⟩, -⟩ := exists_writes_of_parse h
  exact hf.isLetter_of_mem_vars

/-! ## One reading for each text -/

theorem Derives.space_not_mem {p : Phrase} (h : Derives p w f n) : ' ' ∉ w := by
  induction h with
  | @letter x hx =>
      intro hmem
      obtain rfl := List.mem_singleton.mp hmem
      exact absurd hx (by decide)
  | negation _ ih => simpa using ih
  | group _ ih => simpa using ih
  | single _ ih => exact ih
  | link c _ _ ihl ihr =>
      have hc : ' ' ≠ c.symbol := by cases c <;> decide
      simp [ihl, ihr, hc]

theorem Writes.significant_eq (h : Writes w f n) : significant w = w := by
  obtain ⟨k, hf⟩ := h
  refine List.filter_eq_self.mpr fun x hx => decide_eq_true ?_
  rintro rfl
  exact hf.space_not_mem hx

theorem Writes.heads (h : Writes w f n) (tail : Tail) : Heads tail w f n := by
  rw [← h.significant_eq] at h
  exact heads_of_writes h tail

theorem Writes.parse_eq (h : Writes w f n) (limits : Limits) (hn : n ≤ limits.maxDepth) :
    (parse limits w).outcome = .ok f :=
  parse_eq_ok_iff.mpr ⟨n, hn, h.heads limits.tail⟩

/-- The cheaper of two derivations is read within its own cost, and there the other one would
be too deep. -/
theorem Writes.unique (hf : Writes w f m) (hg : Writes w g n) : f = g ∧ m = n := by
  have key : ∀ {f g : Formula} {m n : Nat}, Writes w f m → Writes w g n → n ≤ m := by
    intro f g m n hf hg
    rcases Nat.lt_or_ge m n with hlt | hge
    · have hok := hf.parse_eq { maxDepth := m } (Nat.le_refl m)
      obtain ⟨pos, hpos⟩ := (hg.heads .reject).parse_tooDeep { maxDepth := m } hlt
      cases hok.symm.trans hpos
    · exact hge
  obtain rfl := Nat.le_antisymm (key hg hf) (key hf hg)
  have hok := hf.parse_eq { maxDepth := m } (Nat.le_refl m)
  exact ⟨Except.ok.inj (hok.symm.trans (hg.parse_eq _ (Nat.le_refl m))), rfl⟩

/-- **The parser accepts exactly the grammar.** Without a tail, a formula comes out exactly
when the text without its spaces derives it at a cost within the limit; and no
sequence of characters derives two formulas. -/
theorem parse_reject_eq_ok_iff_writes (limits : Limits) (text : List Char) :
    (∀ f, (parse { limits with tail := .reject } text).outcome = .ok f ↔
        ∃ n, n ≤ limits.maxDepth ∧ Writes (significant text) f n)
      ∧ ∀ w f g m n, Writes w f m → Writes w g n → f = g ∧ m = n := by
  refine ⟨fun f => ?_, fun w f g m n hf hg => hf.unique hg⟩
  rw [parse_eq_ok_iff]
  exact exists_congr fun n => and_congr_right fun _ => heads_reject_iff

end Formula

end TruthTable
