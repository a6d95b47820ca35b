import TruthTable.Proofs.Parsing

/-!
# Other names and other places

The reader sorts the characters of a text by kind. Which letter a letter is, and at what
place a character stands, is only carried along: into the formula, and into a fault. So two
texts whose lexemes have the same kinds in the same order are read by the same steps, and
what comes out differs in names and places as the texts do.

A `Relabeling` gives other names to characters, each of the same kind, and other places to
lexemes. It acts on all that the reader holds; one step of the reader commutes with it
(`Effect.relabel`, one case for each rule), hence a run (`run_relabel`) and the reading of a
whole text (`Relabeling.outcome_parse`).
-/

namespace TruthTable

open Formula Reading

/-! ## What a relabeling acts on -/

/-- The formula with other names for its variables. -/
def Formula.rename (name : Char → Char) : Formula → Formula
  | var x => var (name x)
  | neg f => neg (f.rename name)
  | binary c l r => binary c (l.rename name) (r.rename name)

theorem Formula.rename_id (f : Formula) : f.rename id = f := by
  induction f with
  | var x => rfl
  | neg f ih => exact congrArg neg ih
  | binary c l r ihl ihr => rw [rename, ihl, ihr]

/-- The fault with other names and other places. The limit that it mentions is neither. -/
def ReadFault.relabel (name : Char → Char) (place : Nat → Nat) : ReadFault → ReadFault
  | unfinished => unfinished
  | operandExpected pos found => operandExpected (place pos) (name found)
  | unclosed pos found => unclosed (place pos) (found.map name)
  | trailing pos found => trailing (place pos) (name found)
  | tooDeep pos limit => tooDeep (place pos) limit

/-- Other names for the characters, each of the same kind as before, and other places. -/
structure Relabeling where
  name : Char → Char
  place : Nat → Nat
  kind_name : ∀ x, Lexeme.Kind.ofChar (name x) = Lexeme.Kind.ofChar x

namespace Relabeling

variable (m : Relabeling)

def lexeme (t : Lexeme) : Lexeme := ⟨m.place t.pos, m.name t.symbol⟩

def slot (s : Slot) : Slot :=
  { s with left := s.left.map fun (l, c) => (l.rename m.name, c) }

def phase : Phase → Phase
  | .operand s => .operand (m.slot s)
  | .connective f k => .connective (f.rename m.name) k

def reading (r : Reading) : Reading := ⟨m.phase r.phase, r.outer.map m.slot, r.depth⟩

def fault (e : ReadFault) : ReadFault := e.relabel m.name m.place

def outcome : Except ReadFault Formula → Except ReadFault Formula
  | .ok f => .ok (f.rename m.name)
  | .error e => .error (m.fault e)

def step : Step → Step
  | .next r => .next (m.reading r)
  | .complete f => .complete (f.rename m.name)
  | .fault e consumed => .fault (m.fault e) consumed

def halt (h : Halt) : Halt := ⟨m.outcome h.outcome, h.rest.map m.lexeme, m.reading h.last⟩

theorem kind_lexeme (t : Lexeme) : (m.lexeme t).kind = t.kind := m.kind_name t.symbol

end Relabeling

/-! ## One step -/

namespace Formula

theorem rename_negate (name : Char → Char) (n : Nat) (f : Formula) :
    (negate n f).rename name = negate n (f.rename name) := by
  induction n with
  | zero => rfl
  | succ n ih => exact congrArg neg ih

end Formula

namespace Reading

variable {limit stop : Nat} {r r' : Reading} {t : Lexeme} {s : Step} {ts : List Lexeme}
  {halt : Halt}

theorem rename_fill (m : Relabeling) (slot : Slot) (f : Formula) :
    (slot.fill f).rename m.name = (m.slot slot).fill (f.rename m.name) := by
  obtain ⟨_ | ⟨l, c⟩, links, negations⟩ := slot
  · exact rename_negate m.name negations f
  · exact congrArg (binary c (l.rename m.name)) (rename_negate m.name negations f)

theorem relabel_filled (m : Relabeling) (slot : Slot) (outer : List Slot) (d : Nat)
    (f : Formula) :
    m.reading (filled slot outer d f) =
      filled (m.slot slot) (outer.map m.slot) d (f.rename m.name) := by
  simp only [Relabeling.reading, filled, Relabeling.phase, rename_fill]
  rfl

/-- The rule that applies to a lexeme is chosen by its kind and by the depth, and both stay.
-/
theorem Effect.relabel (h : Effect limit r t s) (m : Relabeling) :
    Effect limit (m.reading r) (m.lexeme t) (m.step s) := by
  have hkind := m.kind_lexeme t
  cases h with
  | opening hk hd => exact .opening (hkind.trans hk) hd
  | negation hk hd => exact .negation (hkind.trans hk) hd
  | letter hk =>
      rw [Relabeling.step, relabel_filled]
      exact .letter (hkind.trans hk)
  | connective hk hd => exact .connective (hkind.trans hk) hd
  | closing hk =>
      rw [Relabeling.step, relabel_filled]
      exact .closing (hkind.trans hk)
  | complete hk => exact .complete fun c => hkind ▸ hk c
  | signTooDeep hk hd => exact .signTooDeep (by rwa [hkind]) hd
  | connectiveTooDeep hk hd => exact .connectiveTooDeep (hkind.trans hk) hd
  | operandExpected h₁ h₂ h₃ =>
      exact .operandExpected (by rwa [hkind]) (by rwa [hkind]) (by rwa [hkind])
  | unclosed hc hk => exact .unclosed (fun c => hkind ▸ hc c) (by rwa [hkind])

/-! ## A run -/

theorem Moves.relabel (h : Moves limit r ts r') (m : Relabeling) :
    Moves limit (m.reading r) (ts.map m.lexeme) (m.reading r') := by
  induction h with
  | refl => exact .refl
  | head he _ ih => exact .head (he.relabel m) ih

theorem atEnd_relabel (m : Relabeling) (stop : Nat) (r : Reading) :
    (m.reading r).atEnd (m.place stop) = m.outcome (r.atEnd stop) := by
  obtain ⟨phase, outer, d⟩ := r
  cases phase with
  | operand slot => rfl
  | connective f k => cases outer <;> rfl

theorem Stops.relabel (h : Stops limit stop r ts halt) (m : Relabeling) :
    Stops limit (m.place stop) (m.reading r) (ts.map m.lexeme) (m.halt halt) := by
  cases h with
  | atEnd =>
      rw [Relabeling.halt, ← atEnd_relabel]
      exact .atEnd
  | complete he => exact .complete (he.relabel m)
  | @fault e consumed t ts he =>
      have hstops :
          Stops limit (m.place stop) (m.reading r) (m.lexeme t :: ts.map m.lexeme) _ :=
        .fault (he.relabel m)
      cases consumed with
      | true => exact hstops
      | false => exact hstops

theorem run_relabel (m : Relabeling) (limit stop : Nat) (r : Reading) (ts : List Lexeme) :
    run limit (m.place stop) (m.reading r) (ts.map m.lexeme) =
      m.halt (run limit stop r ts) := by
  obtain ⟨us, vs, r', hts, hmoves, hstops⟩ := run_splits limit stop r ts
  rw [hts, List.map_append, (hmoves.relabel m).run_eq, ← hts]
  exact (hstops.relabel m).run_eq

end Reading

/-! ## A whole text -/

namespace Relabeling

variable {m : Relabeling} {text text' : List Char}

theorem halt_eq (hlexemes : Lexeme.ofText text' = (Lexeme.ofText text).map m.lexeme)
    (hlength : text'.length = m.place text.length) (limits : Limits) :
    Formula.halt limits text' = m.halt (Formula.halt limits text) := by
  rw [Formula.halt, hlexemes, hlength]
  exact run_relabel m limits.maxDepth text.length (start 0) (Lexeme.ofText text)

/-- Texts that differ in names and places only are read as formulas, or refused with faults,
that differ in the same way. -/
theorem outcome_parse (hlexemes : Lexeme.ofText text' = (Lexeme.ofText text).map m.lexeme)
    (hlength : text'.length = m.place text.length) (limits : Limits) :
    (parse limits text').outcome = m.outcome (parse limits text).outcome := by
  rw [Formula.outcome_parse, Formula.outcome_parse, halt_eq hlexemes hlength, halt]
  cases (Formula.halt limits text).outcome with
  | error e => rfl
  | ok f =>
      cases (Formula.halt limits text).rest with
      | nil => cases limits.tail <;> rfl
      | cons t rest => cases limits.tail <;> rfl

end Relabeling

end TruthTable
