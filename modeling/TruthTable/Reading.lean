import TruthTable.Fault
import TruthTable.Formula.Basic
import TruthTable.Lexeme

/-!
# Reading a formula, one lexeme at a time

The reader keeps what it has understood so far in a `Reading`: whether an operand or
a connective comes next, and, for each parenthesis still open, the `Slot` that the
group will fill. A lexeme either leads to the next reading, or shows that the formula
ended before it, or is a fault.

The depth counter goes up at every parenthesis, negation and connective, and a reading
never lets it pass the limit. It comes down again as the parts end: by one when the
negated operand or the group is complete, and by the number of its connectives at the
end of a chain. `Reading.released` lets go of everything still held when the reader
stops, whatever made it stop.
-/

namespace TruthTable

open Formula

/-- A place where an operand is missing: the chain to the left of it with the
connective after that chain, the number of connectives in the chain so far, and the
negations already read. -/
structure Slot where
  left : Option (Formula × Connective)
  links : Nat
  negations : Nat
deriving DecidableEq, Repr

namespace Slot

/-- The first operand of a chain, with nothing read yet. -/
def first : Slot := ⟨none, 0, 0⟩

/-- The operand after a connective: the `links`-th one of its chain. -/
def after (left : Formula) (c : Connective) (links : Nat) : Slot := ⟨some (left, c), links, 0⟩

/-- One more negation before the operand. -/
def negated (s : Slot) : Slot := { s with negations := s.negations + 1 }

/-- The chain once its missing operand is there. -/
def fill (s : Slot) (f : Formula) : Formula :=
  match s.left with
  | none => negate s.negations f
  | some (l, c) => binary c l (negate s.negations f)

def levels (s : Slot) : Nat := s.links + s.negations

theorem fill_negated (s : Slot) (f : Formula) : s.negated.fill f = s.fill (neg f) := by
  obtain ⟨_ | ⟨l, c⟩, links, negations⟩ := s
  · exact (negate_neg negations f).symm
  · exact congrArg (binary c l) (negate_neg negations f).symm

@[simp] theorem links_negated (s : Slot) : s.negated.links = s.links := rfl

@[simp] theorem negations_negated (s : Slot) : s.negated.negations = s.negations + 1 := rfl

@[simp] theorem levels_negated (s : Slot) : s.negated.levels = s.levels + 1 := rfl

end Slot

inductive Phase where
  /-- An operand has to come. -/
  | operand (slot : Slot)
  /-- A chain with so many connectives is complete; it may go on. -/
  | connective (chain : Formula) (links : Nat)
deriving DecidableEq, Repr

/-- What has been understood of a formula: what may come next, the slots of the groups
still open, innermost first, and the depth counter. -/
structure Reading where
  phase : Phase
  outer : List Slot
  depth : Nat
deriving DecidableEq, Repr

namespace Reading

def start (depth : Nat) : Reading := ⟨.operand .first, [], depth⟩

/-- What a lexeme brings about. -/
inductive Step where
  /-- The lexeme belongs to the formula. -/
  | next (r : Reading)
  /-- The formula was complete before the lexeme. -/
  | complete (f : Formula)
  /-- The lexeme is at fault; it may count as read or not. -/
  | fault (e : ReadFault) (consumed : Bool)
deriving Repr

/-- An operand is complete: its negations end and it takes its place in the chain. -/
def filled (slot : Slot) (outer : List Slot) (depth : Nat) (f : Formula) : Reading where
  phase := .connective (slot.fill f) slot.links
  outer := outer
  depth := depth - slot.negations

theorem filled_negated (slot : Slot) (outer : List Slot) (depth : Nat) (f : Formula) :
    filled slot.negated outer (depth + 1) f = filled slot outer depth (neg f) := by
  simp [filled, Slot.fill_negated]

/-- The effect of a lexeme. Beyond the limit, the sign that opens a group or negates
an operand counts as read, and a connective does not. -/
def step (limit : Nat) (r : Reading) (t : Lexeme) : Step :=
  match r.phase with
  | .operand slot =>
    match t.kind with
    | .opening =>
      if r.depth < limit then
        .next ⟨.operand .first, slot :: r.outer, r.depth + 1⟩
      else .fault (.tooDeep t.pos limit) true
    | .negation =>
      if r.depth < limit then
        .next ⟨.operand slot.negated, r.outer, r.depth + 1⟩
      else .fault (.tooDeep t.pos limit) true
    | .letter => .next (filled slot r.outer r.depth (.var t.symbol))
    | _ => .fault (.operandExpected t.pos t.symbol) true
  | .connective chain links =>
    match t.kind, r.outer with
    | .connective c, outer =>
      if r.depth < limit then
        .next ⟨.operand (.after chain c (links + 1)), outer, r.depth + 1⟩
      else .fault (.tooDeep t.pos limit) false
    | .closing, slot :: outer => .next (filled slot outer (r.depth - links - 1) chain)
    | _, _ :: _ => .fault (.unclosed t.pos (some t.symbol)) true
    | _, [] => .complete chain

/-- What the end of the text makes of a reading; `stop` is the length of the text. -/
def atEnd (stop : Nat) (r : Reading) : Except ReadFault Formula :=
  match r.phase, r.outer with
  | .operand _, _ => .error .unfinished
  | .connective chain _, [] => .ok chain
  | .connective _ _, _ :: _ => .error (.unclosed stop none)

/-- The depth counter after the groups around a chain, innermost first, are left. -/
def leave (depth : Nat) : List Slot → Nat
  | [] => depth
  | slot :: outer => leave (depth - 1 - slot.levels) outer

/-- The depth counter after everything that a reading still holds is let go of. -/
def released (r : Reading) : Nat :=
  match r.phase with
  | .operand slot => leave (r.depth - slot.levels) r.outer
  | .connective _ links => leave (r.depth - links) r.outer

/-- Where the reader stopped: with what outcome, before which lexemes, and in which
reading. -/
structure Halt where
  outcome : Except ReadFault Formula
  rest : List Lexeme
  last : Reading

def run (limit stop : Nat) (r : Reading) : List Lexeme → Halt
  | [] => ⟨r.atEnd stop, [], r⟩
  | t :: ts =>
    match r.step limit t with
    | .next r' => run limit stop r' ts
    | .complete f => ⟨.ok f, t :: ts, r⟩
    | .fault e consumed => ⟨.error e, if consumed then ts else t :: ts, r⟩

end Reading

end TruthTable
