/-!
# Faults

What can go wrong, by cause. A `ReadFault` is about a text that is not a formula and
carries positions in that text, counted in characters with the spaces; a `Fault` is
anything that stops an evaluation, a misread text included. The wording of each is
given once, by `message`.
-/

namespace TruthTable

/-- Why a text could not be read as a formula. -/
inductive ReadFault where
  /-- The text ends where an operand has to stand. -/
  | unfinished
  /-- Something else stands where an operand has to. -/
  | operandExpected (pos : Nat) (found : Char)
  /-- A parenthesis is still open where its group has to end: at another character,
  or at the end of the text. -/
  | unclosed (pos : Nat) (found : Option Char)
  /-- A formula is complete and more text follows. -/
  | trailing (pos : Nat) (found : Char)
  /-- Groups, negations and connectives nest beyond the limit. -/
  | tooDeep (pos limit : Nat)
deriving DecidableEq, Repr

namespace ReadFault

def message : ReadFault → String
  | unfinished => "Unexpected end of expression"
  | operandExpected pos found => s!"Expected literal at position {pos}, found '{found}'"
  | unclosed pos none => s!"Expected ')' at position {pos}"
  | unclosed pos (some found) => s!"Expected ')' at position {pos}, found '{found}'"
  | trailing pos found =>
      s!"Unexpected '{found}' at position {pos} after the end of the expression"
  | tooDeep pos limit => s!"Expression nested too deeply at position {pos} (limit is {limit})"

/-- The place in the text that a fault points at, if it points at one. -/
def pos? : ReadFault → Option Nat
  | unfinished => none
  | operandExpected pos _ => some pos
  | unclosed pos _ => some pos
  | trailing pos _ => some pos
  | tooDeep pos _ => some pos

theorem pos?_eq_none_iff {e : ReadFault} : e.pos? = none ↔ e = unfinished := by
  cases e <;> simp [pos?]

end ReadFault

/-- Why a formula could not be evaluated. -/
inductive Fault where
  | misread (fault : ReadFault)
  | undefined (name : Char)
  | tooMany (count limit : Nat)
  | invalidName (piece : List Char)
  | duplicate (name : Char)
deriving DecidableEq, Repr

namespace Fault

def message : Fault → String
  | misread fault => fault.message
  | undefined name => s!"Variable '{name}' is not part of the operand list"
  | tooMany count limit => s!"Too many operands: {count} (limit is {limit})"
  | invalidName piece =>
      let name := String.ofList piece
      s!"The operand '{name}' is invalid"
  | duplicate name => s!"The operand '{name}' is declared twice"

end Fault

end TruthTable
