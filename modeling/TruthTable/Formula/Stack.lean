import TruthTable.Formula.Basic

/-!
# Building formulas on a stack

A stack of formulas, worked on from its top: a variable or a whole formula is put on
it, a negation changes the top one, and a connective takes the right operand and then
the left one. A command that needs more formulas than there are has no result.
-/

namespace TruthTable.Formula

/-- One move on a stack of formulas. -/
inductive Command where
  | push (f : Formula)
  | negate
  | join (c : Connective)
  | duplicate
  | drop
  | swap
deriving DecidableEq, Repr

namespace Command

/-- The stack after a command, top first. -/
def run : Command → List Formula → Option (List Formula)
  | push f, stack => some (f :: stack)
  | negate, f :: stack => some (neg f :: stack)
  | join c, r :: l :: stack => some (binary c l r :: stack)
  | duplicate, f :: stack => some (f :: f :: stack)
  | drop, _ :: stack => some stack
  | swap, f :: g :: stack => some (g :: f :: stack)
  | _, _ => none

def runAll (cs : List Command) (stack : List Formula) : Option (List Formula) :=
  cs.foldlM (fun stack c => c.run stack) stack

end Command

end TruthTable.Formula
