/-!
# Formulas

A propositional formula over variables named by single characters, with negation and three
connectives: conjunction, disjunction and difference (the left one without the right one).
The connectives bind equally strongly and group to the left, so none carries a priority of
its own; `Connective.apply` is its truth table and `Connective.symbol` the one character
that writes it.

The measures of a formula (`size`, `height`, its variables from left to right) and its truth
under a valuation are all read off the tree. A valuation gives every character a value, so
`holds` never fails, and it is the meaning that every other way of evaluating a formula is
compared with.

`Formula.text` is the usual notation. The left operand of a connective stands bare, and only
a right operand or a negated formula that is itself binary gets parentheses.
`Formula.nesting` says how deep this notation goes when it is read: negations and
parentheses add a level, and so does every further connective of a chain for the operands to
its right. `Formula.reversePolish` writes operands before their sign and needs no
parentheses.
-/

namespace TruthTable

/-! ## Connectives -/

inductive Connective where
  | and
  | or
  | difference
deriving DecidableEq, Repr

namespace Connective

def symbol : Connective → Char
  | and => '&'
  | or => '|'
  | difference => '\\'

/-- The connective that a character writes, if it writes one. -/
def ofSymbol? : Char → Option Connective
  | '&' => some and
  | '|' => some or
  | '\\' => some difference
  | _ => none

def apply : Connective → Bool → Bool → Bool
  | and, l, r => l && r
  | or, l, r => l || r
  | difference, l, r => l && !r

@[simp] theorem ofSymbol?_symbol (c : Connective) : ofSymbol? c.symbol = some c := by
  cases c <;> rfl

/-- A character writes at most one connective, and only by its own symbol. -/
theorem ofSymbol?_eq_some_iff {x : Char} {c : Connective} :
    ofSymbol? x = some c ↔ x = c.symbol := by
  constructor
  · intro h
    unfold ofSymbol? at h
    split at h <;> simp_all [symbol] <;> subst h <;> rfl
  · rintro rfl
    exact ofSymbol?_symbol c

end Connective

/-! ## Measures and truth -/

inductive Formula where
  | var (name : Char)
  | neg (body : Formula)
  | binary (c : Connective) (left right : Formula)
deriving DecidableEq, Repr

namespace Formula

/-- The number of variables, negations and connectives written. -/
def size : Formula → Nat
  | var _ => 1
  | neg f => 1 + f.size
  | binary _ l r => 1 + l.size + r.size

/-- The largest number of negations and connectives above a variable. -/
def height : Formula → Nat
  | var _ => 0
  | neg f => 1 + f.height
  | binary _ l r => 1 + max l.height r.height

/-- The variables from left to right, each as often as it is written. -/
def vars : Formula → List Char
  | var x => [x]
  | neg f => f.vars
  | binary _ l r => l.vars ++ r.vars

/-- Truth under a valuation of the variables. -/
def holds (v : Char → Bool) : Formula → Bool
  | var x => v x
  | neg f => !f.holds v
  | binary c l r => c.apply (l.holds v) (r.holds v)

def negate : Nat → Formula → Formula
  | 0, f => f
  | n + 1, f => neg (negate n f)

def isBinary : Formula → Bool
  | binary _ _ _ => true
  | _ => false

theorem negate_neg (n : Nat) (f : Formula) : negate n (neg f) = negate (n + 1) f := by
  induction n with
  | zero => rfl
  | succ n ih => exact congrArg neg ih

/-- Only the values of the variables that are written matter. -/
theorem holds_congr {v w : Char → Bool} {f : Formula} (h : ∀ x ∈ f.vars, v x = w x) :
    f.holds v = f.holds w := by
  induction f with
  | var x => exact h x (by simp [vars])
  | neg f ih => simp only [holds, ih h]
  | binary c l r ihl ihr =>
      simp only [vars, List.mem_append] at h
      simp only [holds, ihl fun x hx => h x (.inl hx), ihr fun x hx => h x (.inr hx)]

/-! ## Notation -/

/-- The notation `written` of `f`, made fit to stand as a single operand. -/
def enclose (f : Formula) (written : List Char) : List Char :=
  if f.isBinary then '(' :: written ++ [')'] else written

/-- The usual notation. -/
def text : Formula → List Char
  | var x => [x]
  | neg f => '!' :: f.enclose f.text
  | binary c l r => l.text ++ c.symbol :: r.enclose r.text

def reversePolish : Formula → List Char
  | var x => [x]
  | neg f => f.reversePolish ++ ['!']
  | binary c l r => l.reversePolish ++ r.reversePolish ++ [c.symbol]

/-- The number of connectives down the left side of a formula: the links of the
chain that its notation is. -/
def links : Formula → Nat
  | binary _ l _ => l.links + 1
  | _ => 0

/-- The depth of the usual notation. Parentheses around `f` add a level to its depth. -/
def nesting : Formula → Nat
  | var _ => 0
  | neg f => 1 + (f.nesting + f.isBinary.toNat)
  | binary _ l r => max l.nesting (l.links + 1 + (r.nesting + r.isBinary.toNat))

end Formula

end TruthTable
