import TruthTable.Reading
import TruthTable.Journal

/-!
# Readers

A `Reader` stands somewhere in a text and reads one formula at a time. It may be kept
and asked again after any answer: what a request has read stays read, and after a fault
it goes on behind the place where it stopped. `Formula.parse` asks a fresh reader for
one formula and then for the end of the text.

What a caller may bound beforehand are the `Limits`: how deep the text may nest, how many
variables a table may have, and whether text after a complete formula is an error.
-/

namespace TruthTable

/-- What becomes of the text that follows a complete formula. -/
inductive Tail where
  | reject
  | ignore
deriving DecidableEq, Repr

/-- The bounds of one evaluation. A table of 24 variables has sixteen million rows;
a depth of 512 is more than anyone writes by hand. -/
structure Limits where
  maxVariables : Nat := 24
  maxDepth : Nat := 512
  tail : Tail := .reject
deriving DecidableEq, Repr

/-- A place in a text: the lexemes still to come, the depth counter with its limit,
and the length of the text. -/
structure Reader where
  rest : List Lexeme
  depth : Nat
  limit : Nat
  stop : Nat
deriving DecidableEq, Repr

namespace Reader

def ofText (limit : Nat) (text : List Char) : Reader :=
  ⟨Lexeme.ofText text, 0, limit, text.length⟩

/-- Read a formula. The reader stands behind it afterwards, or behind a fault, and has
left every level that it entered. -/
def formula (r : Reader) : Except ReadFault Formula × Reader :=
  let halt := (Reading.start r.depth).run r.limit r.stop r.rest
  (halt.outcome, { r with rest := halt.rest, depth := halt.last.released })

/-- Ask for the end of the text; more text is a fault or worth a warning. -/
def finish (r : Reader) (tail : Tail) : Logged ReadFault Unit :=
  match r.rest, tail with
  | [], _ => pure ()
  | t :: _, .reject => .ofExcept (.error (.trailing t.pos t.symbol))
  | t :: _, .ignore => .note (.ignoredTail t.pos)

inductive Request where
  | formula
  | finish (tail : Tail)
deriving DecidableEq, Repr

inductive Reply where
  | formula (f : Formula)
  | finished
deriving DecidableEq, Repr

/-- Answer a request. Asking for the end does not move the reader. -/
def answer (r : Reader) : Request → Logged ReadFault Reply × Reader
  | .formula => (.ofExcept (r.formula.1.map .formula), r.formula.2)
  | .finish tail => ((fun _ => .finished) <$> r.finish tail, r)

def answers (r : Reader) : List Request → List (Logged ReadFault Reply) × Reader
  | [] => ([], r)
  | q :: qs =>
    let (reply, r) := r.answer q
    let (replies, r) := r.answers qs
    (reply :: replies, r)

end Reader

/-- Read a text that should be one formula. -/
def Formula.parse (limits : Limits) (text : List Char) : Logged ReadFault Formula := do
  let (outcome, reader) := (Reader.ofText limits.maxDepth text).formula
  let f ← .ofExcept outcome
  reader.finish limits.tail
  .note (.read text f)
  return f

end TruthTable
