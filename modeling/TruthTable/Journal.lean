import TruthTable.Header.Basic

/-!
# Journals

Reading and evaluating leave notes on the way: what was dropped, what was read, which
columns the table has, how many rows. A `Logged` result is an outcome together with
the notes made before it came out, in order. Notes made before a fault stay, so they
tell how far a failed evaluation went.
-/

namespace TruthTable

inductive Level where
  | warn
  | debug
  | trace
deriving DecidableEq, Repr

/-- A remark made on the way to a result. -/
inductive Note where
  | ignoredTail (pos : Nat)
  | read (text : List Char) (formula : Formula)
  | columns (header : Header)
  | rows (count : Nat)
deriving DecidableEq, Repr

namespace Note

/-- Dropped input is worth a warning; the rest is for those who follow the work. -/
def level : Note → Level
  | ignoredTail _ => .warn
  | read _ _ => .trace
  | columns _ => .debug
  | rows _ => .trace

def message : Note → String
  | ignoredTail pos => s!"Ignoring trailing input from position {pos}"
  | read text formula =>
      let input := String.ofList text
      let meaning := String.ofList formula.text
      s!"Parsed '{input}' as {meaning}"
  | columns header =>
      let names := String.ofList header.text
      s!"Operands: {names}"
  | rows count => s!"Universe of {count} assignments"

end Note

/-- An outcome and the notes made before it. -/
structure Logged (ε α : Type) where
  outcome : Except ε α
  notes : List Note

namespace Logged

variable {ε ε' α β : Type}

/-- An outcome that came out without a note. -/
def ofExcept (x : Except ε α) : Logged ε α := ⟨x, []⟩

def note (n : Note) : Logged ε Unit := ⟨.ok (), [n]⟩

/-- Go on with a value; a fault ends the work, and the notes made so far stay. -/
def bind (x : Logged ε α) (f : α → Logged ε β) : Logged ε β :=
  match x.outcome with
  | .error e => ⟨.error e, x.notes⟩
  | .ok a => ⟨(f a).outcome, x.notes ++ (f a).notes⟩

instance : Monad (Logged ε) where
  pure a := ⟨.ok a, []⟩
  bind := bind

/-- The same outcome with its fault seen as another kind of fault. -/
def mapError (g : ε → ε') (x : Logged ε α) : Logged ε' α := ⟨x.outcome.mapError g, x.notes⟩

@[simp] theorem outcome_pure (a : α) : (pure a : Logged ε α).outcome = .ok a := rfl

@[simp] theorem outcome_ofExcept (x : Except ε α) : (ofExcept x).outcome = x := rfl

/-- The outcome of a sequence does not depend on the notes. -/
@[simp] theorem outcome_bind (x : Logged ε α) (f : α → Logged ε β) :
    (x >>= f).outcome = x.outcome >>= fun a => (f a).outcome := by
  obtain ⟨o, ns⟩ := x
  cases o <;> rfl

theorem notes_bind_ok {x : Logged ε α} {a : α} (h : x.outcome = .ok a) (f : α → Logged ε β) :
    (x >>= f).notes = x.notes ++ (f a).notes := by
  obtain ⟨o, ns⟩ := x
  subst h
  rfl

theorem notes_bind_error {x : Logged ε α} {e : ε} (h : x.outcome = .error e)
    (f : α → Logged ε β) : (x >>= f).notes = x.notes := by
  obtain ⟨o, ns⟩ := x
  subst h
  rfl

end Logged

end TruthTable
