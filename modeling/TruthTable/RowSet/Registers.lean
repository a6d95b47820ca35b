import TruthTable.RowSet.Members

/-!
# Named sets

A bank of sets under names, changed by commands one at a time. A name that was never
written holds the empty set. Commands and questions name the set they are about first
and may take a second one by name. A command only replies when it can fail to change
anything: an insertion tells whether the number was new.

The bank is a list with one entry for each name written so far. A set is computed when
it is written, so a command costs the same however long the history before it. `get`
is all that is ever seen of a bank, and `get_write_same` and `get_write_of_ne` say what
writing does to it.
-/

namespace TruthTable.RowSet

/-- The sets written so far, by name. -/
structure Registers where
  entries : List (String × RowSet)
deriving DecidableEq, Repr

/-- A change of the set named `target`. -/
inductive Command where
  | clear (target : String)
  | assign (target : String) (ids : List Nat)
  | fill (target : String) (size : Nat)
  | extend (target : String) (ids : List Nat)
  | insert (target : String) (id : Nat)
  | copy (target source : String)
  | complement (target source : String) (size : Nat)
  | unite (target other : String)
  | intersect (target other : String)
  | subtract (target other : String)
deriving DecidableEq, Repr

def Command.target : Command → String
  | clear a | assign a _ | fill a _ | extend a _ | insert a _ | copy a _ | complement a _ _
  | unite a _ | intersect a _ | subtract a _ => a

inductive Question where
  | contains (target : String) (id : Nat)
  | card (target : String)
  | isEmpty (target : String)
  | isSubset (target other : String)
  | isDisjoint (target other : String)
  | isEqual (target other : String)
deriving DecidableEq, Repr

inductive Reply where
  | done
  | verdict (b : Bool)
  | count (n : Nat)
deriving DecidableEq, Repr

namespace Registers

def blank : Registers := ⟨[]⟩

def get (bank : Registers) (name : String) : RowSet := (bank.entries.lookup name).getD ∅

/-- The entries with another set under one name, in its place if the name has one. -/
def put (name : String) (s : RowSet) : List (String × RowSet) → List (String × RowSet)
  | [] => [(name, s)]
  | (other, t) :: rest =>
    if name = other then (name, s) :: rest else (other, t) :: put name s rest

/-- The bank with another set under one name. -/
def write (bank : Registers) (name : String) (s : RowSet) : Registers :=
  ⟨put name s bank.entries⟩

/-- The set that a command puts under its target. -/
def result (bank : Registers) : Command → RowSet
  | .clear _ => ∅
  | .assign _ ids => ofList ids
  | .fill _ size => full size
  | .extend a ids => (bank.get a).insertAll ids
  | .insert a id => Insert.insert id (bank.get a)
  | .copy _ b => bank.get b
  | .complement _ b size => (bank.get b).complement size
  | .unite a b => bank.get a ∪ bank.get b
  | .intersect a b => bank.get a ∩ bank.get b
  | .subtract a b => bank.get a \ bank.get b

def run (bank : Registers) (c : Command) : Registers := bank.write c.target (bank.result c)

def runAll (bank : Registers) (cs : List Command) : Registers := cs.foldl run bank

/-- The reply to a command, from the bank before it is carried out. -/
def reply (bank : Registers) : Command → Reply
  | .insert a id => .verdict (id ∉ bank.get a)
  | _ => .done

def ask (bank : Registers) : Question → Reply
  | .contains a id => .verdict (id ∈ bank.get a)
  | .card a => .count (bank.get a).card
  | .isEmpty a => .verdict (bank.get a).isEmpty
  | .isSubset a b => .verdict (bank.get a ⊆ bank.get b)
  | .isDisjoint a b => .verdict ((bank.get a).IsDisjoint (bank.get b))
  | .isEqual a b => .verdict (bank.get a = bank.get b)

theorem lookup_put_same (name : String) (s : RowSet) :
    ∀ entries, (put name s entries).lookup name = some s
  | [] => by simp [put]
  | (other, t) :: rest => by
      rw [put]
      split
      · simp
      · next h =>
        rw [List.lookup_cons, beq_false_of_ne h]
        exact lookup_put_same name s rest

theorem lookup_put_of_ne {name other : String} (h : other ≠ name) (s : RowSet) :
    ∀ entries, (put name s entries).lookup other = entries.lookup other
  | [] => by
      rw [put, List.lookup_cons, beq_false_of_ne h]
  | (third, t) :: rest => by
      rw [put]
      split
      · next heq =>
        subst heq
        simp only [List.lookup_cons, beq_false_of_ne h]
      · simp only [List.lookup_cons, lookup_put_of_ne h s rest]

@[simp] theorem get_write_same (bank : Registers) (name : String) (s : RowSet) :
    (bank.write name s).get name = s := by
  simp [get, write, lookup_put_same]

theorem get_write_of_ne (bank : Registers) {name other : String} (h : other ≠ name)
    (s : RowSet) : (bank.write name s).get other = bank.get other := by
  simp [get, write, lookup_put_of_ne h]

end Registers

end TruthTable.RowSet
