import Mathlib.Logic.Function.Basic
import TruthTable.Proofs.FiniteSets
import TruthTable.Proofs.Runs
import TruthTable.RowSet.Registers

/-!
# What named sets hold after any history

The commands of a bank of named sets are read here a second time, as changes of finite sets
under names (`Command.act`). A bank holds such a family when under each name it has the set
with these members. One command keeps that: what it puts under its target has the members
that it should, and the other names are left alone (`Registers.Holds.run`). So it is kept by
any number of commands, and since a bank at the beginning holds empty sets only, what it
holds after a history is known (`Registers.holds_runAll`).

With that nothing is left of the history but the members. All that a bank says is an answer
about them (`Registers.Holds.reply_eq`, `Registers.Holds.ask_eq`), two sets that came about
in different ways are equal if their members are the same, and the text of a set tells its
members: a number in decimal has no comma and no space in it, so the runs of the text
between those are the numbers (`text_inj`).
-/

namespace TruthTable.RowSet

variable {a b : RowSet}

/-! ## The text of a set -/

theorem toDigits_injective : Function.Injective (Nat.toDigits 10) := by
  intro m n h
  calc
    m = Nat.ofDigitChars 10 (Nat.toDigits 10 m) 0 := Nat.ofDigitChars_ten_toDigits.symm
    _ = Nat.ofDigitChars 10 (Nat.toDigits 10 n) 0 := by rw [h]
    _ = n := Nat.ofDigitChars_ten_toDigits

/-- What stands between the members of a set in its text. -/
def isBetween (c : Char) : Bool := c = ',' || c = ' '

theorem isBetween_of_isDigit {c : Char} (hc : c.isDigit = true) : isBetween c = false := by
  cases hbetween : isBetween c with
  | false => rfl
  | true =>
      simp only [isBetween, Bool.or_eq_true, decide_eq_true_eq] at hbetween
      rcases hbetween with rfl | rfl <;> cases hc

theorem cutsInto_members (s : RowSet) :
    CutsInto isBetween (List.intercalate [',', ' '] (s.toList.map (Nat.toDigits 10)))
      (s.toList.map (Nat.toDigits 10)) := by
  refine cutsInto_intercalate (by simp [isBetween]) (by simp) fun w hw => ?_
  obtain ⟨i, -, rfl⟩ := List.mem_map.mp hw
  refine ⟨Nat.toDigits_ne_nil, fun c hc => isBetween_of_isDigit ?_⟩
  exact Nat.isDigit_of_mem_toDigits (by decide) (by decide) hc

theorem text_inj : a.text = b.text ↔ a = b := by
  refine ⟨fun htext => ?_, congrArg text⟩
  -- Without the braces the two texts are one text, which has only one list of runs.
  have hbetween := List.append_cancel_right (List.cons.inj htext).2
  have hdigits := (cutsInto_members a).unique (hbetween ▸ cutsInto_members b)
  have hlist : a.toList = b.toList := List.map_injective_iff.mpr toDigits_injective hdigits
  exact members_inj.mp (congrArg List.toFinset hlist)

/-! ## The same commands on finite sets -/

/-- The finite set that a command puts under its target. -/
def Command.value (env : String → Finset Nat) : Command → Finset Nat
  | clear _ => ∅
  | assign _ ids => ids.toFinset
  | fill _ size => Finset.range size
  | extend a ids => ids.toFinset ∪ env a
  | insert a id => Insert.insert id (env a)
  | copy _ b => env b
  | complement _ b size => Finset.range size \ env b
  | unite a b => env a ∪ env b
  | intersect a b => env a ∩ env b
  | subtract a b => env a \ env b

def Command.act (env : String → Finset Nat) (c : Command) : String → Finset Nat :=
  Function.update env c.target (c.value env)

/-- What is under each name after a history. -/
def membersAfter (cs : List Command) : String → Finset Nat := cs.foldl Command.act fun _ => ∅

def Command.answer (env : String → Finset Nat) : Command → Reply
  | insert a id => .verdict (id ∉ env a)
  | _ => .done

def Question.answer (env : String → Finset Nat) : Question → Reply
  | contains a id => .verdict (id ∈ env a)
  | card a => .count (env a).card
  | isEmpty a => .verdict (env a = ∅)
  | isSubset a b => .verdict (env a ⊆ env b)
  | isDisjoint a b => .verdict (Disjoint (env a) (env b))
  | isEqual a b => .verdict (env a = env b)

namespace Registers

variable {bank : Registers} {env : String → Finset Nat}

/-- A bank has under each name the set with the given members. -/
def Holds (bank : Registers) (env : String → Finset Nat) : Prop :=
  ∀ name, (bank.get name).members = env name

theorem holds_blank : blank.Holds fun _ => ∅ := fun _ => members_empty

namespace Holds

theorem mem_iff (h : bank.Holds env) {name : String} {id : Nat} :
    id ∈ bank.get name ↔ id ∈ env name := by
  rw [← h name, mem_members]

theorem members_result (h : bank.Holds env) (c : Command) :
    (bank.result c).members = c.value env := by
  cases c <;> simp [result, Command.value, h _]

theorem run (h : bank.Holds env) (c : Command) : (bank.run c).Holds (c.act env) := by
  intro name
  -- The bank before the command gives the value, so a target may be its own source.
  by_cases hname : name = c.target
  · subst hname
    rw [Registers.run, get_write_same, Command.act, Function.update_self, h.members_result]
  · rw [Registers.run, get_write_of_ne _ hname, Command.act, Function.update_of_ne hname,
      h name]

theorem runAll (h : bank.Holds env) (cs : List Command) :
    (bank.runAll cs).Holds (cs.foldl Command.act env) := by
  induction cs generalizing bank env with
  | nil => exact h
  | cons c cs ih => exact ih (h.run c)

theorem reply_eq (h : bank.Holds env) (c : Command) : bank.reply c = c.answer env := by
  cases c with
  | insert a id => simp only [reply, Command.answer, h.mem_iff]
  | _ => rfl

theorem ask_eq (h : bank.Holds env) (q : Question) : bank.ask q = q.answer env := by
  cases q with
  | contains a id => simp only [ask, Question.answer, h.mem_iff]
  | card a => rw [ask, Question.answer, ← h a, card_members]
  | isEmpty a =>
      have hempty : (bank.get a).isEmpty = decide (env a = ∅) := by
        rw [Bool.eq_iff_iff, isEmpty_iff, decide_eq_true_iff, ← members_inj, members_empty,
          h a]
      rw [ask, Question.answer, hempty]
  | isSubset a b => simp only [ask, Question.answer, ← h _, members_subset_iff]
  | isDisjoint a b => simp only [ask, Question.answer, ← h _, disjoint_members_iff]
  | isEqual a b => simp only [ask, Question.answer, ← h _, members_inj]

end Holds

theorem holds_runAll (cs : List Command) : (blank.runAll cs).Holds (membersAfter cs) :=
  holds_blank.runAll cs

theorem get_eq_iff {cs cs' : List Command} {name name' : String} :
    (blank.runAll cs).get name = (blank.runAll cs').get name' ↔
      ∀ id, id ∈ membersAfter cs name ↔ id ∈ membersAfter cs' name' := by
  rw [ext_iff]
  simp only [(holds_runAll _).mem_iff]

theorem ask_isSubset_iff (bank : Registers) (a b : String) :
    bank.ask (.isSubset a b) = .verdict true ↔
      ∀ id, bank.ask (.contains a id) = .verdict true →
        bank.ask (.contains b id) = .verdict true := by
  simp only [ask, Reply.verdict.injEq, decide_eq_true_iff]
  rfl

theorem ask_isDisjoint_iff (bank : Registers) (a b : String) :
    bank.ask (.isDisjoint a b) = .verdict true ↔
      ∀ id, bank.ask (.contains a id) = .verdict true →
        bank.ask (.contains b id) = .verdict false := by
  simp only [ask, Reply.verdict.injEq, decide_eq_true_iff, decide_eq_false_iff_not]
  rfl

/-- **A named set is its members, whatever its history.** After any commands each name has
the members that the same commands give to finite sets, and an insertion tells whether the
number is not among them. They are listed in increasing order, each once, and counted; every
question is answered about them, and whether one set is part of another or has nothing in
common with it agrees with what is contained in the two. Sets of any two histories are
equal, and have the same text, exactly if their members are the same. -/
theorem sets_are_their_members (cs : List Command) :
    (∀ name id, id ∈ (blank.runAll cs).get name ↔ id ∈ membersAfter cs name)
      ∧ (∀ name id, (blank.runAll cs).reply (.insert name id) =
          .verdict (id ∉ membersAfter cs name))
      ∧ (∀ name, ((blank.runAll cs).get name).toList.Pairwise (· < ·)
          ∧ (∀ id, id ∈ ((blank.runAll cs).get name).toList ↔ id ∈ membersAfter cs name)
          ∧ ((blank.runAll cs).get name).card = (membersAfter cs name).card)
      ∧ (∀ q, (blank.runAll cs).ask q = q.answer (membersAfter cs))
      ∧ (∀ a b, ((blank.runAll cs).ask (.isSubset a b) = .verdict true ↔
            ∀ id, (blank.runAll cs).ask (.contains a id) = .verdict true →
              (blank.runAll cs).ask (.contains b id) = .verdict true)
          ∧ ((blank.runAll cs).ask (.isDisjoint a b) = .verdict true ↔
            ∀ id, (blank.runAll cs).ask (.contains a id) = .verdict true →
              (blank.runAll cs).ask (.contains b id) = .verdict false))
      ∧ ∀ cs' name name',
          ((blank.runAll cs).get name = (blank.runAll cs').get name' ↔
            ∀ id, id ∈ membersAfter cs name ↔ id ∈ membersAfter cs' name')
          ∧ (((blank.runAll cs).get name).text = ((blank.runAll cs').get name').text ↔
            ∀ id, id ∈ membersAfter cs name ↔ id ∈ membersAfter cs' name') := by
  have h := holds_runAll cs
  refine ⟨fun name id => h.mem_iff, fun name id => h.reply_eq _, fun name => ?_, h.ask_eq,
    fun a b => ⟨ask_isSubset_iff _ a b, ask_isDisjoint_iff _ a b⟩, fun cs' name name' => ?_⟩
  · refine ⟨pairwise_toList _, fun id => ?_, ?_⟩
    · rw [mem_toList, h.mem_iff]
    · rw [← card_members, h name]
  · exact ⟨get_eq_iff, text_inj.trans get_eq_iff⟩

/-- Of a large member that was taken out again nothing is left. -/
example :
    (blank.runAll [.assign "a" [7, 300], .assign "b" [300], .subtract "a" "b"]).get "a" =
      (blank.runAll [.insert "c" 7]).get "c" := by
  decide

end Registers

end TruthTable.RowSet
