import TruthTable.Proofs.Parsing

/-!
# A reader after any history

A reader is kept between requests, and each may end anywhere: behind a formula, in the
middle of groups that are never closed, at a sign that is too deep. Three facts make it a
fresh reader of what is left, whatever happened before.

- It has left every level that it entered (`Understands.released_eq`). The levels held are
  those of the slots of the stack and of the phase, in every reading that the reader comes
  to.
- It only moves on: what is left is an end part of the lexemes of the text
  (`run_rest_suffix`).
- Lexemes carry their positions, so an end part of them is what a text has whose beginning is
  blank (`ofText_blank_of_eq_append`).

What is left, the limit and the length of the text are all that a reader is, so the two
readers are equal, and no request can tell them apart.
-/

namespace TruthTable

open Formula Reading

namespace Reading

variable {limit stop base : Nat} {r : Reading} {w : List Char} {ts : List Lexeme}

/-! ## The depth counter comes back -/

theorem Stacked.leave_eq {outer : List Slot} {v : List Char} {d : Nat}
    (h : Stacked limit base outer v d) : leave d outer = base := by
  induction h with
  | nil => rfl
  | @cons slot outer v w d m _ _ _ ih =>
      have hd : d + slot.levels + 1 - 1 - slot.levels = d := by omega
      rw [leave, hd, ih]

theorem Understands.released_eq (h : Understands limit base r w) : r.released = base := by
  cases h with
  | @operand slot outer v w d m ho _ _ _ =>
      simp only [released, Nat.add_sub_cancel]
      exact ho.leave_eq
  | @connective f k outer v w d m ho _ _ =>
      simp only [released, Nat.add_sub_cancel]
      exact ho.leave_eq

theorem Stops.last_eq {halt : Halt} (h : Stops limit stop r ts halt) : halt.last = r := by
  cases h <;> rfl

/-- Whatever made the run stop, letting go of what is held leads back to where it began. -/
theorem run_released (hb : base ≤ limit) (stop : Nat) (ts : List Lexeme) :
    (run limit stop (start base) ts).last.released = base := by
  obtain ⟨us, vs, r, -, hmoves, hstops⟩ := run_splits limit stop (start base) ts
  rw [hstops.last_eq]
  exact (Understands.moves hmoves (understands_start hb)).released_eq

end Reading

/-! ## Blank beginnings -/

/-- The text with its first `n` characters replaced by spaces. -/
def blank (n : Nat) (text : List Char) : List Char :=
  (text.take n).map (fun _ => ' ') ++ text.drop n

@[simp] theorem length_blank (n : Nat) (text : List Char) :
    (blank n text).length = text.length := by
  rw [blank, List.length_append, List.length_map, ← List.length_append, List.take_append_drop]

namespace Lexeme

/-- The spaces stand for the characters before the place and have no lexemes. -/
theorem ofText_eq_take_append_blank (n : Nat) (text : List Char) :
    ofText text = ofText (text.take n) ++ ofText (blank n text) := by
  have hspaces : ofText ((text.take n).map fun _ => ' ') = [] := by
    refine List.eq_nil_iff_forall_not_mem.mpr fun t ht => ?_
    obtain ⟨hget, hspace⟩ := mem_ofText.mp ht
    rw [List.getElem?_map, Option.map_eq_some_iff] at hget
    obtain ⟨c, -, hc⟩ := hget
    exact hspace hc.symm
  have htext := ofText_append (text.take n) (text.drop n)
  rw [List.take_append_drop] at htext
  rw [htext, blank, ofText_append, hspaces, List.nil_append, List.length_map]

theorem ofText_blank_of_eq_append {text : List Char} {us vs : List Lexeme} {t : Lexeme}
    (h : ofText text = us ++ t :: vs) : ofText (blank t.pos text) = t :: vs := by
  have hsplit := ofText_eq_take_append_blank t.pos text
  rw [(ofText_take_of_eq_append h).1, h] at hsplit
  exact (List.append_cancel_left hsplit).symm

theorem ofText_blank_length (text : List Char) : ofText (blank text.length text) = [] := by
  have hsplit := ofText_eq_take_append_blank text.length text
  rw [List.take_length] at hsplit
  exact List.append_right_eq_self.mp hsplit.symm

end Lexeme

/-! ## Readers -/

namespace Reader

/-- The text with spaces for all that comes before the first lexeme not read, or for all of it
if none is left. -/
def unread (r : Reader) (text : List Char) : List Char :=
  match r.rest with
  | [] => blank text.length text
  | t :: _ => blank t.pos text

/-- The reader after some requests. -/
def after (r : Reader) (qs : List Request) : Reader := (r.answers qs).2

def Request.isFormula : Request → Bool
  | .formula => true
  | .finish _ => false

/-- A reader that has come some way in a text and holds no level. -/
structure Within (limit : Nat) (text : List Char) (r : Reader) : Prop where
  rest_suffix : r.rest <:+ Lexeme.ofText text
  depth_eq : r.depth = 0
  limit_eq : r.limit = limit
  stop_eq : r.stop = text.length

variable {limit : Nat} {text : List Char} {r : Reader}

theorem within_ofText (limit : Nat) (text : List Char) :
    Within limit text (ofText limit text) :=
  ⟨List.suffix_refl _, rfl, rfl, rfl⟩

theorem Within.formula (h : Within limit text r) : Within limit text r.formula.2 where
  rest_suffix := (run_rest_suffix ..).trans h.rest_suffix
  depth_eq := by
    have hb : r.depth ≤ r.limit := by
      rw [h.depth_eq]
      exact Nat.zero_le _
    exact (run_released hb r.stop r.rest).trans h.depth_eq
  limit_eq := h.limit_eq
  stop_eq := h.stop_eq

theorem Within.answer (h : Within limit text r) (q : Request) :
    Within limit text (r.answer q).2 := by
  cases q with
  | formula => exact h.formula
  | finish tail => exact h

theorem after_cons (r : Reader) (q : Request) (qs : List Request) :
    r.after (q :: qs) = (r.answer q).2.after qs := rfl

theorem Within.after (h : Within limit text r) (qs : List Request) :
    Within limit text (r.after qs) := by
  induction qs generalizing r with
  | nil => exact h
  | cons q qs ih =>
      rw [after_cons]
      exact ih (h.answer q)

/-- Requests for the end of the text leave no trace. -/
theorem after_filter_isFormula (r : Reader) (qs : List Request) :
    r.after (qs.filter Request.isFormula) = r.after qs := by
  induction qs generalizing r with
  | nil => rfl
  | cons q qs ih =>
      rw [after_cons]
      cases q with
      | formula => exact ih r.formula.2
      | finish tail => exact ih r

/-- What a reader has read may as well have been blank. -/
theorem Within.eq_ofText_unread (h : Within limit text r) :
    r = ofText limit (r.unread text) := by
  obtain ⟨rest, depth, lim, stop⟩ := r
  obtain ⟨⟨us, hus⟩, rfl, rfl, rfl⟩ := h
  cases rest with
  | nil => simp [ofText, unread, Lexeme.ofText_blank_length]
  | cons t rest => simp [ofText, unread, Lexeme.ofText_blank_of_eq_append hus.symm]

/-- **A reader forgets its history.** After any requests, answered or refused, the depth
counter is back at zero, the requests for the end of the text have changed nothing, and all
further requests are answered as by a fresh reader of the text that is blank up to the first
lexeme not read. -/
theorem answers_after (limit : Nat) (text : List Char) (history : List Request) :
    ((ofText limit text).after history).depth = 0
      ∧ (ofText limit text).after (history.filter Request.isFormula) =
          (ofText limit text).after history
      ∧ ∀ requests, ((ofText limit text).after history).answers requests =
          (ofText limit (((ofText limit text).after history).unread text)).answers
            requests := by
  have hwithin := (within_ofText limit text).after history
  refine ⟨hwithin.depth_eq, after_filter_isFormula _ history, fun requests => ?_⟩
  exact congrArg (answers · requests) hwithin.eq_ofText_unread

end Reader

end TruthTable
