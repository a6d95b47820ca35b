import TruthTable.Proofs.Notation

/-!
# The usual notation is the shortest

Any text of a formula is its usual notation with characters put in: spaces, parentheses that
grouping to the left makes unnecessary, parentheses around a single letter. So the notation
is a sublist of the text (`Derives.written_sublist`), hence not longer, and equal to the
text if it is as long. The induction is on the derivation. What it says of an operand takes
the parentheses into account that the notation gives it (`Formula.enclose`): a group may
spare them, and nothing else can bring a binary formula into an operand's place.

What is left of the text without spaces and parentheses does not depend on the text: these
are the signs of the formula, one for each node (`Derives.bare_eq`, `length_signs`).
-/

namespace TruthTable

namespace Formula

variable {p : Phrase} {w text : List Char} {f : Formula} {n : Nat} {limits : Limits}

/-! ## Parentheses that can be spared -/

theorem sublist_enclose (f : Formula) (w : List Char) : w.Sublist (f.enclose w) := by
  unfold enclose
  split
  · exact (List.sublist_append_left w [')']).cons '('
  · exact List.Sublist.refl w

theorem enclose_sublist (f : Formula) (w : List Char) :
    (f.enclose w).Sublist ('(' :: w ++ [')']) := by
  unfold enclose
  split
  · exact List.Sublist.refl _
  · exact (List.sublist_append_left w [')']).cons '('

/-- The notation of a formula where it is written as a phrase. -/
def Phrase.written : Phrase → Formula → List Char
  | .operand, f => f.enclose f.text
  | .chain _, f => f.text

theorem Derives.written_sublist (h : Derives p w f n) : (p.written f).Sublist w := by
  induction h with
  | letter _ => exact List.Sublist.refl _
  | negation _ ih => exact ih.cons_cons '!'
  | @group k w f n _ ih =>
      have hinside : ('(' :: f.text ++ [')']).Sublist ('(' :: w ++ [')']) :=
        (ih.append (List.Sublist.refl _)).cons_cons '('
      exact (f.enclose_sublist f.text).trans hinside
  | @single w f n _ ih => exact (f.sublist_enclose f.text).trans ih
  | link c _ _ ihl ihr => exact ihl.append (ihr.cons_cons c.symbol)

theorem text_sublist_of_parse (h : (parse limits text).outcome = .ok f) :
    f.text.Sublist text := by
  obtain ⟨u, v, n, huv, ⟨k, hf⟩, -⟩ := exists_writes_of_parse h
  have hhead : f.text.Sublist u := hf.written_sublist
  have hsignificant : u.Sublist (significant text) := huv ▸ List.sublist_append_left u v
  exact (hhead.trans hsignificant).trans List.filter_sublist

/-! ## What no text can spare -/

def isParenthesis (x : Char) : Bool := x = '(' || x = ')'

/-- The characters that are no parentheses. -/
def bare (w : List Char) : List Char := w.filter (!isParenthesis ·)

/-- The signs and letters that a formula is made of, from left to right. -/
def signs : Formula → List Char
  | var x => [x]
  | neg f => '!' :: f.signs
  | binary c l r => l.signs ++ c.symbol :: r.signs

theorem length_signs (f : Formula) : f.signs.length = f.size := by
  induction f with
  | var x => rfl
  | neg f ih => rw [signs, List.length_cons, ih, size, Nat.add_comm]
  | binary c l r ihl ihr =>
      rw [signs, List.length_append, List.length_cons, ihl, ihr, size]
      omega

theorem bare_singleton_of_isLetter {x : Char} (hx : isLetter x = true) : bare [x] = [x] := by
  have hopening : x ≠ '(' := by
    rintro rfl
    exact absurd hx (by decide)
  have hclosing : x ≠ ')' := by
    rintro rfl
    exact absurd hx (by decide)
  simp [bare, isParenthesis, hopening, hclosing]

theorem bare_symbol_cons (c : Connective) (w : List Char) :
    bare (c.symbol :: w) = c.symbol :: bare w := by
  cases c <;> rfl

theorem Derives.bare_eq (h : Derives p w f n) : bare w = f.signs := by
  induction h with
  | letter hx => exact bare_singleton_of_isLetter hx
  | negation _ ih => exact congrArg ('!' :: ·) ih
  | @group k w f n _ ih =>
      have hgroup : bare ('(' :: w ++ [')']) = bare w ++ bare [')'] :=
        List.filter_append w [')']
      rw [hgroup, ih]
      exact List.append_nil _
  | single _ ih => exact ih
  | @link k v w l r m n c _ _ ihl ihr =>
      have hlink : bare (v ++ c.symbol :: w) = bare v ++ bare (c.symbol :: w) :=
        List.filter_append v (c.symbol :: w)
      rw [hlink, bare_symbol_cons, ihl, ihr, signs]

theorem bare_text (h : ∀ x ∈ f.vars, isLetter x = true) : bare f.text = f.signs :=
  (derives_text h).bare_eq

theorem bare_significant_of_parse (h : (parse limits text).outcome = .ok f)
    (htail : limits.tail = .reject) : bare (significant text) = f.signs := by
  obtain ⟨n, -, hheads⟩ := parse_eq_ok_iff.mp h
  rw [htail, heads_reject_iff] at hheads
  obtain ⟨k, hf⟩ := hheads
  exact hf.bare_eq

/-- **The usual notation is the one shortest text of its formula.** A text that is read as a
formula is its notation with characters put in, so it is longer or it is the notation. Where
all of the text was read, the two differ in spaces and parentheses only: the other
characters are the same, one for each node of the formula. -/
theorem text_shortest (limits : Limits) (text : List Char) (f : Formula)
    (h : (parse limits text).outcome = .ok f) :
    f.text.Sublist text
      ∧ f.text.length ≤ text.length ∧ (f.text.length = text.length → text = f.text)
      ∧ (limits.tail = .reject →
          bare (significant text) = bare f.text ∧ (bare f.text).length = f.size) := by
  have hsublist := text_sublist_of_parse h
  have hbare := bare_text (isLetter_of_parse h)
  refine ⟨hsublist, hsublist.length_le, fun hlength => (hsublist.eq_of_length hlength).symm,
    fun htail => ⟨?_, ?_⟩⟩
  · rw [hbare, bare_significant_of_parse h htail]
  · rw [hbare, length_signs]

/-- `((A)&(B|C))`: only the parentheses of the right operand are needed. -/
theorem text_shortest_enclosedOperands :
    ∃ f, (parse {} ['(', '(', 'A', ')', '&', '(', 'B', '|', 'C', ')', ')']).outcome = .ok f
      ∧ f.text = ['A', '&', '(', 'B', '|', 'C', ')']
      ∧ f.text.Sublist ['(', '(', 'A', ')', '&', '(', 'B', '|', 'C', ')', ')']
      ∧ bare f.text = ['A', '&', 'B', '|', 'C'] ∧ f.size = 5 := by
  have hread : (parse {} ['(', '(', 'A', ')', '&', '(', 'B', '|', 'C', ')', ')']).outcome =
      .ok (binary .and (var 'A') (binary .or (var 'B') (var 'C'))) := by rfl
  obtain ⟨hsublist, -, -, hwhole⟩ := text_shortest _ _ _ hread
  obtain ⟨hbare, hlength⟩ := hwhole rfl
  exact ⟨_, hread, rfl, hsublist, hbare.symm, hlength.symm⟩

end Formula

end TruthTable
