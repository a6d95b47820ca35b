import TruthTable.Lexeme

/-!
# A text and its lexemes

A lexeme carries its place, counted before spaces are dropped, so nothing but spaces is
lost: the places come in order, each below the length of the text, and a place has a lexeme
exactly if something other than a space stands there. What is lost can be put back without
the text. Writing each symbol at its place, over as many spaces as the text has characters,
restores the text (`ofText_restores_text`).

Writing goes from the left, and a place that comes later is never written before. So what
ends up at a place is the symbol of its own lexeme (`getElem?_writeAll_of_mem`), or what was
there already (`getElem?_writeAll_of_forall_ne`).
-/

namespace TruthTable.Lexeme

/-- The text with the symbol of each lexeme written at its place. -/
def writeAll (ts : List Lexeme) (text : List Char) : List Char :=
  ts.foldl (fun text t => text.set t.pos t.symbol) text

variable {ts : List Lexeme} {t : Lexeme} {text : List Char} {i : Nat}

/-! ## Writing -/

theorem writeAll_cons (t : Lexeme) (ts : List Lexeme) (text : List Char) :
    writeAll (t :: ts) text = writeAll ts (text.set t.pos t.symbol) := rfl

theorem getElem?_writeAll_of_forall_ne (h : ∀ t ∈ ts, t.pos ≠ i) :
    (writeAll ts text)[i]? = text[i]? := by
  induction ts generalizing text with
  | nil => rfl
  | cons t ts ih =>
      obtain ⟨ht, hts⟩ := List.forall_mem_cons.mp h
      rw [writeAll_cons, ih hts, List.getElem?_set_ne ht]

/-- The lexemes behind `t` have other places and leave alone what was written for it. -/
theorem getElem?_writeAll_of_mem (horder : ts.Pairwise (·.pos < ·.pos)) (ht : t ∈ ts)
    (hpos : t.pos < text.length) : (writeAll ts text)[t.pos]? = some t.symbol := by
  induction ts generalizing text with
  | nil => cases ht
  | cons u ts ih =>
      obtain ⟨hu, hts⟩ := List.pairwise_cons.mp horder
      rw [writeAll_cons]
      rcases List.mem_cons.mp ht with rfl | ht
      · have hafter : ∀ v ∈ ts, v.pos ≠ t.pos := fun v hv => Nat.ne_of_gt (hu v hv)
        rw [getElem?_writeAll_of_forall_ne hafter, List.getElem?_set_self hpos]
      · exact ih hts ht (by rwa [List.length_set])

/-! ## Lexemes of a text -/

theorem exists_mem_ofText_iff (hi : i < text.length) :
    (∃ t ∈ ofText text, t.pos = i) ↔ text[i] ≠ ' ' := by
  constructor
  · rintro ⟨t, ht, rfl⟩
    obtain ⟨hget, hspace⟩ := mem_ofText.mp ht
    rw [List.getElem?_eq_getElem hi, Option.some.injEq] at hget
    rwa [hget]
  · intro hspace
    exact ⟨⟨i, text[i]⟩, mem_ofText.mpr ⟨List.getElem?_eq_getElem hi, hspace⟩, rfl⟩

theorem writeAll_ofText (text : List Char) :
    writeAll (ofText text) (List.replicate text.length ' ') = text := by
  refine List.ext_getElem? fun i => ?_
  rcases Nat.lt_or_ge i text.length with hi | hi
  · by_cases hspace : text[i] = ' '
    · have hnone : ∀ t ∈ ofText text, t.pos ≠ i := fun t ht htpos =>
        (exists_mem_ofText_iff hi).mp ⟨t, ht, htpos⟩ hspace
      rw [getElem?_writeAll_of_forall_ne hnone, List.getElem?_replicate_of_lt hi,
        List.getElem?_eq_getElem hi, hspace]
    · obtain ⟨t, ht, rfl⟩ := (exists_mem_ofText_iff hi).mpr hspace
      rw [getElem?_writeAll_of_mem (pairwise_ofText text) ht (by rwa [List.length_replicate]),
        (mem_ofText.mp ht).1]
  · have hbelow : ∀ t ∈ ofText text, t.pos ≠ i := fun t ht =>
      Nat.ne_of_lt (Nat.lt_of_lt_of_le (pos_lt_length ht) hi)
    rw [getElem?_writeAll_of_forall_ne hbelow, List.getElem?_eq_none hi,
      List.getElem?_eq_none (by rwa [List.length_replicate])]

/-- **Only spaces are lost.** The lexemes of a text come in the order of their places, and
these are places of the text. A place has a lexeme exactly if no space stands there, and its
symbol is the character that does. Written at their places over as many spaces as the text
has characters, the symbols give the text again. -/
theorem ofText_restores_text (text : List Char) :
    (ofText text).Pairwise (·.pos < ·.pos)
      ∧ (∀ t ∈ ofText text, t.pos < text.length)
      ∧ (∀ (i : Nat) (hi : i < text.length), (∃ t ∈ ofText text, t.pos = i) ↔ text[i] ≠ ' ')
      ∧ (∀ t ∈ ofText text, text[t.pos]? = some t.symbol)
      ∧ writeAll (ofText text) (List.replicate text.length ' ') = text :=
  ⟨pairwise_ofText text, fun _ => pos_lt_length, fun _ => exists_mem_ofText_iff,
    fun _ ht => (mem_ofText.mp ht).1, writeAll_ofText text⟩

/-- A tab is no space. -/
example : ofText [' ', 'A', ' ', '\t', ' '] = [⟨1, 'A'⟩, ⟨3, '\t'⟩] := rfl

end TruthTable.Lexeme
