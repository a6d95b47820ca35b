import TruthTable.Formula.Basic

/-!
# Lexemes

A text is read one character at a time: every character except the plain space is
a lexeme, and keeps its position in the text, spaces counted. Characters that no
formula can hold are lexemes too; it is the reader that refuses them, and then it
can name their place.

`Lexeme.kind` sorts lexemes into the six kinds that the grammar tells apart.
-/

namespace TruthTable

/-- A character of a text, with the number of characters before it. -/
structure Lexeme where
  pos : Nat
  symbol : Char
deriving DecidableEq, Repr

/-- A variable is written as one of the letters `A` to `Z`. -/
def isLetter (c : Char) : Bool := c.isUpper

theorem Connective.isLetter_symbol (c : Connective) : isLetter c.symbol = false := by
  cases c <;> rfl

namespace Lexeme

/-- What a character may be in a formula. -/
inductive Kind where
  | opening
  | closing
  | negation
  | letter
  | connective (c : Connective)
  | other
deriving DecidableEq, Repr

namespace Kind

def ofChar (x : Char) : Kind :=
  if x = '(' then opening
  else if x = ')' then closing
  else if x = '!' then negation
  else if isLetter x then letter
  else match Connective.ofSymbol? x with
    | some c => connective c
    | none => other

theorem ofChar_eq_opening_iff {x : Char} : ofChar x = opening ↔ x = '(' := by
  grind [ofChar]

theorem ofChar_eq_closing_iff {x : Char} : ofChar x = closing ↔ x = ')' := by
  grind [ofChar]

theorem ofChar_eq_negation_iff {x : Char} : ofChar x = negation ↔ x = '!' := by
  grind [ofChar]

/-- No sign of the notation is a letter. -/
theorem ofChar_eq_letter_iff {x : Char} : ofChar x = letter ↔ isLetter x = true := by
  have h : isLetter '(' = false ∧ isLetter ')' = false ∧ isLetter '!' = false := by decide
  grind [ofChar]

theorem ofChar_eq_connective_iff {x : Char} {c : Connective} :
    ofChar x = connective c ↔ x = c.symbol := by
  rw [← Connective.ofSymbol?_eq_some_iff]
  constructor
  · grind [ofChar]
  · intro h
    obtain rfl := Connective.ofSymbol?_eq_some_iff.mp h
    cases c <;> decide

end Kind

def kind (t : Lexeme) : Kind := .ofChar t.symbol

def connective? (t : Lexeme) : Option Connective := Connective.ofSymbol? t.symbol

/-- All characters of a text that are not spaces, each with its position. -/
def ofText (text : List Char) : List Lexeme :=
  (text.zipIdx.filter (·.1 ≠ ' ')).map fun (c, i) => ⟨i, c⟩

/-- A lexeme of a text is a character of it that is not a space, with its position. -/
theorem mem_ofText {text : List Char} {t : Lexeme} :
    t ∈ ofText text ↔ text[t.pos]? = some t.symbol ∧ t.symbol ≠ ' ' := by
  obtain ⟨i, c⟩ := t
  simp only [ofText, List.mem_map, List.mem_filter, Prod.exists, mk.injEq, decide_eq_true_eq]
  constructor
  · rintro ⟨c, i, ⟨hmem, hc⟩, rfl, rfl⟩
    exact ⟨List.mem_zipIdx_iff_getElem?.mp hmem, hc⟩
  · rintro ⟨hget, hc⟩
    exact ⟨c, i, ⟨List.mem_zipIdx_iff_getElem?.mpr hget, hc⟩, rfl, rfl⟩

theorem pos_lt_length {text : List Char} {t : Lexeme} (h : t ∈ ofText text) :
    t.pos < text.length :=
  (List.getElem?_eq_some_iff.mp (mem_ofText.mp h).1).1

/-- Only spaces are lost. -/
theorem map_symbol_ofText (text : List Char) :
    (ofText text).map symbol = text.filter (· ≠ ' ') := by
  have h : text.filter (· ≠ ' ') = (text.zipIdx.map Prod.fst).filter (· ≠ ' ') := by
    rw [List.zipIdx_map_fst]
  rw [h, List.filter_map, ofText, List.map_map]
  rfl

/-- Lexemes come in the order of their positions. -/
theorem pairwise_ofText (text : List Char) : (ofText text).Pairwise (·.pos < ·.pos) := by
  have hidx : text.zipIdx.Pairwise (·.2 < ·.2) := by
    rw [← List.pairwise_map, List.zipIdx_map_snd]
    exact List.pairwise_lt_range'
  exact List.pairwise_map.mpr (hidx.filter _)

theorem ofText_append (u v : List Char) :
    ofText (u ++ v) = ofText u ++ (ofText v).map fun t => ⟨u.length + t.pos, t.symbol⟩ := by
  have hshift : v.zipIdx u.length = v.zipIdx.map fun (c, i) => (c, u.length + i) := by
    rw [List.zipIdx_eq_map_add]
  simp only [ofText, List.zipIdx_append, List.filter_append, List.map_append, Nat.zero_add,
    hshift, List.filter_map, List.map_map]
  rfl

/-- The beginning of a text has the lexemes that stand in it. -/
theorem ofText_take (text : List Char) (n : Nat) :
    ofText (text.take n) = (ofText text).filter (·.pos < n) := by
  have hleft : ∀ t ∈ ofText (text.take n), decide (t.pos < n) = true := by
    intro t ht
    have hpos := pos_lt_length ht
    rw [List.length_take] at hpos
    exact decide_eq_true (by omega)
  have hright : ∀ t ∈ (ofText (text.drop n)).map
      fun t => (⟨(text.take n).length + t.pos, t.symbol⟩ : Lexeme),
      ¬decide (t.pos < n) = true := by
    intro t ht
    obtain ⟨s, hs, rfl⟩ := List.mem_map.mp ht
    have hpos := pos_lt_length hs
    rw [List.length_drop] at hpos
    simp only [List.length_take, decide_eq_true_eq]
    omega
  have hsplit := ofText_append (text.take n) (text.drop n)
  rw [List.take_append_drop] at hsplit
  rw [hsplit, List.filter_append, List.filter_eq_self.mpr hleft,
    List.filter_eq_nil_iff.mpr hright, List.append_nil]

theorem pos_lt_of_eq_append {text : List Char} {us vs : List Lexeme} {t : Lexeme}
    (h : ofText text = us ++ t :: vs) : ∀ v ∈ vs, t.pos < v.pos := by
  have hpair := pairwise_ofText text
  rw [h, List.pairwise_append, List.pairwise_cons] at hpair
  exact hpair.2.1.1

/-- A lexeme splits the others by position: those before it are the lexemes of the text that
ends there. -/
theorem ofText_take_of_eq_append {text : List Char} {us vs : List Lexeme} {t : Lexeme}
    (h : ofText text = us ++ t :: vs) :
    ofText (text.take t.pos) = us ∧ ofText (text.take (t.pos + 1)) = us ++ [t] := by
  have hpair := pairwise_ofText text
  rw [h, List.pairwise_append, List.pairwise_cons] at hpair
  obtain ⟨-, ⟨hafter, -⟩, hbefore⟩ := hpair
  have hus : ∀ u ∈ us, u.pos < t.pos := fun u hu => hbefore u hu t (List.mem_cons_self ..)
  have hvs : ∀ v ∈ vs, t.pos < v.pos := hafter
  constructor
  · rw [ofText_take, h, List.filter_append, List.filter_cons_of_neg (by simp),
      List.filter_eq_self.mpr fun u hu => decide_eq_true (hus u hu),
      List.filter_eq_nil_iff.mpr fun v hv => by have := hvs v hv; simp; omega,
      List.append_nil]
  · rw [ofText_take, h, List.filter_append, List.filter_cons_of_pos (by simp),
      List.filter_eq_self.mpr fun u hu => decide_eq_true (Nat.lt_succ_of_lt (hus u hu)),
      List.filter_eq_nil_iff.mpr fun v hv => by have := hvs v hv; simp; omega]

end Lexeme

end TruthTable
