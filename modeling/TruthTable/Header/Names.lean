import TruthTable.Header.Basic

/-!
# Written lists of names

A list of column names may be written with spaces, commas and semicolons between
them, any number at a time. Each piece between separators must be a single letter.
A piece that is not is reported before any repetition is looked for.
-/

namespace TruthTable.Header

def isSeparator (c : Char) : Bool := c = ' ' || c = ',' || c = ';'

/-- The parts of a text between one separator and the next, empty ones included. -/
def parts : List Char → List (List Char)
  | [] => [[]]
  | c :: cs =>
    if isSeparator c then [] :: parts cs
    else match parts cs with
      | [] => [[c]]
      | p :: ps => (c :: p) :: ps

/-- The maximal runs of characters that are not separators. -/
def pieces (text : List Char) : List (List Char) := (parts text).filter (!·.isEmpty)

/-- The name that a piece is: one letter and nothing more. -/
def nameOf? : List Char → Except Fault Char
  | [c] => if isLetter c then .ok c else .error (.invalidName [c])
  | piece => .error (.invalidName piece)

def parse (text : List Char) : Except Fault Header := do
  ofList (← (pieces text).mapM nameOf?)

theorem parts_eq_splitOnP (text : List Char) : parts text = text.splitOnP isSeparator := by
  induction text with
  | nil => rw [parts, List.splitOnP_nil]
  | cons c text ih =>
      rw [parts, List.splitOnP_cons_eq_if_modifyHead, ← ih]
      split
      · rfl
      · cases hparts : parts text with
        | nil => exact absurd (ih.symm.trans hparts) (List.splitOnP_ne_nil _ _)
        | cons p ps => rfl

/-! ## Names -/

/-- A piece is a name if it is a single letter. -/
def IsName (piece : List Char) : Prop := ∃ c, isLetter c = true ∧ piece = [c]

theorem nameOf?_of_isLetter {c : Char} (hc : isLetter c = true) : nameOf? [c] = .ok c :=
  if_pos hc

theorem nameOf?_of_not_isName {piece : List Char} (h : ¬IsName piece) :
    nameOf? piece = .error (.invalidName piece) := by
  unfold nameOf?
  split
  · next c => exact if_neg fun hc => h ⟨c, hc, rfl⟩
  · rfl

theorem mapM_nameOf?_of_isLetter {xs : List Char} (hxs : ∀ x ∈ xs, isLetter x = true) :
    (xs.map ([·])).mapM nameOf? = .ok xs := by
  induction xs with
  | nil => rfl
  | cons x xs ih =>
      obtain ⟨hx, hxs⟩ := List.forall_mem_cons.mp hxs
      rw [List.map_cons, List.mapM_cons, nameOf?_of_isLetter hx, ih hxs]
      rfl

/-- The first piece that is no name decides; what comes after it is not looked at. -/
theorem mapM_nameOf?_of_not_isName {before after : List (List Char)} {piece : List Char}
    (hbefore : ∀ q ∈ before, IsName q) (hpiece : ¬IsName piece) :
    (before ++ piece :: after).mapM nameOf? = .error (.invalidName piece) := by
  induction before with
  | nil =>
      rw [List.nil_append, List.mapM_cons, nameOf?_of_not_isName hpiece]
      rfl
  | cons q before ih =>
      obtain ⟨⟨c, hc, rfl⟩, hrest⟩ := List.forall_mem_cons.mp hbefore
      rw [List.cons_append, List.mapM_cons, nameOf?_of_isLetter hc, ih hrest]
      rfl

theorem parse_of_names {text xs : List Char} (hpieces : pieces text = xs.map ([·]))
    (hxs : ∀ x ∈ xs, isLetter x = true) : parse text = ofList xs := by
  rw [parse, hpieces, mapM_nameOf?_of_isLetter hxs]
  rfl

theorem parse_of_not_isName {text piece : List Char} {before after : List (List Char)}
    (hpieces : pieces text = before ++ piece :: after) (hbefore : ∀ q ∈ before, IsName q)
    (hpiece : ¬IsName piece) : parse text = .error (.invalidName piece) := by
  rw [parse, hpieces, mapM_nameOf?_of_not_isName hbefore hpiece]
  rfl

end TruthTable.Header
