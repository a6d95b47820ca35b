import TruthTable.Proofs.Columns
import TruthTable.Proofs.Faults
import TruthTable.Proofs.Relabeling

/-!
# Spaces do not matter

Two texts with the same characters other than spaces have the same lexemes, at other places.
A place in the one text that a fault can name has a counterpart in the other: the end for
the end, and otherwise the lexeme with as many lexemes before it (`rank`). So the second
text is a relabeling of the first that changes no name (`Relabeling.respace`), and what is
read of it is the same formula, or a fault of the same kind at the counterpart
(`Relabeling.outcome_parse`).

Faults name no other places than these (`parse_pointsInto`). The columns come from the raw
text and not from the lexemes, but no space is a letter.
-/

namespace TruthTable

open Formula Reading

/-! ## The same place in two texts -/

/-- The number of characters before a position, spaces not counted. -/
def rank (text : List Char) (pos : Nat) : Nat := (significant (text.take pos)).length

/-- The `k`-th character that is no space of each text, for some `k`, or the end of each. -/
inductive SamePlace (text text' : List Char) : Nat → Nat → Prop where
  | char {pos pos' : Nat} {x : Char} : x ≠ ' ' → text[pos]? = some x → text'[pos']? = some x →
      rank text pos = rank text' pos' → SamePlace text text' pos pos'
  | stop : SamePlace text text' text.length text'.length

/-- Two faults of one kind that name the same character and limit, and the same place in their
texts. -/
inductive ReadFault.Alike (text text' : List Char) : ReadFault → ReadFault → Prop where
  | unfinished : Alike text text' .unfinished .unfinished
  | operandExpected {pos pos' : Nat} {x : Char} : SamePlace text text' pos pos' →
      Alike text text' (.operandExpected pos x) (.operandExpected pos' x)
  | unclosed {pos pos' : Nat} {found : Option Char} : SamePlace text text' pos pos' →
      Alike text text' (.unclosed pos found) (.unclosed pos' found)
  | trailing {pos pos' : Nat} {x : Char} : SamePlace text text' pos pos' →
      Alike text text' (.trailing pos x) (.trailing pos' x)
  | tooDeep {pos pos' limit : Nat} : SamePlace text text' pos pos' →
      Alike text text' (.tooDeep pos limit) (.tooDeep pos' limit)

/-- Faults of the texts that are alike, or the same fault of what was read. -/
inductive Fault.Alike (text text' : List Char) : Fault → Fault → Prop where
  | misread {e e' : ReadFault} :
      e.Alike text text' e' → Alike text text' (.misread e) (.misread e')
  | undefined (x : Char) : Alike text text' (.undefined x) (.undefined x)
  | tooMany (count limit : Nat) :
      Alike text text' (.tooMany count limit) (.tooMany count limit)

/-- The same value, or two faults that are related. -/
inductive SameOutcome {ε α : Type} (R : ε → ε → Prop) : Except ε α → Except ε α → Prop where
  | ok (a : α) : SameOutcome R (.ok a) (.ok a)
  | error {e e' : ε} : R e e' → SameOutcome R (.error e) (.error e')

variable {text text' : List Char}

theorem rank_length (text : List Char) :
    rank text text.length = (Lexeme.ofText text).length := by
  rw [rank, List.take_length, significant_eq_map_symbol, List.length_map]

/-- The lexemes before one are counted by its index. -/
theorem rank_getElem {i : Nat} (hi : i < (Lexeme.ofText text).length) :
    rank text (Lexeme.ofText text)[i].pos = i := by
  have hsplit : Lexeme.ofText text = (Lexeme.ofText text).take i
      ++ (Lexeme.ofText text)[i] :: (Lexeme.ofText text).drop (i + 1) := by
    rw [← List.drop_eq_getElem_cons hi, List.take_append_drop]
  rw [rank, significant_eq_map_symbol, (Lexeme.ofText_take_of_eq_append hsplit).1,
    List.length_map, List.length_take]
  omega

/-! ## Other spaces -/

namespace Relabeling

/-- The counterpart in `text'` of each place in `text`. -/
def respace (text text' : List Char) : Relabeling where
  name := id
  place pos := match (Lexeme.ofText text')[rank text pos]? with
    | some t => t.pos
    | none => text'.length
  kind_name _ := rfl

theorem length_ofText_eq (h : significant text = significant text') :
    (Lexeme.ofText text).length = (Lexeme.ofText text').length := by
  rw [significant_eq_map_symbol, significant_eq_map_symbol] at h
  simpa using congrArg List.length h

theorem place_respace_getElem {i : Nat} (hi : i < (Lexeme.ofText text).length)
    (hi' : i < (Lexeme.ofText text').length) :
    (respace text text').place (Lexeme.ofText text)[i].pos =
      (Lexeme.ofText text')[i].pos := by
  simp only [respace, rank_getElem hi, List.getElem?_eq_getElem hi']

theorem place_respace_length (h : significant text = significant text') :
    (respace text text').place text.length = text'.length := by
  have hnone : (Lexeme.ofText text')[rank text text.length]? = none := by
    rw [rank_length, length_ofText_eq h]
    exact List.getElem?_eq_none (Nat.le_refl _)
  simp only [respace, hnone]

theorem ofText_respace (h : significant text = significant text') :
    Lexeme.ofText text' = (Lexeme.ofText text).map (respace text text').lexeme := by
  refine List.ext_getElem ?_ fun i hi' hi => ?_
  · rw [List.length_map, length_ofText_eq h]
  · rw [List.length_map] at hi
    have hsymbol : (Lexeme.ofText text)[i].symbol = (Lexeme.ofText text')[i].symbol := by
      rw [significant_eq_map_symbol, significant_eq_map_symbol] at h
      have hget := congrArg (·[i]?) h
      simpa [hi, hi'] using hget
    rw [List.getElem_map, lexeme, place_respace_getElem hi hi']
    exact congrArg (Lexeme.mk (Lexeme.ofText text')[i].pos) hsymbol.symm

theorem samePlace_of_mem (h : significant text = significant text') {t : Lexeme}
    (ht : t ∈ Lexeme.ofText text) :
    SamePlace text text' t.pos ((respace text text').place t.pos) := by
  have ht' : (respace text text').lexeme t ∈ Lexeme.ofText text' :=
    ofText_respace h ▸ List.mem_map_of_mem ht
  obtain ⟨hget, hspace⟩ := Lexeme.mem_ofText.mp ht
  obtain ⟨hget', -⟩ := Lexeme.mem_ofText.mp ht'
  refine .char hspace hget hget' ?_
  obtain ⟨i, hi, rfl⟩ := List.getElem_of_mem ht
  have hi' : i < (Lexeme.ofText text').length := length_ofText_eq h ▸ hi
  rw [rank_getElem hi, place_respace_getElem hi hi', rank_getElem hi']

theorem alike_of_pointsInto (h : significant text = significant text') {e : ReadFault}
    (he : e.PointsInto text.length (Lexeme.ofText text)) :
    e.Alike text text' ((respace text text').fault e) := by
  cases he with
  | unfinished => exact .unfinished
  | operandExpected ht => exact .operandExpected (samePlace_of_mem h ht)
  | unclosed ht => exact .unclosed (samePlace_of_mem h ht)
  | unclosedAtEnd =>
      have hstop :
          SamePlace text text' text.length ((respace text text').place text.length) := by
        rw [place_respace_length h]
        exact .stop
      exact .unclosed hstop
  | trailing ht => exact .trailing (samePlace_of_mem h ht)
  | tooDeep ht => exact .tooDeep (samePlace_of_mem h ht)

end Relabeling

/-! ## Reading and evaluating -/

theorem Formula.sameOutcome_parse (h : significant text = significant text')
    (limits : Limits) :
    SameOutcome (ReadFault.Alike text text') (parse limits text).outcome
      (parse limits text').outcome := by
  rw [Relabeling.outcome_parse (Relabeling.ofText_respace h)
    (Relabeling.place_respace_length h).symm]
  cases hout : (parse limits text).outcome with
  | ok f =>
      rw [Relabeling.outcome, Relabeling.respace, rename_id]
      exact .ok f
  | error e =>
      have hsplit : Lexeme.ofText text = [] ++ Lexeme.ofText text := rfl
      have hpoints := parse_pointsInto hsplit .refl hout
      exact .error (Relabeling.alike_of_pointsInto h hpoints)

theorem Header.ofText_eq_of_significant_eq (h : significant text = significant text') :
    ofText text = ofText text' := by
  rw [ofText, ofText, ← filter_isLetter_significant, h, filter_isLetter_significant]

namespace Selection

theorem sameOutcome_tabulate (limits : Limits) (header : Header) (f : Formula) :
    SameOutcome (Fault.Alike text text') (f.tabulate limits header).outcome
      (f.tabulate limits header).outcome := by
  cases hout : (f.tabulate limits header).outcome with
  | ok s => exact .ok s
  | error e =>
      rcases Formula.error_tabulate_cases hout with ⟨limit, rfl⟩ | ⟨x, rfl⟩
      · exact .error (.tooMany header.size limit)
      · exact .error (.undefined x)

/-- **Spaces do not matter.** Two texts with the same characters other than spaces are read
as the same formula, or both are refused with the same kind of fault, about the same
character and limit, at the same place in each. Evaluating them gives the same columns, the
same table and the same marks, or faults that are alike, whether the columns are given or
found in the texts. -/
theorem sameOutcome_of_significant_eq (h : significant text = significant text')
    (limits : Limits) (header? : Option Header) :
    SameOutcome (ReadFault.Alike text text') (Formula.parse limits text).outcome
        (Formula.parse limits text').outcome
      ∧ SameOutcome (Fault.Alike text text') (ofText limits text header?).outcome
          (ofText limits text' header?).outcome := by
  have hparse := Formula.sameOutcome_parse h limits
  refine ⟨hparse, ?_⟩
  rw [outcome_ofText, outcome_ofText, Header.ofText_eq_of_significant_eq h]
  generalize (Formula.parse limits text).outcome = o at hparse ⊢
  generalize (Formula.parse limits text').outcome = o' at hparse ⊢
  cases hparse with
  | ok f => exact sameOutcome_tabulate limits (header?.getD (Header.ofText text')) f
  | error he => exact .error (.misread he)

/-- The parenthesis is the second character of both. -/
theorem sameOutcome_of_significant_eq_strayParenthesis :
    significant [' ', 'A', ' ', ' ', ')'] = significant ['A', ')', ' ']
      ∧ (Formula.parse {} [' ', 'A', ' ', ' ', ')']).outcome = .error (.trailing 4 ')')
      ∧ (Formula.parse {} ['A', ')', ' ']).outcome = .error (.trailing 1 ')')
      ∧ SamePlace [' ', 'A', ' ', ' ', ')'] ['A', ')', ' '] 4 1 := by
  have hsame : significant [' ', 'A', ' ', ' ', ')'] = significant ['A', ')', ' '] := by rfl
  have hwide : (Formula.parse {} [' ', 'A', ' ', ' ', ')']).outcome =
      .error (.trailing 4 ')') := by
    rfl
  have hnarrow : (Formula.parse {} ['A', ')', ' ']).outcome = .error (.trailing 1 ')') := by
    rfl
  have houtcome := (sameOutcome_of_significant_eq hsame {} none).1
  rw [hwide, hnarrow] at houtcome
  cases houtcome with
  | error halike =>
      cases halike with
      | trailing hplace => exact ⟨hsame, hwide, hnarrow, hplace⟩

end Selection

end TruthTable
