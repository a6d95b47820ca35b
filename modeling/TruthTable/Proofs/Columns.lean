import Mathlib.Data.List.Nodup
import Mathlib.Data.List.Perm.Subperm
import TruthTable.Proofs.Evaluation
import TruthTable.Proofs.Parsing

/-!
# The columns found in a text

Without a header of its own, an evaluation takes the letters of the text for its columns,
and it takes them from the raw characters: spaces, signs and a dropped tail included. The
formula has its own list of variables, read off the tree. The two lists are compared here.

- A phrase is its letters and signs, and no sign is a letter; so the letters of a phrase are
  the variables of its formula, in order and with repetitions (`Derives.filter_isLetter`).
  The tree is on neither side of that, so grouping does not matter.
- Keeping first occurrences commutes with cutting off an end
  (`Header.names_collect_prefix`), so what a dropped tail adds comes after the columns of
  the formula.

Hence every variable has a column, and evaluation can only fail before it comes to look at
one. There are 26 letters, fewer than the columns of the widest table.
-/

namespace TruthTable

/-! ## The letters of the alphabet -/

namespace Header

variable {h : Header} {x : Char}

/-- The letters are 26 characters in a row. -/
theorem toNat_mem_range_of_isLetter (hx : isLetter x = true) :
    x.toNat ∈ List.range' 65 26 := by
  have hbetween : 'A'.val ≤ x.val ∧ x.val ≤ 'Z'.val := of_decide_eq_true hx
  exact List.mem_range'_1.mpr ⟨hbetween.1, Nat.lt_succ_of_le hbetween.2⟩

theorem size_le_of_isLetter (hletters : ∀ x ∈ h, isLetter x = true) : h.size ≤ 26 := by
  have hnodup : (h.names.map Char.toNat).Nodup := h.nodup.map fun _ _ => Char.toNat_inj.mp
  have hsub : h.names.map Char.toNat ⊆ List.range' 65 26 := by
    intro n hn
    obtain ⟨x, hx, rfl⟩ := List.mem_map.mp hn
    exact toNat_mem_range_of_isLetter (hletters x hx)
  have hlength := (hnodup.subperm hsub).length_le
  rwa [List.length_map, List.length_range'] at hlength

theorem size_ofText_le (text : List Char) : (ofText text).size ≤ 26 :=
  size_le_of_isLetter fun _ hx => (mem_ofText.mp hx).2

end Header

/-! ## The letters of a phrase -/

namespace Formula

variable {p : Phrase} {w text : List Char} {f : Formula} {n : Nat} {limits : Limits}

theorem Derives.filter_isLetter (h : Derives p w f n) : w.filter isLetter = f.vars := by
  induction h with
  | letter hx => simp [hx, vars]
  | negation _ ih =>
      rw [List.filter_cons_of_neg (by decide), ih]
      rfl
  | group _ ih =>
      rw [List.cons_append, List.filter_cons_of_neg (by decide), List.filter_append, ih,
        List.filter_cons_of_neg (by decide), List.filter_nil, List.append_nil]
  | single _ ih => exact ih
  | link c _ _ ihl ihr =>
      rw [List.filter_append, List.filter_cons_of_neg (by simp [c.isLetter_symbol]), ihl, ihr]
      rfl

theorem filter_isLetter_significant (text : List Char) :
    (significant text).filter isLetter = text.filter isLetter := by
  rw [significant, List.filter_filter]
  refine List.filter_congr fun x _ => ?_
  by_cases hx : x = ' '
  · subst hx
    rfl
  · simp [hx]

/-- The formula that was read has the first letters of the text for its variables, and all of
them if nothing was dropped. -/
theorem exists_filter_isLetter_of_parse (h : (parse limits text).outcome = .ok f) :
    ∃ ys, text.filter isLetter = f.vars ++ ys ∧ (limits.tail = .reject → ys = []) := by
  obtain ⟨n, -, rest, ⟨us, hus, ⟨k, hf⟩, -⟩, htail⟩ := parse_eq_ok_iff.mp h
  refine ⟨(rest.map Lexeme.symbol).filter isLetter, ?_, fun hreject => ?_⟩
  · rw [← filter_isLetter_significant, significant_eq_map_symbol, hus, List.map_append,
      List.filter_append, hf.filter_isLetter]
  · rw [htail hreject]
    rfl

theorem header_prefix_of_parse (h : (parse limits text).outcome = .ok f) :
    f.header.names <+: (Header.ofText text).names := by
  obtain ⟨ys, hletters, -⟩ := exists_filter_isLetter_of_parse h
  rw [header, Header.ofText, hletters]
  exact Header.names_collect_prefix f.vars ys

theorem header_eq_of_parse (h : (parse limits text).outcome = .ok f)
    (htail : limits.tail = .reject) : Header.ofText text = f.header := by
  obtain ⟨ys, hletters, hys⟩ := exists_filter_isLetter_of_parse h
  rw [header, Header.ofText, hletters, hys htail, List.append_nil]

theorem mem_header {x : Char} : x ∈ f.header ↔ x ∈ f.vars := Header.mem_collect

theorem missing?_ofText_of_parse (h : (parse limits text).outcome = .ok f) :
    f.missing? (Header.ofText text) = none :=
  missing?_eq_none_iff.mpr fun _ hx =>
    (header_prefix_of_parse h).subset (mem_header.mpr hx)

end Formula

/-! ## Evaluation -/

theorem Selection.outcome_ofText_none {limits : Limits} {text : List Char} {f : Formula}
    (h : (Formula.parse limits text).outcome = .ok f) :
    (limits.maxVariables < (Header.ofText text).size ∧
        (ofText limits text none).outcome =
          .error (.tooMany (Header.ofText text).size limits.maxVariables))
      ∨ ((Header.ofText text).size ≤ limits.maxVariables ∧
        ∃ s, (ofText limits text none).outcome = .ok s) := by
  simp only [outcome_ofText, h, Option.getD_none]
  rcases Nat.lt_or_ge limits.maxVariables (Header.ofText text).size with hmany | hallowed
  · exact .inl ⟨hmany, Formula.outcome_tabulate_of_many hmany⟩
  · have hnarrow : (Header.ofText text).size ≤ maxColumns :=
      Nat.le_trans (Header.size_ofText_le text) (by decide)
    have hmissing := Formula.missing?_ofText_of_parse h
    obtain ⟨s, hs, -⟩ := Formula.exists_outcome_tabulate hallowed hnarrow hmissing
    exact .inr ⟨hallowed, s, hs⟩

theorem Selection.error_ofText_none_cases {limits : Limits} {text : List Char} {e : Fault}
    (he : (ofText limits text none).outcome = .error e) :
    (∃ e', (Formula.parse limits text).outcome = .error e' ∧ e = .misread e')
      ∨ ∃ count, limits.maxVariables < count ∧ count ≤ 26
          ∧ e = .tooMany count limits.maxVariables := by
  cases hparse : (Formula.parse limits text).outcome with
  | error e' =>
      rw [outcome_ofText, hparse] at he
      exact .inl ⟨e', rfl, (Except.error.inj he).symm⟩
  | ok f =>
      rcases outcome_ofText_none hparse with ⟨hlt, hmany⟩ | ⟨-, s, hs⟩
      · have heq := Except.error.inj (he.symm.trans hmany)
        exact .inr ⟨_, hlt, Header.size_ofText_le text, heq⟩
      · cases he.symm.trans hs

theorem Selection.exists_ofText_none_iff {limits : Limits} {text : List Char} :
    (∃ s, (ofText limits text none).outcome = .ok s) ↔
      (∃ f, (Formula.parse limits text).outcome = .ok f)
        ∧ (Header.ofText text).size ≤ limits.maxVariables := by
  constructor
  · rintro ⟨s, hs⟩
    cases hparse : (Formula.parse limits text).outcome with
    | error e =>
        rw [outcome_ofText, hparse] at hs
        cases hs
    | ok f =>
        rcases outcome_ofText_none hparse with ⟨-, hmany⟩ | ⟨hle, -⟩
        · cases hs.symm.trans hmany
        · exact ⟨⟨f, rfl⟩, hle⟩
  · rintro ⟨⟨f, hf⟩, hle⟩
    rcases outcome_ofText_none hf with ⟨hlt, -⟩ | ⟨-, hs⟩
    · exact absurd hle (Nat.not_le.mpr hlt)
    · exact hs

/-- **The letters of the text are columns for the formula.** What is read of a text has for
its columns exactly those found in the text, or the first of them where a tail may be
dropped. So an evaluation without a header of its own fails only where the text is no
formula, or where its letters, 26 at most, are more than allowed; a variable without a
column is never met. -/
theorem Selection.ofText_finds_columns (limits : Limits) (text : List Char) :
    (∀ f, (Formula.parse limits text).outcome = .ok f →
        match limits.tail with
        | .reject => Header.ofText text = f.header
        | .ignore => f.header.names <+: (Header.ofText text).names)
      ∧ (∀ e, (ofText limits text none).outcome = .error e →
          (∃ e', (Formula.parse limits text).outcome = .error e' ∧ e = .misread e')
            ∨ ∃ count, limits.maxVariables < count ∧ count ≤ 26
                ∧ e = .tooMany count limits.maxVariables)
      ∧ ((∃ s, (ofText limits text none).outcome = .ok s) ↔
          (∃ f, (Formula.parse limits text).outcome = .ok f)
            ∧ (Header.ofText text).size ≤ limits.maxVariables) := by
  refine ⟨fun f hf => ?_, fun e => error_ofText_none_cases, exists_ofText_none_iff⟩
  cases htail : limits.tail with
  | reject => exact Formula.header_eq_of_parse hf htail
  | ignore => exact Formula.header_prefix_of_parse hf

/-- The dropped letter is the last column, and the repeated one has its column already. -/
example :
    (Header.ofText ['B', '&', '(', 'A', '|', 'B', ')', ' ', 'C']).names = ['B', 'A', 'C'] :=
  rfl

end TruthTable
