/-!
# Runs between separators

Some characters of a text separate, and the others stand in runs between them. `CutsInto`
says what the runs of a text are without looking for them: separators are passed over, and a
run goes on until a separator comes or the text ends. So a run cannot be made longer on
either side.

A text has exactly one list of runs, the nonempty pieces that splitting at every separator
gives (`cutsInto_iff`). Whoever writes words with separators between them writes the text
that has these words for its runs (`cutsInto_intercalate`), whatever the separators, so long
as the words have none.
-/

namespace TruthTable

variable {α : Type} {p : α → Bool} {text rest gap : List α} {runs words : List (List α)}

/-- The text has these runs of elements without the property, in this order, between elements
that have it. -/
inductive CutsInto (p : α → Bool) : List α → List (List α) → Prop where
  | nil : CutsInto p [] []
  | skip {c : α} {rest : List α} {runs : List (List α)} :
      p c = true → CutsInto p rest runs → CutsInto p (c :: rest) runs
  | run {run rest : List α} {runs : List (List α)} :
      run ≠ [] → (∀ c ∈ run, p c = false) → (∀ c ∈ rest.head?, p c = true) →
      CutsInto p rest runs → CutsInto p (run ++ rest) (run :: runs)

namespace CutsInto

/-- A run takes in the element before it, unless that separates. -/
theorem exists_cons {c : α} (hc : p c = false) (h : CutsInto p text runs) :
    ∃ runs', CutsInto p (c :: text) runs' := by
  have hc' : ∀ x ∈ [c], p x = false := by simpa using hc
  cases h with
  | nil => exact ⟨_, .run (List.cons_ne_nil c []) hc' (by simp) .nil⟩
  | skip hd h => exact ⟨_, .run (List.cons_ne_nil c []) hc' (by simpa using hd) (.skip hd h)⟩
  | @run run rest runs _ hrun hrest h =>
      exact ⟨_, .run (List.cons_ne_nil c run) (List.forall_mem_cons.mpr ⟨hc, hrun⟩) hrest h⟩

theorem exists_runs (p : α → Bool) (text : List α) : ∃ runs, CutsInto p text runs := by
  induction text with
  | nil => exact ⟨_, .nil⟩
  | cons c text ih =>
      obtain ⟨runs, h⟩ := ih
      cases hc : p c with
      | true => exact ⟨_, .skip hc h⟩
      | false => exact exists_cons hc h

theorem splitOnP_filter (h : CutsInto p text runs) :
    (text.splitOnP p).filter (!·.isEmpty) = runs := by
  induction h with
  | nil => simp
  | skip hc _ ih => simp [List.splitOnP_cons_eq_if_modifyHead, hc, ih]
  | @run run rest runs hne hrun hrest _ ih =>
      have hrun' : (!run.isEmpty) = true := by simpa using hne
      cases rest with
      | nil =>
          obtain rfl : runs = [] := by simpa using ih.symm
          rw [List.append_nil, List.splitOnP_eq_singleton hrun]
          simp [hne]
      | cons c rest =>
          -- The text behind the run begins with a separator, and there the piece ends.
          have hc : p c = true := hrest c rfl
          rw [List.splitOnP_cons_eq_if_modifyHead, if_pos hc] at ih
          rw [List.splitOnP_append_cons_of_forall_mem hrun c hc, List.filter_cons,
            if_pos hrun']
          exact congrArg (run :: ·) ih

theorem skips (h : CutsInto p rest runs) (hgap : ∀ c ∈ gap, p c = true) :
    CutsInto p (gap ++ rest) runs := by
  induction gap with
  | nil => exact h
  | cons c gap ih =>
      obtain ⟨hc, hgap⟩ := List.forall_mem_cons.mp hgap
      exact .skip hc (ih hgap)

end CutsInto

/-- The runs of a text are the nonempty pieces between separators, and no other list is. -/
theorem cutsInto_iff :
    CutsInto p text runs ↔ (text.splitOnP p).filter (!·.isEmpty) = runs := by
  refine ⟨CutsInto.splitOnP_filter, ?_⟩
  rintro rfl
  obtain ⟨runs, h⟩ := CutsInto.exists_runs p text
  rwa [h.splitOnP_filter]

theorem CutsInto.unique {runs' : List (List α)} (h : CutsInto p text runs)
    (h' : CutsInto p text runs') : runs = runs' :=
  (cutsInto_iff.mp h).symm.trans (cutsInto_iff.mp h')

/-- Words written with separators between them can be found again. -/
theorem cutsInto_intercalate {sep : List α} (hsep : ∀ c ∈ sep, p c = true) (hne : sep ≠ [])
    (hwords : ∀ w ∈ words, w ≠ [] ∧ ∀ c ∈ w, p c = false) :
    CutsInto p (List.intercalate sep words) words := by
  induction words with
  | nil => exact .nil
  | cons w words ih =>
      obtain ⟨⟨hw, hletters⟩, hwords⟩ := List.forall_mem_cons.mp hwords
      cases words with
      | nil => simpa using CutsInto.run hw hletters (by simp) .nil
      | cons w' words =>
          obtain ⟨c, sep', rfl⟩ := List.exists_cons_of_ne_nil hne
          have hrest := (ih hwords).skips hsep
          rw [List.intercalate_cons_cons, List.append_assoc]
          exact .run hw hletters (by simpa using hsep c (List.mem_cons_self ..)) hrest

end TruthTable
