import Mathlib.Data.List.Induction
import TruthTable.Proofs.NameLists

/-!
# Columns stand once

The place of a variable among the columns is the bit that carries its value, so a variable
must not stand in two places, and what stands at a place must be found there again. Two
loops see to that, and each of the four ways to make a header runs one of them. Both take
the elements of a list in turn and look among those taken so far.

- `Header.extend` gives up at an element that it has already. It gets through exactly if the
  list has no repetition, and the element it stops at is the first to come again
  (`exists_firstRepeat_iff`).
- `Header.add` passes over such an element. One element more at the end of a list is one
  column more or none, in the header as in the list without its repetitions, so the two are
  the same (`Header.names_collect`).
-/

namespace TruthTable

/-- A list that is no header has a first element that comes again: the one that it fails
with. -/
theorem exists_firstRepeat_iff {xs : List Char} : (∃ x, FirstRepeat xs x) ↔ ¬xs.Nodup := by
  constructor
  · rintro ⟨x, hx⟩
    exact hx.not_nodup
  · intro hrepeats
    cases hlist : Header.ofList xs with
    | ok h =>
        obtain rfl := Header.ofList_eq_ok_iff.mp hlist
        exact absurd h.nodup hrepeats
    | error e =>
        obtain ⟨x, hx, -⟩ := Header.ofList_eq_error_iff.mp hlist
        exact ⟨x, hx⟩

namespace Header

theorem names_add_of_mem {h : Header} {x : Char} (hx : x ∈ h) :
    (h.add x).names = h.names := by
  rw [add, dif_pos hx]

theorem names_add_of_not_mem {h : Header} {x : Char} (hx : x ∉ h) :
    (h.add x).names = h.names ++ [x] := by
  rw [add, dif_neg hx]
  rfl

theorem names_collect (xs : List Char) : (collect xs).names = xs.eraseDups := by
  induction xs using List.reverseRecOn with
  | nil => rfl
  | append_singleton xs x ih =>
      have hlast : collect (xs ++ [x]) = (collect xs).add x := List.foldl_append ..
      rw [hlast, List.eraseDups_append, List.cons_removeAll, List.nil_removeAll, ← ih]
      by_cases hx : x ∈ xs
      · rw [names_add_of_mem (mem_collect.mpr hx)]
        simp [hx]
      · rw [names_add_of_not_mem fun h => hx (mem_collect.mp h)]
        simp [hx, List.eraseDups_cons]

theorem exists_ofList_error_iff {xs : List Char} :
    (∃ e, ofList xs = .error e) ↔ ¬xs.Nodup := by
  rw [← exists_firstRepeat_iff]
  constructor
  · rintro ⟨e, he⟩
    obtain ⟨x, hx, -⟩ := ofList_eq_error_iff.mp he
    exact ⟨x, hx⟩
  · rintro ⟨x, hx⟩
    exact ⟨_, ofList_eq_error_iff.mpr ⟨x, hx, rfl⟩⟩

/-- **Columns stand once, and are found where they stand.** A given list is a header if
nothing comes again in it, and otherwise fails with the element that is the first to come
again. A written list has its runs for columns, none of them twice. The header of a text has
the letters of the text and that of a formula its variables, in order and without those that
were there before. Whatever it was made from, a header has no column twice, and the place of
a variable is where that variable stands. -/
theorem columns_stand_once :
    (∀ xs h, ofList xs = .ok h → h.names = xs ∧ xs.Nodup)
      ∧ (∀ xs, (∃ e, ofList xs = .error e) ↔ ¬xs.Nodup)
      ∧ (∀ xs e, ofList xs = .error e ↔ ∃ x, FirstRepeat xs x ∧ e = .duplicate x)
      ∧ (∀ text h, parse text = .ok h → h.names.map ([·]) = pieces text ∧ (pieces text).Nodup)
      ∧ (∀ text, (ofText text).names = (text.filter isLetter).eraseDups)
      ∧ (∀ f : Formula, f.header.names = f.vars.eraseDups)
      ∧ ∀ h : Header, h.names.Nodup ∧ ∀ x j, h.index? x = some j ↔ h.get? j = some x := by
  refine ⟨fun xs h hlist => ?_, fun xs => exists_ofList_error_iff,
    fun xs e => ofList_eq_error_iff, fun text h hparse => ?_,
    fun text => names_collect _, fun f => names_collect _,
    fun h => ⟨h.nodup, fun x j => index?_eq_some_iff⟩⟩
  · obtain rfl := ofList_eq_ok_iff.mp hlist
    exact ⟨rfl, h.nodup⟩
  · exact ⟨(parse_eq_ok_iff.mp hparse).1.symm, (exists_parse_eq_ok_iff.mp ⟨h, hparse⟩).2⟩

end Header

end TruthTable
