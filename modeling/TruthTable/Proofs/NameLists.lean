import Mathlib.Data.List.Nodup
import TruthTable.Header.Names
import TruthTable.Proofs.Runs

/-!
# Written lists of columns

A list of columns is read from the runs of its text between separators, and only from them:
how many separators there are, and which, does not matter. The runs are looked at twice. The
first time each must be a name, a single letter, and the first one that is not is the fault;
the second time, when all are names, no letter may come again, and the first that does is
the fault. So of a text with both kinds of fault the one of the first time is reported,
wherever it stands (`Header.parse_reads_runs`).

The written form of a header has a single space between its columns. Its columns may be any
characters, and the form does not show which: a space or a comma among them is read as a
separator, a digit as no name. For letters there is no such doubt, and what is written is
read back (`Header.parse_text_iff_letters`).
-/

namespace TruthTable

theorem FirstRepeat.map_iff {α β : Type} {f : α → β} (hf : Function.Injective f) {xs : List α}
    {x : α} : FirstRepeat (xs.map f) (f x) ↔ FirstRepeat xs x := by
  constructor
  · rintro ⟨before, after, heq, hnodup, hmem⟩
    obtain ⟨before, rest, rfl, rfl, hrest⟩ := List.map_eq_append_iff.mp heq
    obtain ⟨y, after, rfl, hy, rfl⟩ := List.map_eq_cons_iff.mp hrest
    obtain rfl := hf hy
    exact ⟨before, after, rfl, hnodup.of_map f, (List.mem_map_of_injective hf).mp hmem⟩
  · rintro ⟨before, after, rfl, hnodup, hmem⟩
    exact ⟨before.map f, after.map f, by rw [List.map_append, List.map_cons], hnodup.map hf,
      List.mem_map_of_mem hmem⟩

namespace Header

variable {text : List Char} {runs : List (List Char)} {h : Header}

theorem cutsInto_pieces (text : List Char) : CutsInto isSeparator text (pieces text) := by
  rw [cutsInto_iff, pieces, parts_eq_splitOnP]

theorem cutsInto_iff_pieces : CutsInto isSeparator text runs ↔ runs = pieces text :=
  ⟨fun h => h.unique (cutsInto_pieces text), fun h => h ▸ cutsInto_pieces text⟩

/-! ## What is read -/

theorem exists_names (hruns : ∀ r ∈ runs, IsName r) :
    ∃ xs : List Char, runs = xs.map ([·]) ∧ ∀ x ∈ xs, isLetter x = true := by
  induction runs with
  | nil => exact ⟨[], rfl, by simp⟩
  | cons r runs ih =>
      obtain ⟨⟨x, hx, rfl⟩, hrest⟩ := List.forall_mem_cons.mp hruns
      obtain ⟨xs, rfl, hxs⟩ := ih hrest
      exact ⟨x :: xs, rfl, List.forall_mem_cons.mpr ⟨hx, hxs⟩⟩

theorem names_or_first_other (runs : List (List Char)) :
    (∀ r ∈ runs, IsName r)
      ∨ ∃ before r after, runs = before ++ r :: after
          ∧ (∀ q ∈ before, IsName q) ∧ ¬IsName r := by
  induction runs with
  | nil => exact .inl (by simp)
  | cons r runs ih =>
      by_cases hr : IsName r
      · rcases ih with hall | ⟨before, r', after, rfl, hbefore, hr'⟩
        · exact .inl (List.forall_mem_cons.mpr ⟨hr, hall⟩)
        · have hnames := List.forall_mem_cons.mpr ⟨hr, hbefore⟩
          exact .inr ⟨r :: before, r', after, rfl, hnames, hr'⟩
      · exact .inr ⟨[], r, runs, rfl, by simp, hr⟩

theorem parse_eq_ok_iff :
    parse text = .ok h ↔ pieces text = h.names.map ([·]) ∧ ∀ x ∈ h, isLetter x = true := by
  constructor
  · intro hparse
    rcases names_or_first_other (pieces text)
      with hall | ⟨before, r, after, hpieces, hbefore, hr⟩
    · obtain ⟨xs, hpieces, hxs⟩ := exists_names hall
      rw [parse_of_names hpieces hxs, ofList_eq_ok_iff] at hparse
      subst hparse
      exact ⟨hpieces, hxs⟩
    · rw [parse_of_not_isName hpieces hbefore hr] at hparse
      cases hparse
  · rintro ⟨hpieces, hletters⟩
    rw [parse_of_names hpieces hletters, ofList_eq_ok_iff]

theorem parse_eq_error_iff {e : Fault} :
    parse text = .error e ↔
      (∃ before r after, pieces text = before ++ r :: after ∧ (∀ q ∈ before, IsName q)
          ∧ ¬IsName r ∧ e = .invalidName r)
        ∨ ((∀ r ∈ pieces text, IsName r)
          ∧ ∃ x, FirstRepeat (pieces text) [x] ∧ e = .duplicate x) := by
  constructor
  · intro hparse
    rcases names_or_first_other (pieces text)
      with hall | ⟨before, r, after, hpieces, hbefore, hr⟩
    · obtain ⟨xs, hpieces, hxs⟩ := exists_names hall
      rw [parse_of_names hpieces hxs, ofList_eq_error_iff] at hparse
      obtain ⟨x, hx, rfl⟩ := hparse
      have hrepeat := (FirstRepeat.map_iff List.singleton_injective).mpr hx
      exact .inr ⟨hall, x, hpieces ▸ hrepeat, rfl⟩
    · rw [parse_of_not_isName hpieces hbefore hr] at hparse
      exact .inl ⟨before, r, after, hpieces, hbefore, hr, (Except.error.inj hparse).symm⟩
  · rintro (⟨before, r, after, hpieces, hbefore, hr, rfl⟩ | ⟨hall, x, hx, rfl⟩)
    · exact parse_of_not_isName hpieces hbefore hr
    -- The first run to come again is the first letter to come again.
    · obtain ⟨xs, hpieces, hxs⟩ := exists_names hall
      rw [hpieces, FirstRepeat.map_iff List.singleton_injective] at hx
      rw [parse_of_names hpieces hxs, ofList_eq_error_iff]
      exact ⟨x, hx, rfl⟩

theorem exists_parse_eq_ok_iff :
    (∃ h, parse text = .ok h) ↔ (∀ r ∈ pieces text, IsName r) ∧ (pieces text).Nodup := by
  constructor
  · rintro ⟨h, hparse⟩
    obtain ⟨hpieces, hletters⟩ := parse_eq_ok_iff.mp hparse
    rw [hpieces]
    refine ⟨fun r hr => ?_, h.nodup.map List.singleton_injective⟩
    obtain ⟨x, hx, rfl⟩ := List.mem_map.mp hr
    exact ⟨x, hletters x hx, rfl⟩
  · rintro ⟨hall, hnodup⟩
    obtain ⟨xs, hpieces, hxs⟩ := exists_names hall
    rw [hpieces] at hnodup
    exact ⟨⟨xs, hnodup.of_map _⟩, parse_eq_ok_iff.mpr ⟨hpieces, hxs⟩⟩

/-- **A written list of columns is its runs.** A text has one list of runs between
separators. It is read if each run is a single letter and no run comes twice, and then the
columns are the runs in order. Otherwise the fault is the first run that is not a single
letter, even if a letter comes again before it; or, if every run is one, the letter that is
the first to come again. -/
theorem parse_reads_runs (text : List Char) :
    ∃ runs, (∀ runs', CutsInto isSeparator text runs' ↔ runs' = runs)
      ∧ ((∃ h, parse text = .ok h) ↔ (∀ r ∈ runs, IsName r) ∧ runs.Nodup)
      ∧ (∀ h, parse text = .ok h → h.names.map ([·]) = runs)
      ∧ ∀ e, parse text = .error e ↔
          (∃ before r after, runs = before ++ r :: after ∧ (∀ q ∈ before, IsName q)
              ∧ ¬IsName r ∧ e = .invalidName r)
            ∨ ((∀ r ∈ runs, IsName r) ∧ ∃ x, FirstRepeat runs [x] ∧ e = .duplicate x) :=
  ⟨pieces text, fun _ => cutsInto_iff_pieces, exists_parse_eq_ok_iff,
    fun _ hparse => (parse_eq_ok_iff.mp hparse).1.symm, fun _ => parse_eq_error_iff⟩

/-- The letter that comes twice is not reported: the last run is no name. -/
example : parse ['A', ' ', 'A', ',', ' ', 'B', 'C'] = .error (.invalidName ['B', 'C']) := rfl

/-! ## What is written -/

theorem isSeparator_of_isLetter {x : Char} (hx : isLetter x = true) :
    isSeparator x = false := by
  cases hsep : isSeparator x with
  | false => rfl
  | true =>
      simp only [isSeparator, Bool.or_eq_true, decide_eq_true_eq] at hsep
      rcases hsep with (rfl | rfl) | rfl <;> cases hx

theorem pieces_text (hletters : ∀ x ∈ h, isLetter x = true) :
    pieces h.text = h.names.map ([·]) := by
  have hwords : ∀ w ∈ h.names.map ([·]), w ≠ [] ∧ ∀ c ∈ w, isSeparator c = false := by
    intro w hw
    obtain ⟨x, hx, rfl⟩ := List.mem_map.mp hw
    refine ⟨List.cons_ne_nil x [], fun c hc => ?_⟩
    obtain rfl := List.mem_singleton.mp hc
    exact isSeparator_of_isLetter (hletters c hx)
  have hcuts : CutsInto isSeparator h.text (h.names.map ([·])) :=
    cutsInto_intercalate (by simp [isSeparator]) (by simp) hwords
  exact (cutsInto_iff_pieces.mp hcuts).symm

theorem parse_text_eq_ok_iff : parse h.text = .ok h ↔ ∀ x ∈ h, isLetter x = true :=
  ⟨fun hparse => (parse_eq_ok_iff.mp hparse).2,
    fun hletters => parse_eq_ok_iff.mpr ⟨pieces_text hletters, hletters⟩⟩

/-- **A written header is read back exactly if its columns are letters.** So it is whatever
the header was made from: the header of a written list and that of the letters of a text are
always read back, that of a given list of characters and that of a formula exactly if these
are letters. -/
theorem parse_text_iff_letters :
    (∀ h : Header, parse h.text = .ok h ↔ ∀ x ∈ h, isLetter x = true)
      ∧ (∀ xs h, ofList xs = .ok h → (parse h.text = .ok h ↔ ∀ x ∈ xs, isLetter x = true))
      ∧ (∀ text h, parse text = .ok h → parse h.text = .ok h)
      ∧ (∀ text, parse (ofText text).text = .ok (ofText text))
      ∧ ∀ f : Formula,
          parse f.header.text = .ok f.header ↔ ∀ x ∈ f.vars, isLetter x = true := by
  refine ⟨fun h => parse_text_eq_ok_iff, fun xs h hlist => ?_, fun text h hparse => ?_,
    fun text => ?_, fun f => ?_⟩
  · obtain rfl := ofList_eq_ok_iff.mp hlist
    exact parse_text_eq_ok_iff
  · exact parse_text_eq_ok_iff.mpr (parse_eq_ok_iff.mp hparse).2
  · exact parse_text_eq_ok_iff.mpr fun x hx => (mem_ofText.mp hx).2
  · rw [parse_text_eq_ok_iff]
    exact forall_congr' fun x => imp_congr_left mem_collect

/-- The comma is read as a separator, and the two columns left are not those that were
written. -/
example :
    (parse (Header.text ⟨['A', ',', 'B'], by decide⟩)).map Header.names =
      .ok ['A', 'B'] := rfl

end Header

end TruthTable
