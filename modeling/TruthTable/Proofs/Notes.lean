import TruthTable.Proofs.Evaluation
import TruthTable.Proofs.Parsing

/-!
# How far an evaluation went

The notes of an evaluation are made in three places with checks between them, and a note is
made as soon as the checks before it have passed. So they are the beginning of one fixed
sequence, and where it breaks off is what the outcome says.

- Reading makes its notes at the end. A text that is refused leaves none, however much of it
  was read; a text that is read leaves its formula, after a warning if lexemes are left over
  (`Formula.notes_parse`).
- A table notes its columns before they are counted, and its rows once there are not too
  many columns. Nothing is noted from there on: that a variable has no column is found only
  when the rows are marked (`Formula.notes_tabulate`).

What a journal shows of the notes are their lines, each with its level
(`Selection.lines_tell_progress`).
-/

namespace TruthTable

/-- The line that a note makes in a journal. -/
def Note.line (n : Note) : Level × String := (n.level, n.message)

theorem Note.line_eq_warn_iff {n : Note} {message : String} :
    n.line = (.warn, message) ↔
      ∃ pos, n = .ignoredTail pos
        ∧ message = "Ignoring trailing input from position " ++ toString pos := by
  constructor
  · intro h
    cases n with
    | ignoredTail pos => exact ⟨pos, rfl, (Prod.mk.inj h).2.symm⟩
    | read text f => cases (Prod.mk.inj h).1
    | columns header => cases (Prod.mk.inj h).1
    | rows count => cases (Prod.mk.inj h).1
  · rintro ⟨pos, rfl, rfl⟩
    rfl

/-- The warning that is due behind a formula: there is one if lexemes are left and may be. -/
def Reader.warning? (r : Reader) : Tail → Option Note
  | .reject => none
  | .ignore => r.rest.head?.map fun t => .ignoredTail t.pos

theorem Reader.ignoredTail_mem_warning?_iff {r : Reader} {tail : Tail} {pos : Nat} :
    .ignoredTail pos ∈ r.warning? tail ↔
      tail = .ignore ∧ ∃ t rest, r.rest = t :: rest ∧ t.pos = pos := by
  cases tail with
  | reject => simp [warning?]
  | ignore => cases hrest : r.rest <;> simp [warning?, hrest]

theorem Reader.map_line_warning? (r : Reader) (tail : Tail) :
    (r.warning? tail).toList.map Note.line =
      match tail, r.rest with
      | .ignore, t :: _ =>
          [(.warn, "Ignoring trailing input from position " ++ toString t.pos)]
      | _, _ => [] := by
  cases tail with
  | reject => rfl
  | ignore =>
      rw [warning?]
      cases r.rest <;> rfl

namespace Formula

variable {limits : Limits} {text : List Char} {header : Header} {f : Formula}

/-- The reader of a text after its first request for a formula. -/
def behind (limits : Limits) (text : List Char) : Reader :=
  (Reader.ofText limits.maxDepth text).formula.2

/-! ## Reading -/

theorem notes_parse_of_error {e : ReadFault} (h : (parse limits text).outcome = .error e) :
    (parse limits text).notes = [] := by
  rw [parse_eq] at h ⊢
  cases hout : (halt limits text).outcome with
  | error e => rfl
  | ok f =>
      rw [hout] at h
      cases hrest : (halt limits text).rest with
      | nil =>
          rw [hrest] at h
          cases h
      | cons t rest =>
          rw [hrest] at h
          cases htail : limits.tail with
          | reject => rfl
          | ignore =>
              rw [htail] at h
              cases h

theorem notes_parse (h : (parse limits text).outcome = .ok f) :
    (parse limits text).notes =
      ((behind limits text).warning? limits.tail).toList ++ [.read text f] := by
  obtain ⟨hok, htail⟩ := parse_eq_ok_iff_halt.mp h
  have hrest : (behind limits text).rest = (halt limits text).rest := rfl
  rw [parse_eq, hok]
  cases hlimits : limits.tail with
  | reject =>
      rw [htail hlimits]
      rfl
  | ignore =>
      rw [Reader.warning?, hrest]
      cases (halt limits text).rest <;> rfl

/-! ## Tabulating -/

theorem notes_tabulate_of_narrow (hallowed : header.size ≤ limits.maxVariables)
    (hnarrow : header.size ≤ maxColumns) :
    (f.tabulate limits header).notes = [.columns header, .rows (2 ^ header.size)] := by
  have hsize : (⟨header, hnarrow⟩ : Table).size = 2 ^ header.size := Table.size_eq_two_pow _
  rw [tabulate_eq, if_neg (Nat.not_lt.mpr hallowed), Table.ofHeader_of_size_le hnarrow,
    ← hsize]

/-- Only too many columns keep the rows from being noted. -/
theorem notes_tabulate (limits : Limits) (header : Header) (f : Formula) :
    (f.tabulate limits header).notes =
      .columns header ::
        match (f.tabulate limits header).outcome with
        | .error (.tooMany _ _) => []
        | _ => [.rows (2 ^ header.size)] := by
  rcases Nat.lt_or_ge limits.maxVariables header.size with hmany | hallowed
  · rw [tabulate_eq, if_pos hmany]
  rcases Nat.lt_or_ge maxColumns header.size with hwide | hnarrow
  · rw [tabulate_eq, if_neg (Nat.not_lt.mpr hallowed), Table.ofHeader_of_lt_size hwide]
  have hnotes := notes_tabulate_of_narrow (f := f) hallowed hnarrow
  cases hmissing : f.missing? header with
  | some x => rw [hnotes, outcome_tabulate_of_missing hallowed hnarrow hmissing]
  | none =>
      obtain ⟨s, hs, -⟩ := exists_outcome_tabulate hallowed hnarrow hmissing
      rw [hnotes, hs]

end Formula

/-! ## Evaluating -/

namespace Selection

variable {limits : Limits} {text : List Char} {header? : Option Header}

theorem notes_ofText_of_error {e : ReadFault}
    (h : (Formula.parse limits text).outcome = .error e) :
    (ofText limits text header?).notes = [] := by
  have hmis : ((Formula.parse limits text).mapError Fault.misread).outcome =
      .error (.misread e) := by rw [Logged.mapError, h]; rfl
  rw [ofText, Logged.notes_bind_error hmis]
  exact Formula.notes_parse_of_error h

theorem notes_ofText_of_ok {f : Formula} (h : (Formula.parse limits text).outcome = .ok f) :
    (ofText limits text header?).notes =
      ((Formula.behind limits text).warning? limits.tail).toList ++ .read text f ::
        (f.tabulate limits (header?.getD (Header.ofText text))).notes := by
  have hok : ((Formula.parse limits text).mapError Fault.misread).outcome = .ok f := by
    rw [Logged.mapError, h]; rfl
  have hread : ((Formula.parse limits text).mapError Fault.misread).notes =
      ((Formula.behind limits text).warning? limits.tail).toList ++ [.read text f] :=
    Formula.notes_parse h
  rw [ofText, Logged.notes_bind_ok hok, hread, List.append_assoc, List.singleton_append]

/-- Behind a formula the notes are those of the table, and its outcome is the one of the
evaluation. -/
theorem notes_ofText {f : Formula} (h : (Formula.parse limits text).outcome = .ok f) :
    (ofText limits text header?).notes =
      ((Formula.behind limits text).warning? limits.tail).toList ++ .read text f ::
        .columns (header?.getD (Header.ofText text)) ::
          match (ofText limits text header?).outcome with
          | .error (.tooMany _ _) => []
          | _ => [.rows (2 ^ (header?.getD (Header.ofText text)).size)] := by
  have hout : (ofText limits text header?).outcome =
      (f.tabulate limits (header?.getD (Header.ofText text))).outcome := by
    rw [outcome_ofText, h]
  rw [notes_ofText_of_ok h, Formula.notes_tabulate, hout]

theorem ignoredTail_mem_notes_iff {f : Formula} {pos : Nat}
    (h : (Formula.parse limits text).outcome = .ok f) :
    .ignoredTail pos ∈ (ofText limits text header?).notes ↔
      limits.tail = .ignore
        ∧ ∃ t rest, (Formula.behind limits text).rest = t :: rest ∧ t.pos = pos := by
  have hothers : .ignoredTail pos ∉ Note.read text f ::
      (f.tabulate limits (header?.getD (Header.ofText text))).notes := by
    rw [Formula.notes_tabulate]
    split <;> simp
  rw [notes_ofText_of_ok h, List.mem_append, or_iff_left hothers, Option.mem_toList]
  exact Reader.ignoredTail_mem_warning?_iff

/-- A line that warns is that of a note about the lexemes left over. -/
theorem warn_mem_lines_iff {f : Formula} {message : String}
    (h : (Formula.parse limits text).outcome = .ok f) :
    (Level.warn, message) ∈ (ofText limits text header?).notes.map Note.line ↔
      limits.tail = .ignore ∧ ∃ t rest, (Formula.behind limits text).rest = t :: rest
        ∧ message = "Ignoring trailing input from position " ++ toString t.pos := by
  rw [List.mem_map]
  constructor
  · rintro ⟨n, hn, hline⟩
    obtain ⟨pos, rfl, rfl⟩ := Note.line_eq_warn_iff.mp hline
    obtain ⟨htail, t, rest, hrest, rfl⟩ := (ignoredTail_mem_notes_iff h).mp hn
    exact ⟨htail, t, rest, hrest, rfl⟩
  · rintro ⟨htail, t, rest, hrest, rfl⟩
    have hmem : .ignoredTail t.pos ∈ (ofText limits text header?).notes :=
      (ignoredTail_mem_notes_iff h).mpr ⟨htail, t, rest, hrest, rfl⟩
    exact ⟨.ignoredTail t.pos, hmem, rfl⟩

/-- **The journal tells how far an evaluation went.** It warns of the first lexeme left
over, exactly if the tail is ignored and a formula was read with lexemes left. Then come the
formula that was read, the columns in use and the number of rows, in this order, each once.
A text that is no formula leaves no line at all, not even a warning; with too many columns,
by either limit, the line of the rows is missing; a variable without a column and a result
leave every line. -/
theorem lines_tell_progress (limits : Limits) (text : List Char) (header? : Option Header) :
    let evaluation := ofText limits text header?
    let lines := evaluation.notes.map Note.line
    let header := header?.getD (Header.ofText text)
    let left := (Reader.ofText limits.maxDepth text).formula.2.rest
    let warnings := match limits.tail, left with
      | .ignore, t :: _ =>
          [(Level.warn, "Ignoring trailing input from position " ++ toString t.pos)]
      | _, _ => []
    let read (f : Formula) :=
      (Level.trace, "Parsed '" ++ String.ofList text ++ "' as " ++ String.ofList f.text)
    let columns := (Level.debug, "Operands: " ++ String.ofList header.text)
    let rows := (Level.trace, "Universe of " ++ toString (2 ^ header.size) ++ " assignments")
    (∀ message, (Level.warn, message) ∈ lines ↔
        limits.tail = .ignore ∧ (∃ f, (Formula.parse limits text).outcome = .ok f)
          ∧ ∃ t rest, left = t :: rest
            ∧ message = "Ignoring trailing input from position " ++ toString t.pos)
      ∧ match evaluation.outcome with
        | .error (.misread e) => (Formula.parse limits text).outcome = .error e ∧ lines = []
        | .error (.tooMany _ _) =>
            ∃ f, (Formula.parse limits text).outcome = .ok f
              ∧ lines = warnings ++ [read f, columns]
        | .error (.undefined _) | .ok _ =>
            ∃ f, (Formula.parse limits text).outcome = .ok f
              ∧ lines = warnings ++ [read f, columns, rows]
        | .error (.invalidName _) | .error (.duplicate _) => False := by
  intro evaluation lines header left warnings read columns rows
  cases hparse : (Formula.parse limits text).outcome with
  | error e =>
      have hlines : lines = [] := congrArg (List.map Note.line) (notes_ofText_of_error hparse)
      have hout : evaluation.outcome = .error (.misread e) := by
        rw [outcome_ofText, hparse]
      rw [hlines, hout]
      exact ⟨fun message => by simp, rfl, rfl⟩
  | ok f =>
      have hlines : lines = warnings ++ read f :: columns ::
          match evaluation.outcome with
          | .error (.tooMany _ _) => []
          | _ => [rows] := by
        show evaluation.notes.map Note.line = _
        rw [notes_ofText hparse, List.map_append, Reader.map_line_warning?]
        cases evaluation.outcome with
        | ok s => rfl
        | error e => cases e <;> rfl
      refine ⟨fun message => ?_, ?_⟩
      · rw [warn_mem_lines_iff hparse]
        exact and_congr_right fun _ => (and_iff_right ⟨f, rfl⟩).symm
      · rw [hlines]
        cases hres : evaluation.outcome with
        | ok s => exact ⟨f, rfl, rfl⟩
        | error e =>
            rw [outcome_ofText, hparse] at hres
            rcases Formula.error_tabulate_cases hres with ⟨limit, rfl⟩ | ⟨x, rfl⟩
            · exact ⟨f, rfl, rfl⟩
            · exact ⟨f, rfl, rfl⟩

/-- A closing parenthesis is left over, and the letter has no column. -/
example :
    (ofText { tail := .ignore } ['A', ')'] (some ⟨['B'], by decide⟩)).notes =
      [.ignoredTail 1, .read ['A', ')'] (.var 'A'), .columns ⟨['B'], by decide⟩,
        .rows 2] := rfl

end Selection

end TruthTable
