import TruthTable.Fault
import TruthTable.Formula.Basic
import TruthTable.Lexeme

/-!
# Table headers

A header is the ordered list of the variables of a truth table, one for each column,
without repetition. The place of a variable is the bit that carries its value in the
number of a row.

A header is built in three ways: verbatim from a list, which must not repeat itself
(`ofList`); from the letters of a text (`ofText`); and from the variables of a
formula (`Formula.header`). The last two keep first occurrences (`collect`).
-/

namespace TruthTable

/-- A list says `x` again, after distinct elements among which `x` is: no element is said a
second time before it. -/
def FirstRepeat {α : Type} (xs : List α) (x : α) : Prop :=
  ∃ before after, xs = before ++ x :: after ∧ before.Nodup ∧ x ∈ before

namespace FirstRepeat

variable {α : Type} {xs : List α} {x y : α}

theorem not_nodup (h : FirstRepeat xs x) : ¬xs.Nodup := by
  obtain ⟨before, after, rfl, -, hmem⟩ := h
  exact fun hnodup => (List.nodup_append.mp hnodup).2.2 x hmem x (List.mem_cons_self ..) rfl

/-- Of two beginnings the longer one would say again what comes after the shorter one. -/
theorem unique (hx : FirstRepeat xs x) (hy : FirstRepeat xs y) : x = y := by
  obtain ⟨before, after, rfl, hnodup, hmem⟩ := hx
  obtain ⟨before', after', heq, hnodup', hmem'⟩ := hy
  rcases List.append_eq_append_iff.mp heq with ⟨gap, rfl, hgap⟩ | ⟨gap, rfl, hgap⟩
  · cases gap with
    | nil => exact (List.cons.inj hgap).1
    | cons z gap =>
        obtain rfl := (List.cons.inj hgap).1
        exact absurd hnodup' (not_nodup ⟨before, gap, rfl, hnodup, hmem⟩)
  · cases gap with
    | nil => exact (List.cons.inj hgap).1.symm
    | cons z gap =>
        obtain rfl := (List.cons.inj hgap).1
        exact absurd hnodup (not_nodup ⟨before', gap, rfl, hnodup', hmem'⟩)

end FirstRepeat

/-- The distinct variables of a table, in the order of its columns. -/
structure Header where
  names : List Char
  nodup : names.Nodup
deriving DecidableEq, Repr

namespace Header

theorem ext {h h' : Header} (hnames : h.names = h'.names) : h = h' := by
  cases h
  cases h'
  cases hnames
  rfl

def empty : Header := ⟨[], .nil⟩

def size (h : Header) : Nat := h.names.length

/-- The number of ways to give every column a truth value. -/
def rowCount (h : Header) : Nat := 1 <<< h.size

instance : Membership Char Header where
  mem h x := x ∈ h.names

instance (x : Char) (h : Header) : Decidable (x ∈ h) :=
  inferInstanceAs (Decidable (x ∈ h.names))

theorem mem_def {x : Char} {h : Header} : x ∈ h ↔ x ∈ h.names := Iff.rfl

def index? (h : Header) (x : Char) : Option Nat := h.names.idxOf? x

def get? (h : Header) (j : Nat) : Option Char := h.names[j]?

theorem index?_eq_none_iff {h : Header} {x : Char} : h.index? x = none ↔ x ∉ h :=
  List.idxOf?_eq_none_iff

/-- The column of a variable is the place where it stands: names do not repeat, so it
stands in one place only. -/
theorem index?_eq_some_iff {h : Header} {x : Char} {j : Nat} :
    h.index? x = some j ↔ h.get? j = some x := by
  rw [index?, get?, List.idxOf?_eq_some_iff, List.getElem?_eq_some_iff]
  constructor
  · rintro ⟨hj, hx, -⟩
    exact ⟨hj, hx⟩
  · rintro ⟨hj, hx⟩
    refine ⟨hj, hx, fun k hk hkx => Nat.ne_of_lt hk ?_⟩
    exact (List.getElem_inj h.nodup).mp (hkx.trans hx.symm)

theorem lt_size_of_index? {h : Header} {x : Char} {j : Nat} (hj : h.index? x = some j) :
    j < h.size :=
  (List.getElem?_eq_some_iff.mp (index?_eq_some_iff.mp hj)).1

/-- A further column, for a variable that has none yet. -/
def push (h : Header) (x : Char) (hx : x ∉ h) : Header where
  names := h.names ++ [x]
  nodup := by
    rw [List.nodup_append]
    refine ⟨h.nodup, by simp, ?_⟩
    rintro a ha b hb rfl
    exact hx (List.mem_singleton.mp hb ▸ ha)

@[simp] theorem mem_push {h : Header} {x y : Char} {hx : x ∉ h} :
    y ∈ h.push x hx ↔ y ∈ h ∨ y = x := by
  simp [mem_def, push]

/-- A column for a variable, unless it has one. -/
def add (h : Header) (x : Char) : Header :=
  if hx : x ∈ h then h else h.push x hx

@[simp] theorem mem_add {h : Header} {x y : Char} : y ∈ h.add x ↔ y ∈ h ∨ y = x := by
  unfold add
  split
  · next hx => exact ⟨.inl, fun hy => hy.elim id (· ▸ hx)⟩
  · exact mem_push

/-- The columns of `h`, then those of `xs` in turn, or the first variable that comes
a second time. -/
def extend (h : Header) : List Char → Except Fault Header
  | [] => .ok h
  | x :: xs => if hx : x ∈ h then .error (.duplicate x) else (h.push x hx).extend xs

/-- The header with exactly the given columns, whatever their characters. -/
def ofList (xs : List Char) : Except Fault Header := empty.extend xs

theorem extend_eq_ok_iff {h h' : Header} {xs : List Char} :
    h.extend xs = .ok h' ↔ h'.names = h.names ++ xs := by
  induction xs generalizing h with
  | nil =>
      rw [extend, List.append_nil]
      exact ⟨fun heq => Except.ok.inj heq ▸ rfl, fun hnames => congrArg _ (ext hnames.symm)⟩
  | cons x xs ih =>
      rw [extend]
      split
      · next hx =>
        refine ⟨nofun, fun hnames => ?_⟩
        have hrepeat : FirstRepeat h'.names x := ⟨h.names, xs, hnames, h.nodup, hx⟩
        exact absurd h'.nodup hrepeat.not_nodup
      · rw [ih, push, List.append_assoc, List.singleton_append]

theorem extend_eq_error_iff {h : Header} {xs : List Char} {e : Fault} :
    h.extend xs = .error e ↔ ∃ x, FirstRepeat (h.names ++ xs) x ∧ e = .duplicate x := by
  induction xs generalizing h with
  | nil =>
      rw [extend, List.append_nil]
      refine ⟨nofun, ?_⟩
      rintro ⟨x, hx, -⟩
      exact absurd h.nodup hx.not_nodup
  | cons x xs ih =>
      rw [extend]
      split
      · next hx =>
        have hrepeat : FirstRepeat (h.names ++ x :: xs) x := ⟨h.names, xs, rfl, h.nodup, hx⟩
        constructor
        · exact fun heq => ⟨x, hrepeat, (Except.error.inj heq).symm⟩
        · rintro ⟨y, hy, rfl⟩
          rw [hrepeat.unique hy]
      · rw [ih, push, List.append_assoc, List.singleton_append]

theorem ofList_eq_ok_iff {xs : List Char} {h : Header} : ofList xs = .ok h ↔ h.names = xs :=
  extend_eq_ok_iff

theorem ofList_eq_error_iff {xs : List Char} {e : Fault} :
    ofList xs = .error e ↔ ∃ x, FirstRepeat xs x ∧ e = .duplicate x :=
  extend_eq_error_iff

/-- A column for each character of a list, in the order of first occurrence. -/
def collect (xs : List Char) : Header := xs.foldl add empty

/-- A column for each letter of a text, in the order of first occurrence. The text
need not be a formula. -/
def ofText (text : List Char) : Header := collect (text.filter isLetter)

theorem names_prefix_add (h : Header) (x : Char) : h.names <+: (h.add x).names := by
  unfold add
  split
  · exact List.prefix_refl _
  · exact List.prefix_append h.names [x]

theorem names_prefix_foldl_add (h : Header) (xs : List Char) :
    h.names <+: (xs.foldl add h).names := by
  induction xs generalizing h with
  | nil => exact List.prefix_refl _
  | cons x xs ih => exact (names_prefix_add h x).trans (ih (h.add x))

/-- What comes later adds columns behind those there are. -/
theorem names_collect_prefix (xs ys : List Char) :
    (collect xs).names <+: (collect (xs ++ ys)).names := by
  rw [collect, collect, List.foldl_append]
  exact names_prefix_foldl_add _ ys

theorem mem_foldl_add {h : Header} {x : Char} {xs : List Char} :
    x ∈ xs.foldl add h ↔ x ∈ h ∨ x ∈ xs := by
  induction xs generalizing h with
  | nil => simp
  | cons y xs ih => rw [List.foldl_cons, ih, mem_add, List.mem_cons, or_assoc]

theorem mem_collect {x : Char} {xs : List Char} : x ∈ collect xs ↔ x ∈ xs := by
  rw [collect, mem_foldl_add]
  exact or_iff_right List.not_mem_nil

theorem mem_ofText {x : Char} {text : List Char} :
    x ∈ ofText text ↔ x ∈ text ∧ isLetter x = true := by
  rw [ofText, mem_collect, List.mem_filter]

/-- The beginning of a text has the first columns of it. -/
theorem names_ofText_take_prefix (text : List Char) (n : Nat) :
    (ofText (text.take n)).names <+: (ofText text).names := by
  have hletters : text.filter isLetter =
      (text.take n).filter isLetter ++ (text.drop n).filter isLetter := by
    rw [← List.filter_append, List.take_append_drop]
  rw [ofText, ofText, hletters]
  exact names_collect_prefix _ _

/-- The variables, separated by spaces. -/
def text (h : Header) : List Char := List.intercalate [' '] (h.names.map ([·]))

end Header

/-- A column for each variable of a formula, from left to right. -/
def Formula.header (f : Formula) : Header := .collect f.vars

end TruthTable
