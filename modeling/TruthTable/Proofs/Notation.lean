import TruthTable.Proofs.Parsing

/-!
# The usual notation is read back

`Formula.text` leaves out the parentheses that grouping to the left makes unnecessary. What it
writes derives the formula again, as a chain with one connective for each link of the left
side (`derives_text`), so the grammar says what the parser makes of it: the formula, if its
nesting is within the limit, and otherwise a sign that is too deep.

`Formula.nesting` follows the tree. Read along the left side it is what the depth counter
goes through: the operands of the chain from left to right, each as many levels down as there
are connectives before it (`nesting_eq_spine`).
-/

namespace TruthTable

namespace Formula

/-! ## The left side of a formula -/

/-- The operands of the chain that a formula is written as, from left to right. -/
def spine : Formula → List Formula
  | binary _ l r => l.spine ++ [r]
  | f => [f]

/-- The nesting of a formula that stands as an operand: parentheses add a level. -/
def operandNesting (f : Formula) : Nat := f.nesting + f.isBinary.toNat

theorem operandNesting_var (x : Char) : (var x).operandNesting = 0 := rfl

theorem operandNesting_neg (f : Formula) :
    (neg f).operandNesting = 1 + f.operandNesting := rfl

theorem operandNesting_binary (c : Connective) (l r : Formula) :
    (binary c l r).operandNesting = 1 + (binary c l r).nesting :=
  Nat.add_comm ..

theorem length_spine (f : Formula) : f.spine.length = f.links + 1 := by
  induction f with
  | var x => rfl
  | neg f _ => rfl
  | binary c l r ihl _ =>
      simp only [spine, links, List.length_append, ihl, List.length_singleton]

theorem nesting_eq_spine (f : Formula) :
    f.nesting = (f.spine.zipIdx.map fun (p, i) => i + p.operandNesting).foldl max 0 := by
  induction f with
  | var x => rfl
  | neg f _ => simp [spine, nesting, operandNesting, isBinary]
  | binary c l r ihl _ =>
      rw [spine, List.zipIdx_append, List.map_append, List.foldl_append, ← ihl, Nat.zero_add,
        length_spine]
      rfl

/-! ## What is written derives the formula -/

/-- A formula that is not binary is a chain of one operand, and one that is gets
parentheses. -/
theorem derives_enclose {f : Formula}
    (h : Derives (.chain f.links) f.text f f.nesting) :
    Derives .operand (f.enclose f.text) f f.operandNesting := by
  cases f with
  | var x =>
      rw [operandNesting_var]
      cases h with
      | single hx => exact hx
  | neg f =>
      rw [operandNesting_neg]
      cases h with
      | single hf => exact hf
  | binary c l r =>
      rw [operandNesting_binary]
      exact .group h

theorem derives_text {f : Formula} (h : ∀ x ∈ f.vars, isLetter x = true) :
    Derives (.chain f.links) f.text f f.nesting := by
  induction f with
  | var x => exact .single (.letter (h x (List.mem_singleton.mpr rfl)))
  | neg f ih => exact .single (.negation (derives_enclose (ih h)))
  | binary c l r ihl ihr =>
      have hl := ihl fun x hx => h x (List.mem_append_left _ hx)
      have hr := ihr fun x hx => h x (List.mem_append_right _ hx)
      exact .link c hl (derives_enclose hr)

theorem heads_text {f : Formula} (h : ∀ x ∈ f.vars, isLetter x = true) (tail : Tail) :
    Heads tail f.text f f.nesting := by
  have hw : Writes f.text f f.nesting := ⟨f.links, derives_text h⟩
  exact hw.heads tail

/-- **Writing, then reading, is the identity up to the limit.** The notation of a formula over
the letters is read back as that formula when its nesting is within the limit, and is too
deep otherwise; and the nesting is that of the operands on the left side, each below the
connectives before it. -/
theorem parse_text (limits : Limits) (f : Formula) (h : ∀ x ∈ f.vars, isLetter x = true) :
    (f.nesting ≤ limits.maxDepth → (parse limits f.text).outcome = .ok f)
      ∧ (limits.maxDepth < f.nesting →
          ∃ pos, (parse limits f.text).outcome = .error (.tooDeep pos limits.maxDepth))
      ∧ f.nesting = (f.spine.zipIdx.map fun (p, i) => i + p.operandNesting).foldl max 0 :=
  ⟨fun hn => parse_eq_ok_iff.mpr ⟨f.nesting, hn, heads_text h limits.tail⟩,
    (heads_text h limits.tail).parse_tooDeep limits, nesting_eq_spine f⟩

/-- `!(A\B)|(C&!D)`: the last letter is four levels down. -/
def enclosedBothSides : Formula :=
  binary .or (neg (binary .difference (var 'A') (var 'B')))
    (binary .and (var 'C') (neg (var 'D')))

theorem parse_text_enclosedBothSides :
    (∀ x ∈ enclosedBothSides.vars, isLetter x = true)
      ∧ (parse { maxDepth := 4 } enclosedBothSides.text).outcome = .ok enclosedBothSides
      ∧ ∃ pos, (parse { maxDepth := 3, tail := .ignore } enclosedBothSides.text).outcome =
          .error (.tooDeep pos 3) := by
  have hall : enclosedBothSides.vars.all isLetter = true := by rfl
  have hletters := List.all_eq_true.mp hall
  exact ⟨hletters, (parse_text { maxDepth := 4 } _ hletters).1 (by decide),
    (parse_text { maxDepth := 3, tail := .ignore } _ hletters).2.1 (by decide)⟩

end Formula

end TruthTable
