import RuleScript.Match.Matcher
import RuleScript.Proofs.Match.Trail

/-!
# What alternatives contribute

The alternatives of an evaluation contribute operands, and pairs of an operator with its right
operand.  Here both are read off the alternatives one by one, in the order they are declared and by
the trails that lead from them.

A match searches instead, with a bounded number of steps, and keeps what it finds as a `ChainForm`.
The two agree in every graph: `Graph.readOperands_iff` and `Graph.readPairs_iff`.
-/

namespace RuleScript

open Match

section Reading

variable {α : Type} (g : Graph α)

/-- A trail leads from an alternative to an operator between two operands. -/
def Graph.IsBinary (alternative left operator right : RuleId) : Prop :=
  ∃ trail goal, g.Trail trail alternative goal ∧
    g.kind? goal = some (.sequence [left, operator, right])

/-- A trail leads from an operand back to the evaluation. -/
def Graph.LeadsBack (evaluation operand : RuleId) : Prop := ∃ trail, g.Trail trail operand evaluation

/-- The operand of a binary alternative is its left one; any other alternative is an operand. -/
inductive Graph.ContributesOperand (alternative : RuleId) : RuleId → Prop
  | left {left operator right : RuleId} (h : g.IsBinary alternative left operator right) :
    ContributesOperand alternative left
  | alone (h : ¬ g.LeadsToTriple alternative) : ContributesOperand alternative alternative

/-- All operands of some alternatives, but for those that lead back to the evaluation. -/
inductive Graph.ReadOperands (evaluation : RuleId) : List RuleId → List RuleId → Prop
  | nil : ReadOperands evaluation [] []
  | keep {alternative one : RuleId} {alternatives operands : List RuleId}
      (hone : g.ContributesOperand alternative one) (hback : ¬ g.LeadsBack evaluation one)
      (hrest : ReadOperands evaluation alternatives operands) :
    ReadOperands evaluation (alternative :: alternatives) (one :: operands)
  | leaveOut {alternative one : RuleId} {alternatives operands : List RuleId}
      (hone : g.ContributesOperand alternative one) (hback : g.LeadsBack evaluation one)
      (hrest : ReadOperands evaluation alternatives operands) :
    ReadOperands evaluation (alternative :: alternatives) operands

/-- What an operator takes on its right, where `operand` matches any operand of the chain. -/
inductive Graph.TakesRight (evaluation operand right : RuleId) : RuleId → Prop
  | any (hback : g.LeadsBack evaluation right) : TakesRight evaluation operand right operand
  | own (hback : ¬ g.LeadsBack evaluation right) : TakesRight evaluation operand right right

/-- Sequences for the operators of all binary alternatives with what they take on their right. -/
inductive Graph.ReadPairs (evaluation operand : RuleId) : List RuleId → List RuleId → Prop
  | nil : ReadPairs evaluation operand [] []
  | pair {alternative left operator right taken pair : RuleId} {alternatives pairs : List RuleId}
      (hbinary : g.IsBinary alternative left operator right)
      (htaken : g.TakesRight evaluation operand right taken)
      (hpair : g.kind? pair = some (.sequence [operator, taken]))
      (hrest : ReadPairs evaluation operand alternatives pairs) :
    ReadPairs evaluation operand (alternative :: alternatives) (pair :: pairs)
  | alone {alternative : RuleId} {alternatives pairs : List RuleId}
      (h : ¬ g.LeadsToTriple alternative) (hrest : ReadPairs evaluation operand alternatives pairs) :
    ReadPairs evaluation operand (alternative :: alternatives) pairs

end Reading

namespace Graph

variable {α : Type} {g : Graph α} {evaluation operand alternative left operator right : RuleId}
variable {alternatives operands pairs : List RuleId}

/-! ## The search finds the same -/

theorem isBinary_iff : g.IsBinary alternative left operator right ↔ ∃ binary,
    g.classify alternative = .binary binary ∧ binary.left = left ∧ binary.operator = operator ∧
      binary.right = right := by
  constructor
  · rintro ⟨trail, goal, htrail, hgoal⟩
    obtain ⟨rule, hrule⟩ := exists_identity_rule trail hgoal
    exact ⟨_, classify_eq_binary_iff_trail.mpr
      ⟨trail, goal, left, operator, right, _, rule, htrail, hgoal, rfl, hrule, rfl⟩, rfl, rfl, rfl⟩
  · rintro ⟨binary, hbinary, rfl, rfl, rfl⟩
    obtain ⟨trail, goal, left, operator, right, identity, rule, htrail, hgoal, -, -, rfl⟩ :=
      classify_eq_binary_iff_trail.mp hbinary
    exact ⟨trail, goal, htrail, hgoal⟩

theorem isBinary_of_classify {binary : BinaryOperator} (h : g.classify alternative = .binary binary) :
    g.IsBinary alternative binary.left binary.operator binary.right :=
  isBinary_iff.mpr ⟨binary, h, rfl, rfl, rfl⟩

theorem leadsToTriple_iff : g.LeadsToTriple alternative ↔
    ∃ left operator right, g.IsBinary alternative left operator right := by
  constructor
  · rintro ⟨trail, goal, left, operator, right, htrail, hgoal⟩
    exact ⟨left, operator, right, trail, goal, htrail, hgoal⟩
  · rintro ⟨left, operator, right, trail, goal, htrail, hgoal⟩
    exact ⟨trail, goal, left, operator, right, htrail, hgoal⟩

/-- An alternative that the search has no operator for leads to none. -/
theorem not_leadsToTriple_of_classify {id : RuleId} (h : g.classify alternative = .operand id) :
    ¬ g.LeadsToTriple alternative := by
  intro htriple
  obtain ⟨left, operator, right, hbinary⟩ := leadsToTriple_iff.mp htriple
  obtain ⟨binary, hclassify, -⟩ := isBinary_iff.mp hbinary
  rw [h] at hclassify
  cases hclassify

theorem contributesOperand_iff {one : RuleId} :
    g.ContributesOperand alternative one ↔ one = (g.classify alternative).operandRule := by
  constructor
  · intro h
    cases h with
    | left hbinary =>
        obtain ⟨binary, hclassify, rfl, -, -⟩ := isBinary_iff.mp hbinary
        rw [hclassify]
        rfl
    | alone hnone =>
        rw [classify_eq_operand_iff.mpr hnone]
        rfl
  · rintro rfl
    -- The search finds an operator or none, and the one case is the negation of the other.
    cases hclassify : g.classify alternative with
    | binary found => exact .left (isBinary_of_classify hclassify)
    | operand id =>
        have hnone := not_leadsToTriple_of_classify hclassify
        rw [classify_eq_operand_iff.mpr hnone] at hclassify
        cases hclassify
        exact .alone hnone

theorem leadsBack_iff {one : RuleId} : g.LeadsBack evaluation one ↔ g.leadsTo one evaluation :=
  leadsTo_iff_trail.symm

theorem takesRight_iff {taken : RuleId} : g.TakesRight evaluation operand right taken ↔
    taken = if g.leadsTo right evaluation then operand else right := by
  constructor
  · intro h
    cases h with
    | any hback => rw [if_pos (leadsBack_iff.mp hback)]
    | own hback => rw [if_neg (mt leadsBack_iff.mpr hback)]
  · rintro rfl
    split
    next hback => exact .any (leadsBack_iff.mpr hback)
    next hback => exact .own (mt leadsBack_iff.mp hback)

/-! ## Forms of chains -/

theorem operands_ofEvaluation_cons : (ChainForm.ofEvaluation g evaluation
      (alternative :: alternatives)).operands =
    if g.leadsTo (g.classify alternative).operandRule evaluation then
      (ChainForm.ofEvaluation g evaluation alternatives).operands
    else (g.classify alternative).operandRule ::
      (ChainForm.ofEvaluation g evaluation alternatives).operands := by
  simp only [ChainForm.ofEvaluation, List.map_cons, List.filter_cons]
  cases g.leadsTo (g.classify alternative).operandRule evaluation <;> rfl

theorem operators_ofEvaluation_of_binary {binary : BinaryOperator}
    (h : g.classify alternative = .binary binary) :
    (ChainForm.ofEvaluation g evaluation (alternative :: alternatives)).operators =
      binary :: (ChainForm.ofEvaluation g evaluation alternatives).operators := by
  simp only [ChainForm.ofEvaluation, List.map_cons, List.filterMap_cons, h]
  rfl

theorem operators_ofEvaluation_of_operand {id : RuleId} (h : g.classify alternative = .operand id) :
    (ChainForm.ofEvaluation g evaluation (alternative :: alternatives)).operators =
      (ChainForm.ofEvaluation g evaluation alternatives).operators := by
  simp only [ChainForm.ofEvaluation, List.map_cons, List.filterMap_cons, h]
  rfl

/-- The operands of a match are those that are read off the alternatives. -/
theorem readOperands_iff : g.ReadOperands evaluation alternatives operands ↔
    operands = (ChainForm.ofEvaluation g evaluation alternatives).operands := by
  constructor
  · intro h
    induction h with
    | nil => rfl
    | keep hone hback _ ih =>
        rw [contributesOperand_iff.mp hone, leadsBack_iff] at hback
        rw [operands_ofEvaluation_cons, if_neg hback, ← ih, ← contributesOperand_iff.mp hone]
    | leaveOut hone hback _ ih =>
        rw [contributesOperand_iff.mp hone, leadsBack_iff] at hback
        rw [operands_ofEvaluation_cons, if_pos hback, ← ih]
  · rintro rfl
    induction alternatives with
    | nil => exact .nil
    | cons alternative alternatives ih =>
        have hone := contributesOperand_iff.mpr (Eq.refl (g.classify alternative).operandRule)
        rw [operands_ofEvaluation_cons]
        split
        next hback => exact .leaveOut hone (leadsBack_iff.mpr hback) ih
        next hback => exact .keep hone (mt leadsBack_iff.mp hback) ih

/-- The pairs that are read off the alternatives are one for each operator of a match. -/
theorem readPairs_iff : g.ReadPairs evaluation operand alternatives pairs ↔
    List.Forall₂ (fun pair binary => g.kind? pair = some (.sequence [binary.operator,
        if g.leadsTo binary.right evaluation then operand else binary.right]))
      pairs (ChainForm.ofEvaluation g evaluation alternatives).operators := by
  constructor
  · intro h
    induction h with
    | nil => exact .nil
    | pair hbinary htaken hpair _ ih =>
        obtain ⟨binary, hclassify, -, rfl, rfl⟩ := isBinary_iff.mp hbinary
        rw [takesRight_iff.mp htaken] at hpair
        rw [operators_ofEvaluation_of_binary hclassify]
        exact .cons hpair ih
    | alone hnone _ ih =>
        rwa [operators_ofEvaluation_of_operand (classify_eq_operand_iff.mpr hnone)]
  · intro h
    -- What the search says of an alternative tells which of the two rules reads it.
    induction alternatives generalizing pairs with
    | nil =>
        cases h
        exact .nil
    | cons alternative alternatives ih =>
        cases hclassify : g.classify alternative with
        | binary found =>
            rw [operators_ofEvaluation_of_binary hclassify] at h
            cases h with
            | cons hpair hrest =>
                exact .pair (isBinary_of_classify hclassify) (takesRight_iff.mpr rfl) hpair (ih hrest)
        | operand id =>
            rw [operators_ofEvaluation_of_operand hclassify] at h
            exact .alone (not_leadsToTriple_of_classify hclassify) (ih h)

end Graph

end RuleScript
