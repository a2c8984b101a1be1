import RuleScript.Rule
import RuleScript.Span
import RuleScript.Text.Quoted

/-!
# Parse trees

A match leaves a forest: each node tells which rule matched, over which span, and what the rules
inside it left, in the order of matching.  Trees are shown on one line, as in `sum(num, num)`, or
as an outline with one node on each line.
-/

namespace RuleScript

/-- A node of a parse tree. -/
structure Node where
  rule : RuleId
  span : Span
  children : List Node

namespace Node

mutual

/-- Trees are equal when rules, spans and children are. -/
def decEq : (a b : Node) → Decidable (a = b)
  | ⟨rule, span, children⟩, ⟨rule', span', children'⟩ =>
    match decEqAll children children' with
    | isTrue h =>
      if h' : rule = rule' ∧ span = span' then isTrue (by rw [h, h'.1, h'.2])
      else isFalse fun e => h' ⟨congrArg Node.rule e, congrArg Node.span e⟩
    | isFalse h => isFalse fun e => h (congrArg Node.children e)

def decEqAll : (as bs : List Node) → Decidable (as = bs)
  | [], bs => inferInstanceAs (Decidable ([] = bs))
  | _ :: _, [] => isFalse (by simp)
  | a :: as, b :: bs =>
    match decEq a b, decEqAll as bs with
    | isTrue h, isTrue h' => isTrue (by rw [h, h'])
    | isFalse h, _ => isFalse fun e => h (List.cons.inj e).1
    | _, isFalse h => isFalse fun e => h (List.cons.inj e).2

end

instance : DecidableEq Node := decEq

instance : Inhabited Node := ⟨⟨default, default, []⟩⟩

/-- A node without children. -/
def leaf (rule : RuleId) (span : Span) : Node := ⟨rule, span, []⟩

def isLeaf (node : Node) : Bool := node.children.isEmpty

/-- The same node with its children dropped. -/
def withoutChildren (node : Node) : Node := leaf node.rule node.span

/-- The first child left by a rule. -/
def child? (node : Node) (rule : RuleId) : Option Node := node.children.find? (·.rule = rule)

mutual

/-- A node and everything below it, each node before what is below it. -/
def preorder : Node → List Node
  | ⟨rule, span, children⟩ => ⟨rule, span, children⟩ :: preorderAll children

/-- The nodes of a forest in the same order. -/
def preorderAll : List Node → List Node
  | [] => []
  | node :: rest => node.preorder ++ preorderAll rest

end

/-- How many nodes a tree has. -/
def size (node : Node) : Nat := node.preorder.length

/-! ## On one line -/

mutual

/-- A tree as the name of its root, with the subtrees between parentheses if there are any. -/
def expression (names : RuleId → String) : Node → String
  | ⟨rule, _, children⟩ =>
    match expressions names children with
    | [] => names rule
    | parts => names rule ++ "(" ++ ", ".intercalate parts ++ ")"

def expressions (names : RuleId → String) : List Node → List String
  | [] => []
  | node :: rest => node.expression names :: expressions names rest

end

/-- The trees of a forest, with commas between them. -/
def forestExpression (names : RuleId → String) (forest : List Node) : String :=
  ", ".intercalate (expressions names forest)

/-! ## As an outline -/

/-- How an outline is laid out. -/
structure OutlineStyle where
  /-- What a line starts with once for each level. -/
  indent : String := "  "
  /-- Whether each line shows the span of its node. -/
  showSpans : Bool := true

/-- One line of an outline.  Leaves show the text they cover, where it is known. -/
def outlineLine (style : OutlineStyle) (names : RuleId → String) (textOf : Span → Option String)
    (depth : Nat) (node : Node) : String :=
  let span := if style.showSpans then " " ++ node.span.text else ""
  let covered :=
    if node.isLeaf then
      match textOf node.span with
      | some text => " " ++ quoteText text
      | none => ""
    else ""
  String.join (List.replicate depth style.indent) ++ names node.rule ++ span ++ covered ++ "\n"

mutual

/-- The lines of the outline of a tree whose root is `depth` levels down. -/
def outlineLines (style : OutlineStyle) (names : RuleId → String)
    (textOf : Span → Option String) (depth : Nat) : Node → List String
  | ⟨rule, span, children⟩ =>
    outlineLine style names textOf depth ⟨rule, span, children⟩
      :: forestLines style names textOf (depth + 1) children

def forestLines (style : OutlineStyle) (names : RuleId → String)
    (textOf : Span → Option String) (depth : Nat) : List Node → List String
  | [] => []
  | node :: rest =>
    outlineLines style names textOf depth node ++ forestLines style names textOf depth rest

end

/-- The outline of a forest. -/
def outline (style : OutlineStyle) (names : RuleId → String) (textOf : Span → Option String)
    (forest : List Node) : String :=
  String.join (forestLines style names textOf 0 forest)

end Node

/-- The part of a sequence of characters that a span covers, unless it reaches past the end. -/
def textAt? (chars : Array Char) (span : Span) : Option String :=
  if span.stop ≤ chars.size then
    some (String.ofList (chars.extract span.start span.stop).toList)
  else none

end RuleScript
