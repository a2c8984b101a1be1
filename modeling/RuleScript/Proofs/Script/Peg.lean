import RuleScript.Script.Compile

/-!
# What a script means

The body of a rule is a parsing expression.  `Scanned.peg` reads it off the tree that the grammar
leaves, brackets and all, without asking what the compiler makes of it: parentheses and markers stand
for nothing, everything else for what it says.  There is no such reading of an operator chain, which
is more than an expression, nor of a fatal log entry, which ends the match.

`Peg.Means` tells what an expression matches, given the declarations that names refer to.  As usual
for parsing expressions a choice is ordered, a repetition takes all it can, and nothing is tried
again.  An expression that comes back to itself without end means nothing at all.
-/

namespace RuleScript

/-- Whether a character belongs to an item of a set. -/
def SetItem.admits : SetItem → Char → Bool
  | .text chars, c => chars.toList.contains c
  | .range lo hi, c =>
    match lo.toList, hi.toList with
    | [first], [last] => first.toNat ≤ c.toNat && c.toNat ≤ last.toNat
    | _, _ => false

namespace Script

/-! ## Parsing expressions -/

/-- A parsing expression over characters. -/
inductive Peg where
  | name (name : String)
  | text (text : String)
  | oneOf (items : List SetItem)
  | any
  | sequence (parts : List Peg)
  | choice (alternatives : List Peg)
  | repetition (min : Nat) (max : Option Nat) (one : Peg)
  | not (one : Peg)
  | ahead (one : Peg)
  | skip (form : SkipForm) (stop : Peg)
  | log
  | logIf (guard : Peg)

/-- How far a skip goes that passed over some elements to a match of some length. -/
def SkipForm.reach : SkipForm → (passed len : Nat) → Nat
  | .find, passed, _ | .stopAt, passed, _ => passed
  | .stopAfter, passed, len => passed + len

/-- What a skip comes to that finds nothing in what is left of the input. -/
def SkipForm.atEnd : SkipForm → (rest : Nat) → Option Nat
  | .find, _ => none
  | .stopAt, rest | .stopAfter, rest => some rest

namespace Peg

section Meaning

variable (decls : String → Peg → Prop) (input : Array Char)

mutual

/-- What an expression comes to at a position: the length of its match, or none if it fails. -/
inductive Means : Peg → Nat → Option Nat → Prop
  | name {name : String} {body : Peg} {start : Nat} {verdict : Option Nat} (hdecl : decls name body)
      (h : Means body start verdict) : Means (.name name) start verdict
  | text {text : String} {start : Nat} :
      Means (.text text) start
        (if text.toList <+: input.toList.drop start then some text.toList.length else none)
  | oneOf {items : List SetItem} {start : Nat} :
      Means (.oneOf items) start
        (if input[start]?.any fun c => items.any (·.admits c) then some 1 else none)
  | any {start : Nat} : Means .any start (if start < input.size then some 1 else none)
  | sequence {parts : List Peg} {start : Nat} {verdict : Option Nat}
      (h : AllMean parts start verdict) : Means (.sequence parts) start verdict
  | choice {alternatives : List Peg} {start : Nat} {verdict : Option Nat}
      (h : FirstMeans alternatives start verdict) : Means (.choice alternatives) start verdict
  /-- As many matches as there may be. -/
  | repeatFull {one : Peg} {start min max len : Nat} (h : TimesMean one max start len) :
      Means (.repetition min (some max) one) start (if max < min then none else some len)
  /-- As many matches as there are. -/
  | repeatOver {one : Peg} {start min reps len : Nat} {max : Option Nat}
      (hroom : ∀ most ∈ max, reps < most) (h : TimesMean one reps start len)
      (hover : Means one (start + len) none) :
      Means (.repetition min max one) start (if reps < min then none else some len)
  | not {one : Peg} {start : Nat} {verdict : Option Nat} (h : Means one start verdict) :
      Means (.not one) start (if verdict.isSome then none else some 0)
  | ahead {one : Peg} {start : Nat} {verdict : Option Nat} (h : Means one start verdict) :
      Means (.ahead one) start (verdict.map fun _ => 0)
  /-- The first match of what is skipped to, perhaps at the end of the input. -/
  | skipFound {form : SkipForm} {stop : Peg} {start passed len : Nat}
      (hpassed : passed ≤ input.size - start)
      (hbefore : ∀ before < passed, Means stop (start + before) none)
      (hstop : Means stop (start + passed) (some len)) :
      Means (.skip form stop) start (some (form.reach passed len))
  | skipEnd {form : SkipForm} {stop : Peg} {start : Nat}
      (hnowhere : ∀ passed ≤ input.size - start, Means stop (start + passed) none) :
      Means (.skip form stop) start (form.atEnd (input.size - start))
  | log {start : Nat} : Means .log start (some 0)
  | logIf {guard : Peg} {start : Nat} {verdict : Option Nat} (h : Means guard start verdict) :
      Means (.logIf guard) start (some 0)

/-- Expressions that match one after the other, or the first of them that fails. -/
inductive AllMean : List Peg → Nat → Option Nat → Prop
  | nil {start : Nat} : AllMean [] start (some 0)
  | failure {part : Peg} {parts : List Peg} {start : Nat} (h : Means part start none) :
      AllMean (part :: parts) start none
  | success {part : Peg} {parts : List Peg} {start len : Nat} {verdict : Option Nat}
      (h : Means part start (some len)) (hrest : AllMean parts (start + len) verdict) :
      AllMean (part :: parts) start (verdict.map (len + ·))

/-- The first of some expressions that matches. -/
inductive FirstMeans : List Peg → Nat → Option Nat → Prop
  | nil {start : Nat} : FirstMeans [] start none
  | failure {part : Peg} {parts : List Peg} {start : Nat} {verdict : Option Nat}
      (h : Means part start none) (hrest : FirstMeans parts start verdict) :
      FirstMeans (part :: parts) start verdict
  | success {part : Peg} {parts : List Peg} {start len : Nat} (h : Means part start (some len)) :
      FirstMeans (part :: parts) start (some len)

/-- An expression that matches a number of times in a row, and how much in all. -/
inductive TimesMean : Peg → Nat → Nat → Nat → Prop
  | zero {one : Peg} {start : Nat} : TimesMean one 0 start 0
  | succ {one : Peg} {reps start len more : Nat} (h : TimesMean one reps start len)
      (hone : Means one (start + len) (some more)) : TimesMean one (reps + 1) start (len + more)

end

end Meaning

end Peg

/-! ## Reading a tree -/

namespace Part

mutual

/-- There is no operator chain and no fatal log entry in a part. -/
def isPlain : Part → Bool
  | ⟨kind, _, parts⟩ => kind ≠ .evaluation && kind ≠ .kwFatal && arePlain parts

def arePlain : List Part → Bool
  | [] => true
  | part :: rest => part.isPlain && arePlain rest

end

theorem arePlain_cons {part : Part} {rest : List Part} (h : arePlain (part :: rest)) :
    part.isPlain ∧ arePlain rest := by
  rw [arePlain, Bool.and_eq_true] at h
  exact h

theorem isPlain_mk {kind : NodeKind} {span : Span} {parts : List Part}
    (h : isPlain ⟨kind, span, parts⟩) : kind ≠ .evaluation ∧ kind ≠ .kwFatal ∧ arePlain parts := by
  simp only [isPlain, Bool.and_eq_true, decide_eq_true_eq] at h
  exact ⟨h.1.1, h.1.2, h.2⟩

theorem isPlain_first {kind : NodeKind} {span : Span} {first : Part} {rest : List Part}
    (h : isPlain ⟨kind, span, first :: rest⟩) : first.isPlain :=
  (arePlain_cons (isPlain_mk h).2.2).1

theorem isPlain_second {kind : NodeKind} {span : Span} {first second : Part} {rest : List Part}
    (h : isPlain ⟨kind, span, first :: second :: rest⟩) : second.isPlain :=
  (arePlain_cons (arePlain_cons (isPlain_mk h).2.2).2).1

end Part

namespace Scanned

variable (s : Scanned)

/-- The text of a string, its escapes read. -/
def text? (span : Span) : Option String :=
  match literalValue (s.lexeme span).text with
  | .ok text => some text
  | .error _ => none

/-- The number that digits stand for. -/
def number (span : Span) : Nat := decimal (s.lexeme span).text

/-- The item of a set that a part is. -/
def setItem? : Part → Option SetItem
  | ⟨_, _, [⟨.string, text, _⟩]⟩ => .text <$> s.text? text
  | ⟨_, _, [⟨.string, lo, _⟩, ⟨.string, hi, _⟩]⟩ => return .range (← s.text? lo) (← s.text? hi)
  | _ => none

/-- The least and, if there is one, the greatest number of repetitions. -/
def bounds? : Part → Option (Nat × Option Nat)
  | ⟨.star, _, _⟩ => some (0, none)
  | ⟨.plus, _, _⟩ => some (1, none)
  | ⟨.question, _, _⟩ => some (0, some 1)
  | ⟨.bounds, _, [⟨.integer, times, _⟩]⟩ => some (s.number times, some (s.number times))
  | ⟨.bounds, _, [⟨.integer, min, _⟩, ⟨.dotdot, _, _⟩]⟩ => some (s.number min, none)
  | ⟨.bounds, _, [⟨.integer, min, _⟩, ⟨.dotdot, _, _⟩, ⟨.integer, max, _⟩]⟩ =>
    some (s.number min, some (s.number max))
  | _ => none

/-- How the skip of a keyword ends. -/
def ending? : NodeKind → Option SkipForm
  | .kwFind => some .find
  | .kwStopAt => some .stopAt
  | .kwStopAfter => some .stopAfter
  | _ => none

mutual

/-- The parsing expression that a part is. -/
def peg : Part → Option Peg
  | ⟨.ident, span, _⟩ => some (.name (s.lexeme span).text)
  | ⟨.string, span, _⟩ => .text <$> s.text? span
  | ⟨.set, _, items⟩ => .oneOf <$> items.mapM s.setItem?
  | ⟨.dot, _, _⟩ => some .any
  | ⟨.group, _, parts⟩ => pegBody parts
  | ⟨.sequence, _, parts⟩ => .sequence <$> pegs parts
  | ⟨.unary, _, [operand]⟩ => peg operand
  | ⟨.unary, _, [⟨.prune, _, _⟩, operand]⟩ => peg operand
  | ⟨.count, _, [operator, operand]⟩ => do
    let (min, max) ← s.bounds? operator
    return .repetition min max (← peg operand)
  | ⟨.not, _, [operand]⟩ => .not <$> peg operand
  | ⟨.condition, _, [operand]⟩ => .ahead <$> peg operand
  | ⟨.skip, _, [⟨keyword, _, _⟩, operand]⟩ => return .skip (← ending? keyword) (← peg operand)
  | ⟨.log, _, [⟨keyword, _, _⟩, ⟨.string, _, _⟩]⟩ =>
    if keyword = .kwFatal then none else some .log
  | ⟨.log, _, [⟨keyword, _, _⟩, ⟨.string, _, _⟩, guard]⟩ =>
    if keyword = .kwFatal then none else .logIf <$> peg guard
  | _ => none

/-- The parsing expressions that some parts are. -/
def pegs : List Part → Option (List Peg)
  | [] => some []
  | part :: rest => return (← peg part) :: (← pegs rest)

/-- The parsing expression between parentheses, or after the equals sign of a rule. -/
def pegBody : List Part → Option Peg
  | [first] => peg first
  | [first, ⟨.choice, _, rest⟩] => return .choice ((← peg first) :: (← pegs rest))
  | _ => none

end

/-- The statement of a node declares a name with a body. -/
def DeclaresAt (node : Node) (name : String) (body : List Part) : Prop :=
  ∃ span place parts header,
    Part.ofNode node = .ok ⟨.rule, span, ⟨.header, place, parts⟩ :: body⟩ ∧
      s.header parts = .ok header ∧ header.name = name

/-- A statement of a script declares a name with a body. -/
def Declares (nodes : List Node) (name : String) (body : List Part) : Prop :=
  ∃ node ∈ statementNodes nodes, s.DeclaresAt node name body

/-- What the rules of a script declare. -/
def Decls (nodes : List Node) (name : String) (body : Peg) : Prop :=
  ∃ parts, s.Declares nodes name parts ∧ s.pegBody parts = some body

end Scanned

end Script

end RuleScript
