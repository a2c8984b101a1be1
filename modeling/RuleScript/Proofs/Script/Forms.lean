import RuleScript.Proofs.Script.Declaring
import RuleScript.Script.Statement

/-!
# The forms that expressions are read from

Reading an expression takes a part apart by its form, and a form that is not foreseen is an error.  What
is left are the forms below, one constructor for each (`Scanned.Makes`).  Whatever is to be shown of all
expressions that are read can be shown form by form (`Scanned.makes_of_expression`).
-/

namespace RuleScript.Script.Scanned

section Makes

variable (s : Scanned)

mutual

/-- A part makes an expression. -/
inductive Makes : Part → Expression → Prop
  | group {span : Span} {parts : List Part} {e : Expression} (h : BodyMakes parts e) :
      Makes ⟨.group, span, parts⟩ e
  /-- A sequence of one part is that part. -/
  | only {span : Span} {part : Part} {e : Expression} (h : Makes part e) :
      Makes ⟨.sequence, span, [part]⟩ e
  | sequence {span : Span} {parts : List Part} {es : List Expression} (h : AllMake parts es) :
      Makes ⟨.sequence, span, parts⟩ (.sequence es)
  | unary {span : Span} {operand : Part} {e : Expression} (h : Makes operand e) :
      Makes ⟨.unary, span, [operand]⟩ e
  | pruned {span marker : Span} {parts : List Part} {operand : Part} {pruning : Pruning}
      {e : Expression} (hpruning : s.pruning marker = .ok pruning) (h : Makes operand e) :
      Makes ⟨.unary, span, [⟨.prune, marker, parts⟩, operand]⟩ (.pruned pruning e)
  | repetition {span : Span} {operator operand : Part} {form : RepetitionForm} {e : Expression}
      (hform : s.repetition operator = .ok form) (h : Makes operand e) :
      Makes ⟨.count, span, [operator, operand]⟩ (.repetition form e)
  | not {span : Span} {operand : Part} {e : Expression} (h : Makes operand e) :
      Makes ⟨.not, span, [operand]⟩ (.not e)
  | condition {span : Span} {operand : Part} {e : Expression} (h : Makes operand e) :
      Makes ⟨.condition, span, [operand]⟩ (.condition e)
  | skip {span place : Span} {keyword : NodeKind} {parts : List Part} {operand : Part}
      {form : SkipForm} {e : Expression} (hform : skipForm keyword = .ok form)
      (h : Makes operand e) :
      Makes ⟨.skip, span, [⟨keyword, place, parts⟩, operand]⟩ (.skip form e)
  | log {span place message : Span} {keyword : NodeKind} {parts content : List Part}
      {level : Severity} (hlevel : severity keyword = .ok level) :
      Makes ⟨.log, span, [⟨keyword, place, parts⟩, ⟨.string, message, content⟩]⟩
        (.log level (s.lexeme message))
  | logIf {span place message : Span} {keyword : NodeKind} {parts content : List Part}
      {level : Severity} {guard : Part} {e : Expression} (hlevel : severity keyword = .ok level)
      (h : Makes guard e) :
      Makes ⟨.log, span, [⟨keyword, place, parts⟩, ⟨.string, message, content⟩, guard]⟩
        (.logIf level (s.lexeme message) e)
  | set {span : Span} {items : List Part} {forms : List ItemForm}
      (hforms : items.mapM s.item = .ok forms) :
      Makes ⟨.set, span, items⟩ (.set forms (s.location span))
  | string {span : Span} {parts : List Part} :
      Makes ⟨.string, span, parts⟩ (.string (s.lexeme span))
  | dot {span : Span} {parts : List Part} : Makes ⟨.dot, span, parts⟩ .dot
  | name {span : Span} {parts : List Part} :
      Makes ⟨.ident, span, parts⟩ (.name (s.lexeme span).text)

/-- Parts make expressions, one each. -/
inductive AllMake : List Part → List Expression → Prop
  | nil : AllMake [] []
  | cons {part : Part} {parts : List Part} {e : Expression} {es : List Expression}
      (h : Makes part e) (hrest : AllMake parts es) : AllMake (part :: parts) (e :: es)

/-- What is between parentheses, or after the equals sign of a rule, makes an expression. -/
inductive BodyMakes : List Part → Expression → Prop
  | only {part : Part} {e : Expression} (h : Makes part e) : BodyMakes [part] e
  | choice {part : Part} {span : Span} {parts : List Part} {e : Expression} {es : List Expression}
      (h : Makes part e) (hrest : AllMake parts es) :
      BodyMakes [part, ⟨.choice, span, parts⟩] (.choice (e :: es))
  | evaluation {part : Part} {span : Span} {parts : List Part} {e : Expression}
      {es : List Expression} (h : Makes part e) (hrest : AllMake parts es) :
      BodyMakes [part, ⟨.evaluation, span, parts⟩] (.evaluation (e :: es))

end

end Makes

variable {s : Scanned}

mutual

/-- **An expression is read from one of the forms.** -/
theorem makes_of_expression (part : Part) {e : Expression} (h : s.expression part = .ok e) :
    s.Makes part e := by
  unfold expression at h
  split at h
  · exact .group (bodyMakes_of_body _ h)
  · exact .only (makes_of_expression _ h)
  · obtain ⟨es, hes, rfl⟩ := ok_of_map h
    exact .sequence (allMake_of_expressions _ hes)
  · exact .unary (makes_of_expression _ h)
  · obtain ⟨pruning, hpruning, h⟩ := ok_of_bind h
    obtain ⟨inner, hinner, heq⟩ := ok_of_bind h
    cases heq
    exact .pruned hpruning (makes_of_expression _ hinner)
  · cases h
  · obtain ⟨form, hform, h⟩ := ok_of_bind h
    obtain ⟨inner, hinner, heq⟩ := ok_of_bind h
    cases heq
    exact .repetition hform (makes_of_expression _ hinner)
  · cases h
  · obtain ⟨inner, hinner, rfl⟩ := ok_of_map h
    exact .not (makes_of_expression _ hinner)
  · cases h
  · obtain ⟨inner, hinner, rfl⟩ := ok_of_map h
    exact .condition (makes_of_expression _ hinner)
  · cases h
  · obtain ⟨form, hform, h⟩ := ok_of_bind h
    obtain ⟨inner, hinner, heq⟩ := ok_of_bind h
    cases heq
    exact .skip hform (makes_of_expression _ hinner)
  · cases h
  · obtain ⟨level, hlevel, heq⟩ := ok_of_bind h
    cases heq
    exact .log hlevel
  · obtain ⟨level, hlevel, h⟩ := ok_of_bind h
    obtain ⟨inner, hinner, heq⟩ := ok_of_bind h
    cases heq
    exact .logIf hlevel (makes_of_expression _ hinner)
  · cases h
  · obtain ⟨forms, hforms, heq⟩ := ok_of_bind h
    cases heq
    exact .set hforms
  · cases h
    exact .string
  · cases h
    exact .dot
  · cases h
    exact .name
  · cases h
termination_by sizeOf part

theorem allMake_of_expressions (parts : List Part) {es : List Expression}
    (h : s.expressions parts = .ok es) : s.AllMake parts es := by
  unfold expressions at h
  split at h
  · cases h
    exact .nil
  · obtain ⟨e, he, h⟩ := ok_of_bind h
    obtain ⟨es, hes, heq⟩ := ok_of_bind h
    cases heq
    exact .cons (makes_of_expression _ he) (allMake_of_expressions _ hes)
termination_by sizeOf parts

theorem bodyMakes_of_body (parts : List Part) {e : Expression} (h : s.body parts = .ok e) :
    s.BodyMakes parts e := by
  unfold body at h
  split at h
  · split at h
    · exact .only (makes_of_expression _ h)
    · cases h
  · split at h
    · rename_i htail
      obtain ⟨e, he, h⟩ := ok_of_bind h
      obtain ⟨es, hes, heq⟩ := ok_of_bind h
      cases heq
      have hfirst := makes_of_expression _ he
      have hrest := allMake_of_expressions _ hes
      rcases htail.2 with rfl | rfl
      · exact .choice hfirst hrest
      · exact .evaluation hfirst hrest
    · cases h
  · cases h
termination_by sizeOf parts

end

/-- A rule is read off a header and a body. -/
theorem rule_of_statement {node : Node} {header : Header} {body : Expression}
    (h : Part.ofNode node >>= s.statement = .ok (.rule header body)) :
    ∃ span place others parts, Part.ofNode node = .ok ⟨.rule, span, ⟨.header, place, others⟩ :: parts⟩ ∧
      s.header others = .ok header ∧ s.body parts = .ok body := by
  obtain ⟨part, hpart, hstatement⟩ := ok_of_bind h
  unfold Scanned.statement at hstatement
  split at hstatement
  · obtain ⟨header', hheader, hstatement⟩ := ok_of_bind hstatement
    obtain ⟨body', hbody, heq⟩ := ok_of_bind hstatement
    cases heq
    exact ⟨_, _, _, _, hpart, hheader, hbody⟩
  all_goals cases hstatement

/-- An include is read off a string. -/
theorem include_of_statement {node : Node} {path : Lexeme} {location : Location}
    (h : Part.ofNode node >>= s.statement = .ok (.includeFile path location)) :
    ∃ span place parts, Part.ofNode node = .ok ⟨.includeStatement, span, [⟨.string, place, parts⟩]⟩ ∧
      path = s.lexeme place := by
  obtain ⟨part, hpart, hstatement⟩ := ok_of_bind h
  unfold Scanned.statement at hstatement
  split at hstatement
  · obtain ⟨header, -, hstatement⟩ := ok_of_bind hstatement
    obtain ⟨body, -, heq⟩ := ok_of_bind hstatement
    cases heq
  · cases hstatement
  · cases hstatement
    exact ⟨_, _, _, hpart, rfl⟩
  all_goals cases hstatement

end RuleScript.Script.Scanned
