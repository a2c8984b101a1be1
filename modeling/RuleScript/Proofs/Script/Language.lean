import RuleScript.Proofs.Match.CatchAll
import RuleScript.Proofs.Match.Predictive
import RuleScript.Proofs.Match.Remark
import RuleScript.Script.Grammar
import RuleScript.Script.NodeKind

/-!
# The script language

`language` has the productions of the script language.  `layout` has them as the script grammar is
built: what alternatives have in common comes before the choice between them, and it says where the
grammar may go on after something that is not well formed.  Well-formed scripts are the same for
both (`derives_language_iff`).

What the proofs need to know of the grammar itself is checked here by evaluation: that it is laid
out like that (`grammar_describes`), that the next token tells how to go on (`outlook_foresees`),
and that it is valid and takes whatever comes (`grammar_takesAll`).
-/

namespace RuleScript.Script

/-! ## Productions -/

-- These look names up in the two graphs, which is nothing to unfold inside of a proof.

/-- The element that stands for a token. -/
@[irreducible]
def tokenOf (name : String) : RuleId := (tokenizer.idOf? name).getD .invalid

/-- The rule whose nodes are of a kind. -/
@[irreducible]
def ruleOf (kind : NodeKind) : RuleId := (grammar.idOf? kind.ruleName).getD .invalid

/-- A token that leaves a node of its kind. -/
def token (kind : NodeKind) : Phrase RuleId NodeKind := .kept (tokenOf kind.ruleName) kind

/-- A token that leaves nothing. -/
def mark (name : String) : Phrase RuleId NodeKind := .dropped (tokenOf name)

/-- What a unary is without its marker. -/
def unmarked : Phrase RuleId NodeKind :=
  .choice [.rule .count, .rule .not, .rule .condition, .rule .skip, .rule .log,
    .choice [token .string, .rule .set, token .dot, token .ident, .rule .group]]

/-- A statement that is well formed. -/
def statement : Phrase RuleId NodeKind := .choice [.rule .includeStatement, .rule .rule]

/-- The right-hand sides that are laid out in more than one way. -/
structure Layout where
  script : Phrase RuleId NodeKind
  body : Phrase RuleId NodeKind
  sequence : Phrase RuleId NodeKind
  unary : Phrase RuleId NodeKind

/-- The right-hand side of each production. -/
def Layout.phrase (form : Layout) : NodeKind → Phrase RuleId NodeKind
  | .script => form.script
  | .includeStatement => .sequence [mark "kw_include", token .string, mark "semicolon"]
  | .rule => .sequence [.rule .header, mark "assign", form.body, mark "semicolon"]
  | .header => .sequence [.optional (token .prune), token .ident, .optional (token .integer)]
  | .choice => .several (.sequence [mark "pipe", .rule .sequence])
  | .evaluation => .several (.sequence [mark "slash", .rule .sequence])
  | .sequence => form.sequence
  | .unary => form.unary
  | .count => .sequence [.choice [token .star, token .plus, token .question, .rule .bounds],
      .rule .unary]
  | .bounds => .sequence [mark "lbracket", token .integer,
      .optional (.sequence [token .dotdot, .optional (token .integer)]), mark "rbracket"]
  | .not => .sequence [mark "bang", .rule .unary]
  | .condition => .sequence [mark "kw_if", .rule .unary]
  | .skip => .sequence [.choice [token .kwFind, token .kwStopAt, token .kwStopAfter], .rule .unary]
  | .log => .sequence [
      .choice [token .kwError, token .kwWarning, token .kwInfo, token .kwDebug, token .kwFatal],
      token .string, .optional (.sequence [mark "kw_if", .rule .unary])]
  | .group => .sequence [mark "lparen", form.body, mark "rparen"]
  | .set => .sequence [mark "lbrace", .many (.rule .setItem), mark "rbrace"]
  | .setItem => .sequence [token .string, .optional (.sequence [mark "dotdot", token .string])]
  | _ => .choice []

/-- The script language.  The node of a choice or of an evaluation stands beside that of its first
sequence and has those of the others below it. -/
def language : Productions RuleId NodeKind where
  idOf := ruleOf
  phrase := Layout.phrase
    { script := .many statement
      body := .choice [.sequence [.rule .sequence, .rule .choice],
        .sequence [.rule .sequence, .rule .evaluation], .rule .sequence]
      sequence := .sequence [.rule .unary, .many (.sequence [mark "comma", .rule .unary])]
      unary := .sequence [.optional (token .prune), unmarked] }

/-- The script language as the script grammar matches it. -/
def layout : Productions RuleId NodeKind where
  idOf := ruleOf
  phrase := Layout.phrase
    { script := .many (.choice ([.rule .includeStatement, .rule .rule] ++
        List.replicate 5 .recovery))
      body := .sequence [.rule .sequence, .optional (.choice [.rule .choice, .rule .evaluation])]
      sequence := .sequence [.rule .unary,
        .many (.choice [.sequence [mark "comma", .rule .unary], .recovery])]
      unary := .sequence [.many .recovery, .optional (token .prune), unmarked] }

section

open Phrase

variable {S : Productions RuleId NodeKind} {tokens : Array RuleId} {start stop : Nat}
variable {nodes : List Node}

/-- However a production is laid out, it derives the same as long as nothing recovers. -/
theorem derives_phrase_iff (kind : NodeKind) :
    Phrase.Derives S nothing tokens (language.phrase kind) start stop nodes ↔
      Phrase.Derives S nothing tokens (layout.phrase kind) start stop nodes := by
  have hrecovery {start stop : Nat} {nodes : List Node} :
      ¬ Phrase.Derives S nothing tokens .recovery start stop nodes := fun h => derives_recovery_iff.mp h
  -- Only the productions that recover from errors differ.
  cases kind with
  | script =>
      refine derives_many_iff.trans ((inRounds_congr fun start stop nodes => ?_).trans
        derives_many_iff.symm)
      simp [statement, derives_choice_iff, List.replicate, hrecovery]
  | rule =>
      simp [language, layout, Layout.phrase, derives_sequence_iff, inOrder_cons_iff,
        derives_factored_iff]
  | group =>
      simp [language, layout, Layout.phrase, derives_sequence_iff, inOrder_cons_iff,
        derives_factored_iff]
  | sequence =>
      refine derives_pair_iff.trans (Iff.trans ?_ derives_pair_iff.symm)
      refine exists_congr fun mid => exists_congr fun found => exists_congr fun found' =>
        and_congr_right fun _ => and_congr_left fun _ => ?_
      refine derives_many_iff.trans ((inRounds_congr fun start stop nodes => ?_).trans
        derives_many_iff.symm)
      simp [derives_choice_iff, hrecovery]
  | unary =>
      have hnone {start stop : Nat} {nodes : List Node} :
          Phrase.Derives S nothing tokens (.many .recovery) start stop nodes ↔ stop = start ∧ nodes = [] := by
        rw [derives_many_iff]
        constructor
        · intro h
          cases h with
          | nil => exact ⟨rfl, rfl⟩
          | cons h => exact absurd h hrecovery
        · rintro ⟨rfl, rfl⟩
          exact .nil
      simp [language, layout, Layout.phrase, derives_sequence_iff, inOrder_cons_iff, hnone,
        and_assoc]
  | _ => exact Iff.rfl

/-- Both grammars derive the same scripts, with the same nodes. -/
theorem derives_language_iff {phrase : Phrase RuleId NodeKind} :
    Phrase.Derives language nothing tokens phrase start stop nodes ↔
      Phrase.Derives layout nothing tokens phrase start stop nodes := by
  have hid (kind : NodeKind) : language.idOf kind = layout.idOf kind := rfl
  constructor
  · exact fun h => h.transfer hid fun kind _ _ _ => (derives_phrase_iff kind).mp
  · exact fun h => h.transfer (fun kind => (hid kind).symm)
      fun kind _ _ _ => (derives_phrase_iff kind).mpr

end

/-! ## What is known of the grammar -/

theorem NodeKind.mem_all (kind : NodeKind) : kind ∈ NodeKind.all := by
  cases kind <;> decide

/-- What a marker must not stand in front of. -/
def followers : List RuleId :=
  ["prune", "pipe", "slash", "comma", "semicolon", "rparen"].map tokenOf

/-- The kinds of the nodes that have parts. -/
def compounds : List NodeKind := NodeKind.all.filter (!·.isToken)

/-- The rules that pass a stray marker over. -/
def strays (id : RuleId) : Bool := grammar.isStray (tokenOf "prune") followers id

/-- All of the grammar, with all the ways in which it recovers. -/
def wholeScope : Scope NodeKind where
  names := compounds
  aside id := strays id || grammar.isComplaint id

/-- The statements that are well formed, stray markers apart. -/
def statementScope : Scope NodeKind where
  names := compounds.erase .script
  aside := strays

/-- The rule for a statement. -/
@[irreducible]
def statementRule : RuleId := (grammar.idOf? "statement").getD .invalid

/-- The rules for statements that are not well formed. -/
@[irreducible]
def recoveries : List RuleId := (grammar.subs statementRule).drop 2

/-- What is found out by looking at the rules of the grammar.  It is found out all at once, because
the grammar has to be built for it. -/
theorem grammar_checked :
    (grammar.Primitive ∧ grammar.names.Nodup) ∧
      (∀ kind ∈ NodeKind.all, grammar.isLog (ruleOf kind) = false ∧
        grammar.nodeKind? (ruleOf kind) = some kind ∧
        (kind.isToken →
          grammar.kind? (ruleOf kind) = some (.single (tokenOf kind.ruleName)))) ∧
      (layout.Describes grammar wholeScope ∧ layout.Describes grammar statementScope) ∧
      (grammar.root = some (ruleOf .script) ∧
        (grammar.rule? (ruleOf .script)).map (fun rule => (rule.pruning, rule.kind)) =
          some (.none, .count statementRule 0 0) ∧
        (grammar.rule? statementRule).map (fun rule => (rule.pruning, rule.kind)) =
          some (.root, .oneOf ([ruleOf .includeStatement, ruleOf .rule] ++ recoveries))) ∧
      grammar.nullableRepetition? = none ∧
      grammar.surely 5 true statementRule ∧
      (∀ message ∈ grammar.logMessages,
        message ≠ "unexpected character" ∧ message ≠ "could not parse script") := by
  decide +kernel

theorem grammar_primitive : grammar.Primitive := grammar_checked.1.1

theorem grammar_names_nodup : grammar.names.Nodup := grammar_checked.1.2

theorem not_isLog_ruleOf (kind : NodeKind) : grammar.isLog (ruleOf kind) = false :=
  (grammar_checked.2.1 kind (NodeKind.mem_all kind)).1

theorem nodeKind_ruleOf (kind : NodeKind) : grammar.nodeKind? (ruleOf kind) = some kind :=
  (grammar_checked.2.1 kind (NodeKind.mem_all kind)).2.1

theorem kind?_ruleOf {kind : NodeKind} (h : kind.isToken) :
    grammar.kind? (ruleOf kind) = some (.single (tokenOf kind.ruleName)) :=
  (grammar_checked.2.1 kind (NodeKind.mem_all kind)).2.2 h

theorem grammar_describes :
    layout.Describes grammar wholeScope ∧ layout.Describes grammar statementScope :=
  grammar_checked.2.2.1

theorem grammar_statements :
    grammar.root = some (ruleOf .script) ∧
      (grammar.rule? (ruleOf .script)).map (fun rule => (rule.pruning, rule.kind)) =
        some (.none, .count statementRule 0 0) ∧
      (grammar.rule? statementRule).map (fun rule => (rule.pruning, rule.kind)) =
        some (.root, .oneOf ([ruleOf .includeStatement, ruleOf .rule] ++ recoveries)) :=
  grammar_checked.2.2.2.1

theorem grammar_valid : grammar.validate = .ok () := by
  rw [Graph.validate, grammar_checked.2.2.2.2.1]

/-- Inside of a script there always is a statement, if only one that is not well formed. -/
theorem grammar_surely : grammar.surely 5 true statementRule := grammar_checked.2.2.2.2.2.1

/-- What the compiler itself has to say about a script is said by no rule. -/
theorem grammar_logMessages : ∀ message ∈ grammar.logMessages,
    message ≠ "unexpected character" ∧ message ≠ "could not parse script" :=
  grammar_checked.2.2.2.2.2.2

theorem grammar_takesAll : grammar.TakesAll (ruleOf .script) statementRule where
  isRoot := grammar_statements.1
  shape := grammar_statements.2.1
  primitive := grammar_primitive
  valid := grammar_valid
  surely := ⟨5, grammar_surely⟩

theorem aside_wholeScope (id : RuleId) :
    wholeScope.aside id ↔ strays id ∨ grammar.isComplaint id := by
  rw [wholeScope, Bool.or_eq_true]

theorem aside_statementScope (id : RuleId) : statementScope.aside id ↔ strays id := by
  rw [statementScope]

theorem promises_stray {id : RuleId} (h : strays id) (tokens : Array RuleId) (pos : Nat) :
    grammar.Promises tokens id pos (·.Steps (fun start stop nodes =>
      Graph.Misplaced tokens (tokenOf "prune") followers start ∧
        grammar.Remarks start stop nodes) pos) :=
  Graph.promises_stray grammar_primitive h pos

theorem promises_remarks (tokens : Array RuleId) (id : RuleId) (pos : Nat)
    (h : wholeScope.aside id) : grammar.Promises tokens id pos (·.Steps grammar.Remarks pos) := by
  rcases (aside_wholeScope id).mp h with hstray | hcomplaint
  · refine (promises_stray hstray tokens pos).mono fun outcome houtcome => ?_
    exact Outcome.Steps.mono houtcome fun _ _ h => h.2
  · exact Graph.promises_complaint hcomplaint pos

/-- The tokens that a unary may start with, its marker apart. -/
def operandHeads : List String :=
  ["star", "plus", "question", "lbracket", "bang", "kw_if", "kw_find", "kw_stop_at",
    "kw_stop_after", "kw_error", "kw_warning", "kw_info", "kw_debug", "kw_fatal", "string",
    "lbrace", "dot", "ident", "lparen"]

/-- The tokens that what a kind of node stands for may start with. -/
def headTokens : NodeKind → List String
  | .script => ["kw_include", "prune", "ident"]
  | .includeStatement => ["kw_include"]
  | .rule | .header => ["prune", "ident"]
  | .choice => ["pipe"]
  | .evaluation => ["slash"]
  | .sequence | .unary => "prune" :: operandHeads
  | .count => ["star", "plus", "question", "lbracket"]
  | .bounds => ["lbracket"]
  | .not => ["bang"]
  | .condition => ["kw_if"]
  | .skip => ["kw_find", "kw_stop_at", "kw_stop_after"]
  | .log => ["kw_error", "kw_warning", "kw_info", "kw_debug", "kw_fatal"]
  | .group => ["lparen"]
  | .set => ["lbrace"]
  | .setItem => ["string"]
  | _ => []

/-- The tokens that may come after what a kind of node stands for, besides the end of the script. -/
def nextTokens : NodeKind → List String
  | .includeStatement | .rule => ["kw_include", "prune", "ident"]
  | .header => ["assign"]
  | .choice | .evaluation => ["semicolon", "rparen"]
  | .sequence => ["pipe", "slash", "semicolon", "rparen"]
  | .unary | .count | .not | .condition | .skip | .log | .group | .set =>
    ["comma", "pipe", "slash", "semicolon", "rparen"]
  | .bounds => "prune" :: operandHeads
  | .setItem => ["string", "rbrace"]
  | _ => []

/-- What is known of scripts ahead of a match. -/
def outlook : Forecast RuleId NodeKind where
  heads kind := (headTokens kind).map tokenOf
  empty := (· = .script)
  follows kind := (if kind = .script ∨ kind = .rule ∨ kind = .includeStatement then [none] else []) ++
    (nextTokens kind).map (some ∘ tokenOf)
  clash value look := value = tokenOf "prune" && look.any followers.contains

theorem outlook_checked :
    (∀ kind ∈ NodeKind.all,
      (∀ value ∈ outlook.firsts (layout.phrase kind), value ∈ outlook.heads kind) ∧
        (outlook.nullable (layout.phrase kind) → outlook.empty kind) ∧
          outlook.predicts (layout.phrase kind) (outlook.follows kind)) ∧
      outlook.predicts (.many statement) [none] := by
  decide +kernel

theorem outlook_foresees : outlook.Foresees layout :=
  ⟨fun kind => (outlook_checked.1 kind (NodeKind.mem_all kind)).1,
    fun kind => (outlook_checked.1 kind (NodeKind.mem_all kind)).2.1,
    fun kind => (outlook_checked.1 kind (NodeKind.mem_all kind)).2.2⟩

/-- The next token tells a statement that is well formed from another one and from the end. -/
theorem outlook_predicts_statements : outlook.predicts (.many statement) [none] :=
  outlook_checked.2

end RuleScript.Script
