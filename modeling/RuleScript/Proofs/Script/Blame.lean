import RuleScript.Proofs.Script.Naming
import RuleScript.Proofs.Script.Peg
import RuleScript.Proofs.Script.Places

/-!
# Which rule an error is blamed on

An error about a rule has the name of the rule and a place.  The place is in the text of a statement that
declares the name, or else it is that of the path of an include which stands for no text: for such a path
the compiler blames the rule that it came to last, and an include is in no rule (`blame_exact`).

Statements are compiled one by one, and none takes back an error.  So it is enough to look at what each
of them adds (`Progress.AddsPlaced`), and a path that stands for no text is still reported in the end.
-/

namespace RuleScript.Script

/-! ## Statements -/

/-- A text is split into tokens and matched like this. -/
structure Parses (source : String) (limit : Nat) (s : Scanned) (outcome : Outcome) : Prop where
  scanned : (scan source limit).1 = .ok s
  matched : (grammar.matchRoot s.tokens.kinds limit).1 = .ok outcome

/-- The statement of a node includes the script at a path. -/
def Scanned.IncludesAt (s : Scanned) (node : Node) (path : Lexeme) : Prop :=
  ∃ location, Part.ofNode node >>= s.statement = .ok (.includeFile path location)

/-- A place is in the text of a statement that declares a name. -/
def InRule (source : String) (limit : Nat) (name : String) (location : Location) : Prop :=
  ∃ s outcome, Parses source limit s outcome ∧ ∃ node ∈ statementNodes outcome.nodes,
    (∃ body, s.DeclaresAt node name body) ∧ (s.charSpan node.span).includes location.span

/-- A place is that of the path of an include, and the path stands for no text. -/
def AtUnreadPath (source : String) (limit : Nat) (location : Location) : Prop :=
  ∃ s outcome, Parses source limit s outcome ∧ ∃ node ∈ statementNodes outcome.nodes,
    ∃ path, s.IncludesAt node path ∧ (∃ error, literalValue path.text = .error error) ∧
      location = path.location

/-- An error about a rule is about a place in that rule, or about the path of an include. -/
def Placed (source : String) (limit : Nat) (error : CompileError) : Prop :=
  ∀ rule message location, error = .invalidRule rule message location →
    InRule source limit rule location ∨ AtUnreadPath source limit location

section Statements

variable {source : String} {limit : Nat} {s : Scanned} {outcome : Outcome} {node : Node}

namespace Placed

theorem graph (error : GraphError) : Placed source limit (.graph error) := by
  rintro _ _ _ ⟨⟩

theorem script (diagnostic : Diagnostic) : Placed source limit (.script diagnostic) := by
  rintro _ _ _ ⟨⟩

theorem aborted (cause : Abort) : Placed source limit (.aborted cause) := by
  rintro _ _ _ ⟨⟩

theorem admits {rule : String} {location : Location}
    (h : InRule source limit rule location ∨ AtUnreadPath source limit location) :
    Admits (Placed source limit) rule location := by
  rintro message _ _ _ ⟨⟩
  exact h

end Placed

namespace Parses

theorem unique (h : Parses source limit s outcome) {s' : Scanned} {outcome' : Outcome}
    (h' : Parses source limit s' outcome') : s = s' ∧ outcome = outcome' := by
  obtain rfl : s = s' := Except.ok.inj (h.scanned.symm.trans h'.scanned)
  exact ⟨rfl, Except.ok.inj (h.matched.symm.trans h'.matched)⟩

theorem scan_eq (h : Parses source limit s outcome) :
    scan source limit = (.ok s, (scan source limit).2) :=
  Prod.ext h.scanned rfl

theorem matchRoot_eq (h : Parses source limit s outcome) :
    grammar.matchRoot s.tokens.kinds limit =
      (.ok outcome, (grammar.matchRoot s.tokens.kinds limit).2) :=
  Prod.ext h.matched rfl

theorem coherent (h : Parses source limit s outcome) : s.tokens.Coherent s.chars.size :=
  scan_coherent h.scan_eq

theorem exists_parts (h : Parses source limit s outcome) :
    ∃ parts, Part.Nested 0 s.tokens.tokens.size parts ∧
      ∀ node ∈ statementNodes outcome.nodes, ∀ part, Part.ofNode node = .ok part → part ∈ parts := by
  obtain ⟨parts, hparts, hnested⟩ := statements_nested h.matchRoot_eq
  rw [Tokenized.kinds, Array.size_map] at hnested
  refine ⟨parts, hnested, fun node hnode part hpart => ?_⟩
  obtain ⟨other, hother, heq⟩ := Part.exists_of_ofNodes hparts hnode (Part.not_isLog_of_ofNode hpart)
  cases hpart.symm.trans heq
  exact hother

/-- The places in the header and in the body of a rule are in the text of its statement. -/
theorem admits (h : Parses source limit s outcome) (hnode : node ∈ statementNodes outcome.nodes)
    {header : Header} {body : Expression}
    (hread : Part.ofNode node >>= s.statement = .ok (.rule header body)) :
    (∀ digits ∈ header.precedence, Admits (Placed source limit) header.name digits.location) ∧
      body.EachPlace (Admits (Placed source limit) header.name) := by
  obtain ⟨span, place, others, parts, hpart, hheader, hbody⟩ := Scanned.rule_of_statement hread
  obtain ⟨all, hall, hmem⟩ := h.exists_parts
  obtain ⟨-, hstop, -, hnested⟩ := hall.of_mem (hmem node hnode _ hpart)
  -- A place that the statement holds lies in the span of its node.
  have hP (location : Location) (hholds : s.Holds span location) :
      Admits (Placed source limit) header.name location := by
    refine Placed.admits (.inl ?_)
    refine ⟨s, outcome, h, node, hnode, ⟨parts, span, place, others, header, hpart, hheader, rfl⟩, ?_⟩
    rw [← Part.span_of_ofNode hpart]
    exact hholds.includes h.coherent hstop
  constructor
  · -- The precedence is read off the header, and everything else off the body.
    intro digits hdigits
    obtain ⟨part, hpart, hkind, rfl⟩ := Scanned.precedence_of_header hheader hdigits
    refine hP _ ((hnested.inside List.mem_cons_self).holds hpart ?_)
    rw [hkind]
    decide
  · exact (Scanned.bodyMakes_of_body _ hbody).eachPlace hP hnested.tail

end Parses

namespace Progress

variable {α : Type} {terminals : Terminals α} {p : Progress α}

/-- Errors are never taken back, and those that are added are about places in rules or about paths of
includes. -/
structure AddsPlaced (source : String) (limit : Nat) (p p' : Progress α) : Prop where
  keeps : ∀ error ∈ p.errors, error ∈ p'.errors
  adds : ∀ error ∈ p'.errors, error ∈ p.errors ∨ Placed source limit error

namespace AddsPlaced

variable {p' p'' : Progress α}

theorem of_eq (h : p'.errors = p.errors) : AddsPlaced source limit p p' := by
  refine ⟨fun error herror => ?_, fun error herror => .inl ?_⟩ <;> rwa [h] at *

theorem trans (h : AddsPlaced source limit p p') (h' : AddsPlaced source limit p' p'') :
    AddsPlaced source limit p p'' where
  keeps error herror := h'.keeps error (h.keeps error herror)
  adds error herror := (h'.adds error herror).elim (h.adds error) .inr

theorem fail {error : CompileError} (h : Placed source limit error) (hsame : p'.errors = p.errors) :
    AddsPlaced source limit p (p'.fail error) where
  keeps other hother := List.mem_append_left _ (hsame ▸ hother)
  adds other hother := by
    rcases List.mem_append.mp hother with hother | hother
    · exact .inl (hsame ▸ hother)
    · obtain rfl := List.mem_singleton.mp hother
      exact .inr h

end AddsPlaced

theorem includeFile_addsPlaced {path : Lexeme} (location : Location)
    (h : ∀ error, literalValue path.text = .error error → AtUnreadPath source limit path.location) :
    AddsPlaced source limit p (p.includeFile path location) := by
  rw [includeFile, textOf]
  cases hvalue : literalValue path.text with
  | ok text => exact .of_eq rfl
  | error error => exact .fail (Placed.admits (.inr (h error hvalue)) _) rfl

theorem declareRule_addsPlaced {header : Header} {body : Expression}
    (hheader : ∀ digits ∈ header.precedence, Admits (Placed source limit) header.name digits.location)
    (hbody : body.EachPlace (Admits (Placed source limit) header.name)) :
    AddsPlaced source limit p (p.declareRule terminals header body) := by
  rw [declareRule]
  cases hprecedence : precedenceOf header with
  | error error => exact .fail (FailsOnly.precedenceOf hheader error hprecedence) rfl
  | ok precedence =>
      have hfails := declaration_failsOnly terminals header.name Placed.graph header precedence hbody
        p.graph
      generalize hrun : (do declare header precedence (← draft terminals header.name body) :
        Declaring α RuleId).run.run p.graph = ended at hfails
      obtain ⟨result, graph⟩ := ended
      dsimp only
      rw [hrun]
      cases result with
      | error error => exact .fail (hfails error rfl) rfl
      | ok id => exact .of_eq rfl

/-- A statement adds an error about a place in the rule that it declares, or about the path that it
includes. -/
theorem statement_addsPlaced (h : Parses source limit s outcome)
    (hnode : node ∈ statementNodes outcome.nodes) :
    AddsPlaced source limit p (p.statement terminals s node) := by
  rw [statement]
  cases hlog : grammar.isLog node.rule with
  | true => exact .of_eq rfl
  | false =>
      obtain ⟨statement, hread⟩ :=
        statements_read (scan_knowsMarkers h.scan_eq) h.matchRoot_eq hnode hlog
      rw [hread]
      cases statement with
      | includeFile path location =>
          exact includeFile_addsPlaced location fun error herror =>
            ⟨s, outcome, h, node, hnode, path, ⟨location, hread⟩, ⟨error, herror⟩, rfl⟩
      | rule header body =>
          obtain ⟨hheader, hbody⟩ := h.admits hnode hread
          exact declareRule_addsPlaced hheader hbody

theorem foldl_addsPlaced (h : Parses source limit s outcome) {nodes : List Node}
    (hnodes : ∀ node ∈ nodes, node ∈ statementNodes outcome.nodes) :
    AddsPlaced source limit p (nodes.foldl (fun p node => p.statement terminals s node) p) := by
  induction nodes generalizing p with
  | nil => exact .of_eq rfl
  | cons node nodes ih =>
      obtain ⟨hnode, hnodes⟩ := List.forall_mem_cons.mp hnodes
      exact (statement_addsPlaced h hnode).trans (ih hnodes)

/-- A path that stands for no text is an error of the rule that was declared last. -/
theorem statement_reports {path : Lexeme} {error : LiteralError} (hinclude : s.IncludesAt node path)
    (herror : literalValue path.text = .error error) :
    .invalidRule p.rule error.message path.location ∈ (p.statement terminals s node).errors := by
  obtain ⟨location, hread⟩ := hinclude
  obtain ⟨_, _, _, hpart, -⟩ := Scanned.include_of_statement hread
  rw [statement, if_neg (Bool.eq_false_iff.mp (Part.not_isLog_of_ofNode hpart)), hread]
  simp [includeFile, textOf, herror, invalid, fail]

theorem foldl_reports (h : Parses source limit s outcome) {path : Lexeme} {error : LiteralError}
    (hinclude : s.IncludesAt node path) (herror : literalValue path.text = .error error)
    {nodes : List Node} (hnodes : ∀ node ∈ nodes, node ∈ statementNodes outcome.nodes)
    (hnode : node ∈ nodes) :
    ∃ rule, .invalidRule rule error.message path.location ∈
      (nodes.foldl (fun p node => p.statement terminals s node) p).errors := by
  induction nodes generalizing p with
  | nil => cases hnode
  | cons first nodes ih =>
      obtain ⟨-, hrest⟩ := List.forall_mem_cons.mp hnodes
      rcases List.mem_cons.mp hnode with rfl | hnode
      · exact ⟨p.rule, (foldl_addsPlaced h hrest).keeps _ (statement_reports hinclude herror)⟩
      · exact ih hrest hnode

theorem rooted_addsPlaced : AddsPlaced source limit p p.rooted := by
  rw [rooted]
  split
  · exact .of_eq rfl
  · split
    · exact .of_eq rfl
    · exact .fail (.graph _) rfl

end Progress

/-- No path of an include is in the text of a rule. -/
theorem AtUnreadPath.not_inRule {rule : String} {location : Location}
    (h : AtUnreadPath source limit location) : ¬ InRule source limit rule location := by
  obtain ⟨s, outcome, hparses, node, hnode, path, ⟨_, hread⟩, -, rfl⟩ := h
  rintro ⟨s', outcome', hparses', node', hnode', ⟨body, span', _, _, _, hpart', -, -⟩, hincludes⟩
  obtain ⟨rfl, rfl⟩ := hparses.unique hparses'
  obtain ⟨span, place, inner, hpart, rfl⟩ := Scanned.include_of_statement hread
  obtain ⟨parts, hnested, hmem⟩ := hparses.exists_parts
  have hinclude := hmem node hnode _ hpart
  have hrule := hmem node' hnode' _ hpart'
  obtain ⟨-, hstop, -, hinside⟩ := hnested.of_mem hinclude
  obtain ⟨-, hstop', hlen, -⟩ := hnested.of_mem hrule
  have hholds : s.Holds span (s.location place) := hinside.holds List.mem_cons_self (by simp)
  have hapart := hnested.apart hinclude hrule (by simp)
  rw [← Part.span_of_ofNode hpart'] at hincludes
  exact hholds.not_includes (scan_lossless hparses.scan_eq).2 hparses.coherent hstop hstop'
    (hlen (by simp)) hapart hincludes

end Statements

/-! ## Scripts -/

section Scripts

variable {α : Type} (terminals : Terminals α) (unit source : String) (limit : Nat)

/-- All errors about rules are about places in the rules that they name. -/
def BlamesOwnRules : Prop :=
  ∀ failure, (compile terminals unit source limit).1 = .error failure →
    ∀ rule message location, .invalidRule rule message location ∈ failure.errors →
      InRule source limit rule location

variable {terminals unit source limit}

/-- The errors of a draught were found before, or they are about places in rules or about paths of
includes. -/
theorem draught_placed {s : Scanned} {outcome : Outcome} (h : Parses source limit s outcome)
    (ds : List Diagnostic) :
    ∀ error ∈ (draught terminals s outcome ds).errors,
      error ∈ errorsIn ds ∨ Placed source limit error :=
  ((Progress.foldl_addsPlaced h fun _ hnode => hnode).trans Progress.rooted_addsPlaced).adds

/-- **Each error about a rule** is about a place in it or about the path of an include. -/
theorem compile_placed {failure : CompileFailure}
    (h : (compile terminals unit source limit).1 = .error failure) :
    ∀ error ∈ failure.errors, Placed source limit error := by
  have hscripts {ds : List Diagnostic} (error : CompileError) (herror : error ∈ errorsIn ds) :
      Placed source limit error := by
    obtain ⟨d, -, rfl⟩ := List.mem_map.mp herror
    exact .script d
  rw [compile] at h
  split at h
  · cases h
    intro error herror
    obtain rfl := List.mem_singleton.mp herror
    exact .aborted _
  · rename_i s journal hscan
    dsimp only at h
    split at h
    · rw [Draught.finish_error h]
      refine List.forall_mem_append.mpr ⟨hscripts, fun error herror => ?_⟩
      obtain rfl := List.mem_singleton.mp herror
      exact .aborted _
    · rename_i outcome trace hmatch
      have hparses : Parses source limit s outcome :=
        ⟨congrArg Prod.fst hscan, congrArg Prod.fst hmatch⟩
      rw [Draught.finish_error h]
      intro error herror
      -- The remarks on the text come first, then what the statements have run into.
      rcases draught_placed hparses _ error herror with hfound | hplaced
      · exact hscripts error hfound
      · exact hplaced

theorem Draught.finish_of_mem {d : Draught α} {error : CompileError} (h : error ∈ d.errors) :
    (d.finish unit).1 = .error ⟨unit, d.errors⟩ := by
  rw [finish]
  cases herrors : d.errors with
  | nil =>
      rw [herrors] at h
      cases h
  | cons first rest => rfl

theorem compile_of_parses (terminals : Terminals α) (unit : String) {s : Scanned} {outcome : Outcome}
    (h : Parses source limit s outcome) :
    ∃ ds, (compile terminals unit source limit).1 =
      ((draught terminals s outcome ds).finish unit).1 := by
  rw [compile, h.scan_eq]
  dsimp only
  rw [h.matchRoot_eq]
  exact ⟨_, rfl⟩

/-- A path that stands for no text is reported. -/
theorem reports_of_atUnreadPath (terminals : Terminals α) (unit : String) {location : Location}
    (h : AtUnreadPath source limit location) :
    ∃ failure rule message, (compile terminals unit source limit).1 = .error failure ∧
      .invalidRule rule message location ∈ failure.errors := by
  obtain ⟨s, outcome, hparses, node, hnode, path, hinclude, ⟨error, herror⟩, rfl⟩ := h
  obtain ⟨ds, hcompile⟩ := compile_of_parses terminals unit hparses
  have hreports : ∃ rule, .invalidRule rule error.message path.location ∈
      (draught terminals s outcome ds).errors := by
    obtain ⟨rule, hmem⟩ := Progress.foldl_reports hparses hinclude herror (fun _ h => h) hnode
    have hrooted {p : Progress α} : Progress.AddsPlaced source limit p p.rooted :=
      Progress.rooted_addsPlaced
    exact ⟨rule, hrooted.keeps _ hmem⟩
  obtain ⟨rule, hmem⟩ := hreports
  exact ⟨_, rule, error.message, hcompile.trans (Draught.finish_of_mem hmem), hmem⟩

/-- **Errors about rules are about places in the rules that they name, unless an include has a path
that stands for no text.**  Each such path is reported, as an error of a rule whose text it is not in. -/
theorem blame_exact (terminals : Terminals α) (unit source : String) (limit : Nat) :
    (∀ failure, (compile terminals unit source limit).1 = .error failure →
      ∀ rule message location, .invalidRule rule message location ∈ failure.errors →
        InRule source limit rule location ∨ AtUnreadPath source limit location) ∧
    (BlamesOwnRules terminals unit source limit ↔
      ∀ location, ¬ AtUnreadPath source limit location) := by
  have hplaced (failure : CompileFailure)
      (h : (compile terminals unit source limit).1 = .error failure) (rule message : String)
      (location : Location) (hmem : .invalidRule rule message location ∈ failure.errors) :
      InRule source limit rule location ∨ AtUnreadPath source limit location :=
    compile_placed h _ hmem rule message location rfl
  refine ⟨hplaced, fun hblames location hunread => ?_, fun hread failure h rule message location hmem => ?_⟩
  · obtain ⟨failure, rule, message, h, hmem⟩ := reports_of_atUnreadPath terminals unit hunread
    exact hunread.not_inRule (hblames failure h rule message location hmem)
  · exact (hplaced failure h rule message location hmem).resolve_right (hread location)

/-- The path of what a statement includes. -/
def Statement.path? : Statement → Option Lexeme
  | .includeFile path _ => some path
  | .rule .. => none

/-- A rule after an include, with an escape in its body that there is not. -/
def ruleAfterInclude : String := "include 'a'; b = '\\q';"

/-- The path of the include can be read, so the rule is blamed for what is in its own text. -/
theorem ruleAfterInclude_blamed :
    BlamesOwnRules charTerminals "unit" ruleAfterInclude 64 ∧
      (compile charTerminals "unit" ruleAfterInclude 64).1 =
        .error ⟨"unit", [.invalidRule "b" "unknown escape '\\q'" ⟨⟨17, 4⟩, 1, 18⟩]⟩ ∧
      InRule ruleAfterInclude 64 "b" ⟨⟨17, 4⟩, 1, 18⟩ := by
  -- The path of the only include can be read, so the exception does not apply.
  obtain ⟨hcompile, hpaths⟩ :
      (compile charTerminals "unit" ruleAfterInclude 64).1 =
        .error ⟨"unit", [.invalidRule "b" "unknown escape '\\q'" ⟨⟨17, 4⟩, 1, 18⟩]⟩ ∧
      ∀ s ∈ (scan ruleAfterInclude 64).1.toOption,
        ∀ outcome ∈ (grammar.matchRoot s.tokens.kinds 64).1.toOption,
        ∀ node ∈ statementNodes outcome.nodes,
        ∀ statement ∈ (Part.ofNode node >>= s.statement).toOption,
          ∀ path ∈ statement.path?, (literalValue path.text).toOption.isSome := by
    decide +kernel
  have hown : BlamesOwnRules charTerminals "unit" ruleAfterInclude 64 := by
    refine (blame_exact charTerminals "unit" ruleAfterInclude 64).2.mpr ?_
    rintro _ ⟨s, outcome, hparses, node, hnode, path, ⟨_, hread⟩, ⟨error, herror⟩, -⟩
    have hvalue := hpaths s (by rw [hparses.scanned]; rfl) outcome (by rw [hparses.matched]; rfl) node
      hnode _ (by rw [hread]; rfl) path rfl
    rw [herror] at hvalue
    cases hvalue
  exact ⟨hown, hcompile, hown _ hcompile _ _ _ List.mem_cons_self⟩

/-- An include after a rule, with an escape in its path that there is not. -/
def includeAfterRule : String := "b = 'y'; include '\\q';"

/-- The rule before it is blamed for the include, though the path is not in its text. -/
theorem includeAfterRule_blamed :
    ¬ BlamesOwnRules charTerminals "unit" includeAfterRule defaultMaxDepth := by
  intro hblames
  have hall : (compile charTerminals "unit" includeAfterRule defaultMaxDepth).1 =
        .error ⟨"unit", [.invalidRule "b" "unknown escape '\\q'" ⟨⟨17, 4⟩, 1, 18⟩]⟩ ∧
      ∀ s ∈ (scan includeAfterRule defaultMaxDepth).1.toOption,
        ∀ outcome ∈ (grammar.matchRoot s.tokens.kinds defaultMaxDepth).1.toOption,
        ∀ node ∈ statementNodes outcome.nodes, ∀ part ∈ (Part.ofNode node).toOption,
          part.kind = .rule → ¬ (s.charSpan node.span).includes ⟨17, 4⟩ := by
    decide +kernel
  obtain ⟨hcompile, hnone⟩ := hall
  obtain ⟨s, outcome, hparses, node, hnode, ⟨_, _, _, _, _, hpart, -, -⟩, hincludes⟩ :=
    hblames _ hcompile _ _ _ (List.mem_singleton_self _)
  exact hnone s (by rw [hparses.scanned]; rfl) outcome (by rw [hparses.matched]; rfl) node hnode _
    (by rw [hpart]; rfl) rfl hincludes

end Scripts

end RuleScript.Script
