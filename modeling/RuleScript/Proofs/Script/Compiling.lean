import RuleScript.Proofs.Script.Declaring
import RuleScript.Proofs.Script.Reading

/-!
# Only scripts are to blame

A script that does not compile is at fault itself (`compile_blamesScript`): the errors tell of texts
and numbers that stand for nothing, of names declared twice, of what is not well formed, or that
rules are nested too deep.  That every statement can be read comes from `statements_read`, that
declaring fails for what is declared only from `declaration_adds`.  What is left is to carry both
through the statements, one by one: a `Progress` is `Sound` while its errors are such errors and its
root is a rule it has.
-/

namespace RuleScript

namespace Script

variable {α : Type}

/-! ## One statement after the other -/

/-- All errors so far were found before or are about what a declaration says, and the root is a rule
of the graph. -/
structure Progress.Sound (found : List CompileError) (p : Progress α) : Prop where
  root : ∀ id ∈ p.root, p.graph.contains id
  errors : ∀ error ∈ p.errors, error ∈ found ∨ error.InDeclaration

namespace Progress.Sound

variable {terminals : Terminals α} {found : List CompileError} {p : Progress α}

theorem fail (h : p.Sound found) {error : CompileError} (herror : error.InDeclaration) :
    (p.fail error).Sound found where
  root := h.root
  errors other hother := by
    rcases List.mem_append.mp hother with hother | hother
    · exact h.errors other hother
    · obtain rfl := List.mem_singleton.mp hother
      exact .inr herror

theorem includeFile (h : p.Sound found) (path : Lexeme) (location : Location) :
    (p.includeFile path location).Sound found := by
  rw [Progress.includeFile]
  cases hpath : textOf p.rule path with
  | ok path => exact ⟨h.root, h.errors⟩
  | error error => exact h.fail (Faultless.textOf _ _ error hpath)

theorem declareRule (hterminals : terminals.Plain) (h : p.Sound found) (header : Header)
    (body : Expression) : (p.declareRule terminals header body).Sound found := by
  rw [Progress.declareRule]
  cases hprecedence : precedenceOf header with
  | error error => exact h.fail (Faultless.precedenceOf header error hprecedence)
  | ok precedence =>
      -- The graph keeps what was added before the error, so it can only have grown.
      obtain ⟨hsize, hend⟩ :=
        declaration_adds header.name hterminals header precedence body 0 p.graph (Nat.zero_le _)
      generalize hrun : (do declare header precedence (← draft terminals header.name body) :
        Declaring α RuleId).run.run p.graph = ended at hsize hend
      obtain ⟨result, graph⟩ := ended
      have hroot : ∀ id ∈ p.root, graph.contains id := fun id hid =>
        decide_eq_true (Nat.lt_of_lt_of_le (of_decide_eq_true (h.root id hid)) hsize)
      dsimp only
      rw [hrun]
      cases result with
      | error error =>
          have hnow : { p with graph := graph, rule := header.name : Progress α }.Sound found :=
            ⟨hroot, h.errors⟩
          exact hnow.fail hend
      | ok id =>
          refine ⟨fun other hother => ?_, h.errors⟩
          rcases Option.or_eq_some_iff.mp hother with hother | ⟨-, hother⟩
          · exact hroot other hother
          · cases hother
            exact decide_eq_true hend

/-- A statement that can be read leaves a compilation sound. -/
theorem statement (hterminals : terminals.Plain) (h : p.Sound found) {s : Scanned} {node : Node}
    (hread : grammar.isLog node.rule = false →
      ∃ statement, Part.ofNode node >>= s.statement = .ok statement) :
    (p.statement terminals s node).Sound found := by
  rw [Progress.statement]
  cases hlog : grammar.isLog node.rule with
  | true => exact h
  | false =>
      obtain ⟨statement, hstatement⟩ := hread hlog
      rw [hstatement]
      cases statement with
      | includeFile path location => exact h.includeFile path location
      | rule header body => exact h.declareRule hterminals header body

theorem foldl (hterminals : terminals.Plain) {s : Scanned} {nodes : List Node}
    (hread : ∀ node ∈ nodes, grammar.isLog node.rule = false →
      ∃ statement, Part.ofNode node >>= s.statement = .ok statement) (h : p.Sound found) :
    (nodes.foldl (fun p node => p.statement terminals s node) p).Sound found := by
  induction nodes generalizing p with
  | nil => exact h
  | cons node nodes ih =>
      obtain ⟨hnode, hnodes⟩ := List.forall_mem_cons.mp hread
      exact ih hnodes (h.statement hterminals hnode)

theorem rooted (h : p.Sound found) : p.rooted.Sound found := by
  rw [Progress.rooted]
  cases hroot : p.root with
  | none => exact h
  | some id =>
      have hset : p.graph.setRoot id = .ok { p.graph with root := some id } := by
        rw [Graph.setRoot, if_pos (h.root id hroot)]
      dsimp only
      rw [hset]
      exact ⟨fun other hother => h.root other (hroot ▸ hother), h.errors⟩

end Progress.Sound

/-! ## Whole scripts -/

theorem errorsIn_fromScript {ds : List Diagnostic} {error : CompileError} (h : error ∈ errorsIn ds) :
    error.FromScript := by
  obtain ⟨d, -, rfl⟩ := List.mem_map.mp h
  trivial

/-- What is wrong with a draught was found before or is about what a declaration says. -/
theorem draught_errors {terminals : Terminals α} (hterminals : terminals.Plain) {s : Scanned}
    (hmarkers : s.KnowsMarkers) {limit : Nat} {outcome : Outcome} {trace : Trace}
    (hmatch : grammar.matchRoot s.tokens.kinds limit = (.ok outcome, trace))
    (ds : List Diagnostic) :
    ∀ error ∈ (draught terminals s outcome ds).errors,
      error ∈ errorsIn ds ∨ error.InDeclaration := by
  have hstart : ({ graph := terminals.base, errors := errorsIn ds } : Progress α).Sound
      (errorsIn ds) :=
    ⟨fun _ hid => (Option.not_mem_none _ hid).elim, fun _ => .inl⟩
  exact (hstart.foldl hterminals fun _ hnode => statements_read hmarkers hmatch hnode).rooted.errors

/-- What a draught without errors makes is a unit; one with errors reports them all. -/
theorem Draught.finish_error {d : Draught α} {unit : String} {failure : CompileFailure}
    (h : (d.finish unit).1 = .error failure) : failure.errors = d.errors := by
  rw [finish] at h
  cases herrors : d.errors with
  | nil => simp [herrors] at h
  | cons error errors =>
      simp only [herrors, Except.error.injEq] at h
      rw [← h]

theorem grammar_matchRoot_error {tokens : Array RuleId} {limit : Nat} {cause : Abort} {trace : Trace}
    (h : grammar.matchRoot tokens limit = (.error cause, trace)) : cause.IsDepth :=
  (Graph.runRoot_gives grammar_primitive (by rw [grammar_statements.1]; rfl) tokens limit).of_error h

end Script

open Script in
/-- A script whose terminals stand for plain rules is itself at fault if it does not compile. -/
theorem compile_fromScript {α : Type} {terminals : Terminals α} (hterminals : terminals.Plain)
    {unit source : String} {limit : Nat} {failure : CompileFailure}
    (h : (compile terminals unit source limit).1 = .error failure) :
    ∀ error ∈ failure.errors, error.FromScript := by
  rw [compile] at h
  split at h
  · rename_i cause journal hscan
    cases h
    intro error herror
    obtain rfl := List.mem_singleton.mp herror
    rw [scan] at hscan
    -- The tokenizer has a root and no fatal entry, so only its depth can stop it.
    rcases htokens : tokenizer.tokenize source.toList.toArray limit with ⟨cause' | t, journal'⟩
    · rw [htokens] at hscan
      cases hscan
      have hroot : tokenizer.root.isSome := by
        rw [tokenizer_lexical.takesAll.isRoot]
        rfl
      exact Graph.tokenize_error tokenizer_lexical.takesAll.primitive hroot htokens
    · rw [htokens] at hscan
      cases hscan
  · rename_i s journal hscan
    dsimp only at h
    split at h
    · rename_i cause trace hmatch
      rw [Draught.finish_error h]
      refine List.forall_mem_append.mpr ⟨fun _ => errorsIn_fromScript, fun error herror => ?_⟩
      obtain rfl := List.mem_singleton.mp herror
      exact grammar_matchRoot_error hmatch
    · rename_i outcome trace hmatch
      rw [Draught.finish_error h]
      intro error herror
      rcases draught_errors hterminals (scan_knowsMarkers hscan) hmatch _ error herror with
        hfound | hdeclaration
      · exact errorsIn_fromScript hfound
      · exact hdeclaration.fromScript

open Script in
/-- **A script that does not compile is itself to blame**, be it one of a tokenizer or of a grammar:
the compiler knows every node of the script grammar with the parts it has, a name that is taken is
all a graph refuses, and too deep a nesting is all that stops a match. -/
theorem compile_blamesScript (unit source : String) (limit : Nat) :
    (∀ failure, (compile charTerminals unit source limit).1 = .error failure →
      ∀ error ∈ failure.errors, error.FromScript) ∧
    ∀ tokenizer failure, (compile (tokenTerminals tokenizer) unit source limit).1 = .error failure →
      ∀ error ∈ failure.errors, error.FromScript :=
  ⟨fun _ => compile_fromScript charTerminals_plain,
    fun tokenizer _ => compile_fromScript (tokenTerminals_plain tokenizer)⟩

/-- A name that is declared twice, and a literal for which there is no token. -/
theorem twiceDeclared_blamesScript :
    (∃ failure, (compile charTerminals "twice" "a='x';a=.;" 32).1 = .error failure ∧
      failure.errors = [.graph (.duplicateName "a")] ∧
        ∀ error ∈ failure.errors, error.FromScript) ∧
    ∃ failure, (compile (tokenTerminals .empty) "none" "b='y';" 32).1 = .error failure ∧
      failure.errors = [.invalidRule "b" "no token rule matches 'y'" ⟨⟨2, 3⟩, 1, 3⟩] ∧
        ∀ error ∈ failure.errors, error.FromScript := by
  have hboth : (compile charTerminals "twice" "a='x';a=.;" 32).1 =
        .error ⟨"twice", [.graph (.duplicateName "a")]⟩ ∧
      (compile (tokenTerminals .empty) "none" "b='y';" 32).1 =
        .error ⟨"none", [.invalidRule "b" "no token rule matches 'y'" ⟨⟨2, 3⟩, 1, 3⟩]⟩ := by
    decide +kernel
  obtain ⟨htwice, hnone⟩ := hboth
  exact ⟨⟨_, htwice, rfl, (compile_blamesScript _ _ _).1 _ htwice⟩,
    ⟨_, hnone, rfl, (compile_blamesScript _ _ _).2 _ _ hnone⟩⟩

end RuleScript
