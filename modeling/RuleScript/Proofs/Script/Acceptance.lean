import RuleScript.Proofs.Script.Language

/-!
# Which scripts are accepted

The script grammar recovers from everything, so a match of it always succeeds; what tells a script
that is well formed from one that is not are the log entries in its tree.  A script is accepted
without any just if the language derives it, and its tree is the derivation then
(`accepted_iff_isScript`).

One way, a tree without log entries is a derivation in which nothing recovers.  The other way, the
next token always tells how to go on: no marker stands where it would be passed over as a stray one,
and at the start of each statement an include or a rule matches, so that no other alternative of a
statement is tried before the end.
-/

namespace RuleScript

namespace Match

/-- What a run comes to, or what another one comes to if it fails. -/
def orElse (first second : Run Outcome) : Run Outcome := do
  match ← first with
  | .failure => second
  | .success len nodes => pure (.success len nodes)

theorem firstOf_append_eq (sub : RuleId → Nat → Run Outcome) (start : Nat)
    (ids more : List RuleId) :
    firstOf sub start (ids ++ more) = orElse (firstOf sub start ids) (firstOf sub start more) := by
  induction ids with
  | nil => rw [List.nil_append, firstOf, orElse, pure_bind]
  | cons id ids ih =>
      rw [List.cons_append, firstOf, firstOf, orElse, bind_assoc]
      congr 1
      funext outcome
      cases outcome with
      | failure => exact ih
      | success len nodes => rw [pure_bind]

theorem firstOf_append {sub : RuleId → Nat → Run Outcome} {start len : Nat}
    {nodes : List Node} {ids : List RuleId}
    (h : (firstOf sub start ids).Yields (· = .success len nodes)) (more : List RuleId) :
    (firstOf sub start (ids ++ more)).Yields (· = .success len nodes) := by
  rw [firstOf_append_eq]
  refine h.bind ?_
  rintro _ rfl
  exact .pure rfl

end Match

namespace Script

variable {tokens : Array RuleId} {nodes : List Node}

/-- The nodes are the derivation of the tokens as a script. -/
def IsScript (tokens : Array RuleId) (nodes : List Node) : Prop :=
  Phrase.Derives language Phrase.nothing tokens (.rule .script) 0 tokens.size nodes

/-! ## A tree without log entries is a derivation -/

/-- A match takes the whole script, and a tree without log entries derives it. -/
theorem promises_isScript (tokens : Array RuleId) :
    grammar.Promises tokens (ruleOf .script) 0 fun outcome =>
      ∃ nodes, outcome = .success tokens.size nodes ∧
        (grammar.LogFree nodes → IsScript tokens nodes) := by
  obtain ⟨-, hscript, -⟩ := grammar_statements
  obtain ⟨rule, hrule, hshape⟩ := Option.map_eq_some_iff.mp hscript
  have hkind : grammar.kind? (ruleOf .script) = some (.count statementRule 0 0) :=
    (Graph.kind?_eq_some hrule).trans (congrArg some (Prod.mk.inj hshape).2)
  have hall := Graph.promises_catchAll grammar_primitive grammar_valid hkind grammar_surely
    (Nat.zero_le tokens.size)
  have hderives := Productions.promises_derives grammar_describes.1 (promises_remarks tokens)
    (grammar_describes.1.realizes_rule (by decide : NodeKind.script ∈ compounds)) 0
  refine (hall.and hderives).mono fun outcome houtcome => ?_
  obtain ⟨⟨nodes, rfl⟩, hnodes⟩ := houtcome
  refine ⟨nodes, rfl, fun hfree => derives_language_iff.mpr ?_⟩
  have hformed := Phrase.Derives.wellFormed (fun _ _ _ h => h.not_logFree) hnodes hfree
  rwa [Nat.zero_add] at hformed

/-! ## A derivation is found -/

/-- Where no marker is misplaced, none is passed over as a stray one. -/
theorem promises_nothing (hapart : outlook.Apart tokens 0 tokens.size) (id : RuleId) (pos : Nat)
    (h : statementScope.aside id) :
    grammar.Promises tokens id pos (·.Steps Phrase.nothing pos) := by
  refine (promises_stray ((aside_statementScope id).mp h) tokens pos).mono fun outcome houtcome => ?_
  refine Outcome.Steps.mono houtcome fun stop nodes hstray => ?_
  obtain ⟨⟨hmarker, value, hvalue, hnext⟩, -⟩ := hstray
  have hclash := hapart pos (Nat.zero_le pos) (Array.getElem?_eq_some_iff.mp hmarker).1 _ hmarker
  rw [hnext] at hclash
  simp [outlook, hvalue] at hclash

/-- What a statement that is well formed comes to, the rule for statements comes to. -/
theorem promises_statement {start stop : Nat}
    (h : layout.Exact grammar statementScope tokens statement start stop nodes) :
    grammar.Promises tokens statementRule start (· = .success (stop - start) nodes) := by
  obtain ⟨-, -, hshape⟩ := grammar_statements
  obtain ⟨rule, hrule, hparts⟩ := Option.map_eq_some_iff.mp hshape
  obtain ⟨hprune, hkind⟩ := Prod.mk.inj hparts
  have hcontents : layout.contents grammar statementScope statement
      (.oneOf [ruleOf .includeStatement, ruleOf .rule]) := by
    refine Productions.contents_choice_iff.mpr ⟨_, rfl, Productions.each_cons_iff.mpr
      ⟨_, _, rfl, ?_, Productions.each_cons_iff.mpr ⟨_, _, rfl, ?_, rfl⟩⟩⟩
    · exact grammar_describes.2.realizes_rule (by decide)
    · exact grammar_describes.2.realizes_rule (by decide)
  have hlog : grammar.isLog statementRule = false := by
    rw [Graph.isLog_of_kind? (Graph.kind?_eq_some hrule), hkind]
    rfl
  refine Graph.promises_of_rule hrule fun sub hsub => ?_
  -- The alternatives are those of the derivation, with the recoveries behind them.
  have hfirst : (Match.firstOf sub start [ruleOf .includeStatement, ruleOf .rule]).Yields
      (· = .success (stop - start) nodes) := by
    refine (h.kind _ hcontents statementRule sub hsub).of_map.mono (fun _ h => h) ?_
    intro outcome houtcome
    cases outcome with
    | failure => cases houtcome
    | success len found => simpa [Outcome.under] using houtcome
  rw [hkind, hprune]
  refine (Match.firstOf_append hfirst recoveries).map ?_
  rintro _ rfl
  rw [Outcome.under, Outcome.mapNodes, Graph.prune_root_singleton hlog]

/-- A script that has a derivation is matched with this derivation as its tree. -/
theorem promises_tree (h : IsScript tokens nodes) :
    grammar.Promises tokens (ruleOf .script) 0 (· = .success tokens.size nodes) := by
  obtain ⟨len, found, hlen, rfl, hfound⟩ := Phrase.derives_rule_iff.mp h
  obtain rfl : tokens.size = len := by omega
  rw [Nat.zero_add] at hfound
  have hmany : Phrase.Derives layout Phrase.nothing tokens (.many statement) 0 tokens.size found :=
    derives_language_iff.mp hfound
  have hend : tokens[tokens.size]? ∈ [none] := by simp
  have hpredicts := outlook_predicts_statements
  -- What follows a statement is never set aside, so nothing is left out between statements.
  have hapart := hmany.apart outlook_foresees hpredicts hend
  obtain ⟨hpart, hdecides⟩ := Bool.and_eq_true_iff.mp hpredicts
  obtain ⟨reps, hrounds⟩ := (Phrase.derives_many_iff.mp hmany).exact grammar_describes.2
    outlook_foresees (promises_nothing hapart) hpart hdecides hend
  obtain ⟨-, hscript, -⟩ := grammar_statements
  obtain ⟨rule, hrule, hshape⟩ := Option.map_eq_some_iff.mp hscript
  obtain ⟨hprune, hkind⟩ := Prod.mk.inj hshape
  -- Behind the last statement another one cannot match, since each consumes.
  have hfails : grammar.Promises tokens statementRule tokens.size (· = .failure) :=
    Graph.promises_failure_of_size_le grammar_primitive grammar_valid
      ((Graph.kind?_eq_some hrule).trans (congrArg some hkind))
  refine Graph.promises_of_rule hrule fun sub hsub => ?_
  rw [hkind, hprune]
  have hrepeated : (Match.repeated sub (grammar.label (ruleOf .script)) statementRule 0 0 0
      (tokens.size - 0) 0 0 #[]).Yields (· = .success (tokens.size - 0) found) := by
    refine Match.repeated_exact (fun pos mid found hstep => ⟨hstep.1.1, ?_⟩)
      (hsub _ _ _ hfails) hrounds (Nat.zero_le _) ?_
    · exact hsub _ _ _ (promises_statement hstep.2)
    · exact hrounds.reps_le fun pos mid found hstep => hstep.1
  refine hrepeated.map ?_
  rintro _ rfl
  rw [Outcome.mapNodes_prune_none, Nat.sub_zero]
  rfl

/-! ## Whole matches -/

/-- **The grammar accepts just the scripts of the language**: unless a match is aborted, its tree
has no log entries if and only if the language derives the script, and the tree is the derivation
then. -/
theorem accepted_iff_isScript {limit : Nat} {outcome : Outcome} {trace : Trace}
    (h : grammar.matchRoot tokens limit = (.ok outcome, trace)) :
    (grammar.LogFree outcome.nodes ↔ ∃ nodes, IsScript tokens nodes) ∧
      ∀ nodes, IsScript tokens nodes → outcome = .success tokens.size nodes := by
  have htree : ∀ nodes, IsScript tokens nodes → outcome = .success tokens.size nodes :=
    fun nodes hnodes => (promises_tree hnodes).of_matchRoot grammar_statements.1 h
  obtain ⟨nodes, rfl, hscript⟩ := (promises_isScript tokens).of_matchRoot grammar_statements.1 h
  refine ⟨⟨fun hfree => ⟨nodes, hscript hfree⟩, ?_⟩, htree⟩
  rintro ⟨other, hother⟩
  have hlog (kind : NodeKind) : grammar.isLog (language.idOf kind) = false := not_isLog_ruleOf kind
  cases htree other hother
  exact hother.logFree hlog

/-- The tokens of a rule with two alternatives, as in `name = other | "text";`. -/
def choiceTokens : Array RuleId :=
  (["ident", "assign", "ident", "pipe", "string", "semicolon"].map tokenOf).toArray

/-- The tree of that rule: what follows the first alternative stands below the choice. -/
def choiceTree : List Node :=
  let operand (kind : NodeKind) (pos : Nat) : Node :=
    ⟨ruleOf .sequence, ⟨pos, 1⟩, [⟨ruleOf .unary, ⟨pos, 1⟩, [.leaf (ruleOf kind) ⟨pos, 1⟩]⟩]⟩
  [⟨ruleOf .script, ⟨0, 6⟩, [⟨ruleOf .rule, ⟨0, 6⟩, [
    ⟨ruleOf .header, ⟨0, 1⟩, [.leaf (ruleOf .ident) ⟨0, 1⟩]⟩,
    operand .ident 2,
    ⟨ruleOf .choice, ⟨3, 2⟩, [operand .string 4]⟩]⟩]⟩]

theorem choiceTree_isScript :
    (∃ trace, grammar.matchRoot choiceTokens 16 = (.ok (.success 6 choiceTree), trace)) ∧
      IsScript choiceTokens choiceTree := by
  have hboth : (grammar.matchRoot choiceTokens 16).1 = .ok (.success 6 choiceTree) ∧
      ∀ node ∈ Node.preorderAll choiceTree, grammar.isLog node.rule = false := by
    decide +kernel
  obtain ⟨hmatch, hfree⟩ := hboth
  have hresult : grammar.matchRoot choiceTokens 16 =
      (.ok (.success 6 choiceTree), (grammar.matchRoot choiceTokens 16).2) := by
    rw [← hmatch]
  obtain ⟨hiff, htree⟩ := accepted_iff_isScript hresult
  obtain ⟨nodes, hnodes⟩ := hiff.mp hfree
  obtain ⟨-, rfl⟩ := Outcome.success.inj (htree nodes hnodes)
  exact ⟨⟨_, hresult⟩, hnodes⟩

end Script

end RuleScript
