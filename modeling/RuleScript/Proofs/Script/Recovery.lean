import RuleScript.Proofs.Match.Splitting
import RuleScript.Proofs.Script.Language

/-!
# Errors end with a semicolon

Whatever is wrong with a script, nothing behind the next semicolon is affected.  No rule for a
statement, those that go on after an error included, matches or looks at anything behind a
semicolon that it does not start behind (`grammar_fence`).  So a script that ends with a semicolon
leaves the same nodes, log entries among them, whatever comes after it, and what comes after it
leaves the nodes that it would leave alone.
-/

namespace RuleScript

/-- The messages of the log entries that a match from the root leaves; none if it is aborted. -/
def Graph.messages? {α : Type} [Element α] (g : Graph α) (input : Array α) (limit : Nat) :
    Option (List String) :=
  match g.matchRoot input limit with
  | (.ok outcome, _) => some ((g.collectLogs outcome.nodes).map (·.message))
  | (.error _, _) => none

theorem Graph.exists_of_messages {α : Type} [Element α] {g : Graph α} {input : Array α}
    {limit : Nat} {messages : List String} (h : g.messages? input limit = some messages) :
    ∃ outcome trace, g.matchRoot input limit = (.ok outcome, trace) := by
  unfold messages? at h
  split at h
  · rename_i outcome trace hmatch
    exact ⟨outcome, trace, hmatch⟩
  · cases h

namespace Script

theorem grammar_fence :
    (grammar.fence (tokenOf "semicolon")).Guards grammar ∧
      (grammar.fence (tokenOf "semicolon")).endsWith statementRule := by
  decide +kernel

/-- **An error has no effect behind the next semicolon**: below the node of the script, a script
that goes on after a semicolon has the nodes of the part up to it and then those of the rest, log
entries and all. -/
theorem recovers_at_semicolon {u v : Array RuleId} {limit : Nat} {outcome outcome' : Outcome}
    {trace trace' : Trace} (hend : u.back? = some (tokenOf "semicolon"))
    (hu : grammar.matchRoot u limit = (.ok outcome, trace))
    (hv : grammar.matchRoot v limit = (.ok outcome', trace')) :
    ∃ nodes nodes', outcome = .success u.size [⟨ruleOf .script, ⟨0, u.size⟩, nodes⟩] ∧
      outcome' = .success v.size [⟨ruleOf .script, ⟨0, v.size⟩, nodes'⟩] ∧
      ∃ trace, grammar.matchRoot (u ++ v) limit = (.ok (.success (u ++ v).size
        [⟨ruleOf .script, ⟨0, (u ++ v).size⟩, nodes ++ Node.forestMovedOn u.size nodes'⟩]),
          trace) := by
  refine grammar_takesAll.matchRoot_append grammar_fence.1 grammar_fence.2 ?_ hu hv
  rw [Graph.post_fence]
  exact hend

/-- A header without a body, as in `name other;`. -/
def headerOnly : Array RuleId := (["ident", "ident", "semicolon"].map tokenOf).toArray

/-- A rule with a marker that is passed over, as in `name = -a | "text";`. -/
def strayMarker : Array RuleId :=
  (["ident", "assign", "ident", "comma", "prune", "prune", "string", "semicolon"].map
    tokenOf).toArray

theorem headerOnly_strayMarker_recovers :
    grammar.messages? headerOnly 20 = some ["expected '=' after rule header"] ∧
      grammar.messages? strayMarker 20 = some ["unexpected pruning prefix"] ∧
      ∃ nodes nodes' trace,
        grammar.matchRoot (headerOnly ++ strayMarker) 20 = (.ok (.success 11
          [⟨ruleOf .script, ⟨0, 11⟩, nodes ++ Node.forestMovedOn 3 nodes'⟩]), trace) := by
  have hboth : grammar.messages? headerOnly 20 = some ["expected '=' after rule header"] ∧
      grammar.messages? strayMarker 20 = some ["unexpected pruning prefix"] := by
    decide +kernel
  obtain ⟨outcome, trace, hu⟩ := Graph.exists_of_messages hboth.1
  obtain ⟨outcome', trace', hv⟩ := Graph.exists_of_messages hboth.2
  have hend : headerOnly.back? = some (tokenOf "semicolon") := rfl
  obtain ⟨nodes, nodes', -, -, after, hall⟩ := recovers_at_semicolon hend hu hv
  exact ⟨hboth.1, hboth.2, nodes, nodes', after, hall⟩

end Script

end RuleScript
