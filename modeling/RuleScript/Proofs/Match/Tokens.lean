import RuleScript.Proofs.Match.Bounds
import RuleScript.Token

/-!
# Tokens stay inside the text

What a text is split into lies within the text: the tokens, the log entries, the characters consumed and
the farthest miss (`Graph.tokenize_within`).  All of it comes from the match of the root, which stays in
bounds.

A span over tokens is told as a span over characters by looking up where its first token starts and where
its last one ends.  Past the last token the end of the text is taken, so any span over tokens, even one
that reaches beyond them, comes to a span within the text (`Tokenized.charSpan_within`).
-/

namespace RuleScript

/-! ## The match of the root -/

namespace Graph

variable {α : Type} (g : Graph α)

/-- A match of the root stays inside the input. -/
theorem matchRoot_inBounds [Element α] (input : Array α) (limit : Nat) :
    (match (g.matchRoot input limit).1 with
      | .ok outcome => outcome.InBounds 0 input.size
      | .error cause => cause.InBounds 0 input.size) ∧
    (g.matchRoot input limit).2.farthest ≤ input.size := by
  unfold matchRoot runRoot
  cases hroot : g.root with
  | none => exact ⟨trivial, Nat.zero_le _⟩
  | some root =>
      obtain ⟨hend, hfarthest, -⟩ :=
        g.run_inBounds input limit root 0 {} (Nat.zero_le _) (Nat.zero_le _)
      refine ⟨?_, hfarthest⟩
      dsimp only
      split
      · rename_i outcome houtcome
        rw [houtcome] at hend
        exact hend.1
      · rename_i cause hcause
        rw [hcause] at hend
        exact hend

theorem exists_node_of_mem_collectLogs {forest : List Node} {entry : LogEntry}
    (h : entry ∈ g.collectLogs forest) :
    ∃ node ∈ Node.preorderAll forest, node.span = entry.span := by
  unfold collectLogs at h
  obtain ⟨node, hnode, hentry⟩ := List.mem_filterMap.mp h
  refine ⟨node, hnode, ?_⟩
  unfold entryOf? at hentry
  split at hentry
  · cases hentry
    rfl
  · cases hentry

theorem collectLogs_within {lo hi : Nat} {forest : List Node} (h : Node.AllWithin lo hi forest)
    {entry : LogEntry} (hentry : entry ∈ g.collectLogs forest) : entry.span.Within lo hi := by
  obtain ⟨node, hnode, hspan⟩ := g.exists_node_of_mem_collectLogs hentry
  rw [← hspan]
  exact h node hnode

end Graph

/-! ## Tokens -/

namespace Tokenized

variable {t : Tokenized} {n : Nat}

/-- All there is to a text of `n` characters that was split into tokens lies within the text. -/
structure Within (n : Nat) (t : Tokenized) : Prop where
  tokens : ∀ token ∈ t.tokens, token.span.Within 0 n
  logs : ∀ entry ∈ t.logs, entry.span.Within 0 n
  len : t.len ≤ n
  farthest : t.farthest ≤ n

/-- A token is a node that was left at the top, or one right below a node of the root, and no log entry. -/
theorem node_of_mem_tokensOf {g : Graph Char} {forest : List Node} {token : Token}
    (h : token ∈ tokensOf g forest) :
    token.node ∈ Node.preorderAll forest ∧ g.isLog token.kind = false := by
  simp only [tokensOf, List.mem_toArray, List.mem_map, List.mem_filter] at h
  obtain ⟨node, ⟨hnode, hlog⟩, rfl⟩ := h
  have hlog : g.isLog node.rule = false := by simpa using hlog
  refine ⟨?_, hlog⟩
  split at hnode
  · split at hnode
    · exact Node.mem_preorderAll_of_child List.mem_cons_self (Node.mem_preorderAll_of_mem hnode)
    · exact Node.mem_preorderAll_of_mem hnode
  · exact Node.mem_preorderAll_of_mem hnode

theorem ofOutcome_within {g : Graph Char} {farthest : Nat} {outcome : Outcome}
    (houtcome : outcome.InBounds 0 n) (hfarthest : farthest ≤ n) :
    (ofOutcome g farthest outcome).Within n := by
  cases outcome with
  | failure =>
      refine ⟨?_, ?_, Nat.zero_le n, hfarthest⟩
      · intro token htoken
        exact absurd htoken (Array.not_mem_empty token)
      · intro entry hentry
        exact absurd hentry List.not_mem_nil
  | success len nodes =>
      obtain ⟨hlen, hnodes⟩ := houtcome
      refine ⟨?_, ?_, ?_, hfarthest⟩
      · intro token htoken
        exact hnodes token.node (node_of_mem_tokensOf htoken).1
      · intro entry hentry
        exact g.collectLogs_within hnodes hentry
      · show len ≤ n
        omega

theorem startOf_le (h : t.Within n) (index : Nat) : t.startOf n index ≤ n := by
  unfold startOf
  split
  · rename_i token htoken
    have hspan := h.tokens token (Array.mem_of_getElem? htoken)
    exact Nat.le_trans token.span.start_le_stop hspan.2
  · exact Nat.le_refl n

theorem stopOf_le (h : t.Within n) (index : Nat) : t.stopOf n index ≤ n := by
  unfold stopOf
  split
  · rename_i token htoken
    exact (h.tokens token (Array.mem_of_getElem? htoken)).2
  · exact Nat.le_refl n

/-- Whatever span over tokens is asked for, the characters it covers lie within the text. -/
theorem charSpan_within (h : t.Within n) (span : Span) : (t.charSpan n span).Within 0 n := by
  have hstart := startOf_le h span.start
  refine ⟨Nat.zero_le _, ?_⟩
  unfold charSpan
  split
  · exact hstart
  · -- Reversed bounds make an empty span, and that ends where it starts.
    have hstop := stopOf_le h (span.stop - 1)
    show t.startOf n span.start + (t.stopOf n (span.stop - 1) - t.startOf n span.start) ≤ n
    omega

end Tokenized

/-- Splitting a text stays inside the text, whether or not it is aborted. -/
theorem Graph.tokenize_within (g : Graph Char) (chars : Array Char) (limit : Nat) :
    match (g.tokenize chars limit).1 with
    | .ok t => t.Within chars.size
    | .error cause => cause.InBounds 0 chars.size := by
  obtain ⟨hend, hfarthest⟩ := g.matchRoot_inBounds chars limit
  unfold tokenize
  rcases hresult : g.matchRoot chars limit with ⟨cause | outcome, trace⟩
  · rw [hresult] at hend
    exact hend
  · rw [hresult] at hend hfarthest
    exact Tokenized.ofOutcome_within hend hfarthest

end RuleScript
