import RuleScript.Proofs.Logs

/-!
# Laws of pruning

However often a forest is pruned, and in whatever way, the log entries in it stay what they are and
where they are (`Graph.prune_laws`).  They come up to where their nodes were dropped from, or stay with
what is below them, and are found there in the same order.

Pruning all is what is left of any pruning once all is pruned: what a rule inside has dropped already
makes no difference to a rule that drops everything.  Behind it is that a node gives up the same
outermost entries whether or not it was pruned before (`Node.forestLogEntries_keep`).
-/

namespace RuleScript

namespace Node

/-! ## Going through a forest -/

/-- The nodes that come to lie on top of a stack, if each in its turn is taken off and the nodes right
below it are put there instead. -/
def walk : List Node → List Node
  | [] => []
  | ⟨rule, span, children⟩ :: rest => ⟨rule, span, children⟩ :: walk (children ++ rest)
termination_by stack => (preorderAll stack).length
decreasing_by
  simp only [preorderAll_append, preorderAll_cons, List.length_append, List.length_cons]
  omega

/-- A stack brings up the nodes of a forest each before those below it. -/
theorem walk_eq_preorderAll (forest : List Node) : walk forest = preorderAll forest := by
  fun_induction walk forest with
  | case1 => rfl
  | case2 rule span children rest ih => rw [ih, preorderAll_append, preorderAll_cons]

/-- Each tree in its turn may as well have a stack of its own. -/
theorem flatMap_walk_eq_preorderAll (forest : List Node) :
    (forest.flatMap fun node => walk [node]) = preorderAll forest := by
  induction forest with
  | nil => rfl
  | cons node rest ih =>
      rw [List.flatMap_cons, ih, walk_eq_preorderAll, ← preorderAll_append]
      rfl

/-! ## Outermost entries -/

variable (isLog : RuleId → Bool)

/-- Entries are outermost among themselves. -/
theorem forestLogEntries_forestLogEntries (forest : List Node) :
    forestLogEntries isLog (forestLogEntries isLog forest) = forestLogEntries isLog forest := by
  induction forest using forest_induction with
  | nil => rfl
  | cons rule span children rest ihchildren ihrest =>
      rw [forestLogEntries_cons, forestLogEntries_append, ihrest]
      congr 1
      split
      · rename_i hlog
        rw [forestLogEntries_cons, if_pos hlog]
        rfl
      · exact ihchildren

theorem forestLogEntries_singleton_of_not_isLog {node : Node} (h : isLog node.rule = false) :
    forestLogEntries isLog [node] = forestLogEntries isLog node.children := by
  rw [forestLogEntries_cons, if_neg (Bool.eq_false_iff.mp h)]
  exact List.append_nil _

/-- What is kept of a node gives up the same entries as the node. -/
theorem forestLogEntries_keep (pruning : Pruning) (node : Node) :
    forestLogEntries isLog (pruning.keep isLog node) = forestLogEntries isLog [node] := by
  -- A node that is no entry stands for the entries below it, whether it is kept or not.
  cases pruning with
  | none => rfl
  | root =>
      rw [Pruning.keep]
      split
      · rfl
      · rename_i hlog
        rw [forestLogEntries_singleton_of_not_isLog isLog (Bool.eq_false_iff.mpr hlog)]
  | all =>
      rw [Pruning.keep, ← forestLogEntries_singleton, forestLogEntries_forestLogEntries]
  | children =>
      rw [Pruning.keep]
      split
      · rfl
      · rename_i hlog
        have hlog : isLog node.rule = false := Bool.eq_false_iff.mpr hlog
        rw [forestLogEntries_singleton_of_not_isLog isLog hlog,
          @forestLogEntries_singleton_of_not_isLog isLog ⟨node.rule, _, _⟩ hlog,
          forestLogEntries_forestLogEntries]

end Node

namespace Graph

open Node

variable {α : Type} (g : Graph α)

theorem forestLogEntries_prune (pruning : Pruning) (forest : List Node) :
    forestLogEntries g.isLog (g.prune pruning forest) = forestLogEntries g.isLog forest := by
  induction forest with
  | nil => rfl
  | cons node rest ih =>
      rw [prune, List.flatMap_cons, forestLogEntries_append, forestLogEntries_keep, ← prune, ih,
        ← forestLogEntries_append]
      rfl

/-- A node without any children but entries is kept as it is. -/
theorem prune_children_keep (node : Node) :
    g.prune .children (Pruning.children.keep g.isLog node) =
      Pruning.children.keep g.isLog node := by
  rw [Pruning.keep]
  split
  · rename_i hlog
    simp only [prune, Pruning.keep, hlog, if_true, List.flatMap_cons, List.flatMap_nil,
      List.append_nil]
  · rename_i hlog
    simp only [prune, Pruning.keep, hlog, List.flatMap_cons, List.flatMap_nil, List.append_nil,
      Bool.false_eq_true, if_false, forestLogEntries_forestLogEntries]

theorem prune_children_prune_children (forest : List Node) :
    g.prune .children (g.prune .children forest) = g.prune .children forest := by
  induction forest with
  | nil => rfl
  | cons node rest ih =>
      have hcons : g.prune .children (node :: rest) =
          Pruning.children.keep g.isLog node ++ g.prune .children rest := by
        rw [prune, List.flatMap_cons, prune]
      rw [hcons, prune, List.flatMap_append, ← prune, ← prune, prune_children_keep, ih]

/-- **Laws of pruning**, for any forest.  The entries collected are those that a walk of each tree with
a stack comes across.  No pruning loses, repeats or moves one of them; a pruning of all leaves the
same whether or not something was pruned before; and a pruning of all, or of all children, changes
nothing the second time. -/
theorem prune_laws (forest : List Node) :
    g.collectLogs forest = (forest.flatMap fun node => Node.walk [node]).filterMap g.entryOf? ∧
    (∀ pruning, g.collectLogs (g.prune pruning forest) = g.collectLogs forest) ∧
    (∀ pruning, g.prune .all (g.prune pruning forest) = g.prune .all forest) ∧
    g.prune .all (g.prune .all forest) = g.prune .all forest ∧
    g.prune .children (g.prune .children forest) = g.prune .children forest := by
  have hall (pruning : Pruning) : g.prune .all (g.prune pruning forest) = g.prune .all forest := by
    rw [prune_all, prune_all, forestLogEntries_prune]
  refine ⟨?_, fun pruning => g.collectLogs_prune pruning forest, hall, hall .all,
    g.prune_children_prune_children forest⟩
  rw [collectLogs, flatMap_walk_eq_preorderAll]

end Graph

end RuleScript
