import RuleScript.Match.LogEntry
import RuleScript.Proofs.Forest

/-!
# Log entries of a forest

`Graph.collectLogs` goes through a forest from the top down and from left to right.  Pruning passes
every entry on, once and in its place, whatever else it drops (`Graph.collectLogs_prune`): what is
dropped has no entry of its own, and gives up the outermost entries below it with all that is below
them.
-/

namespace RuleScript

namespace Graph

open Node

variable {α : Type} (g : Graph α)

theorem entryOf?_eq_none {node : Node} (h : g.isLog node.rule = false) :
    g.entryOf? node = none := by
  rw [isLog] at h
  rw [entryOf?, kind?]
  cases hrule : g.rule? node.rule with
  | none => rfl
  | some rule =>
      have hkind : rule.kind.isLog = false := by
        rw [hrule] at h
        exact h
      rw [Option.map_some]
      split
      · rename_i heq
        rw [Option.some.inj heq] at hkind
        cases hkind
      · rfl

@[simp] theorem collectLogs_nil : g.collectLogs [] = [] := rfl

@[simp] theorem collectLogs_append (first second : List Node) :
    g.collectLogs (first ++ second) = g.collectLogs first ++ g.collectLogs second := by
  rw [collectLogs, preorderAll_append, List.filterMap_append]
  rfl

/-- A node comes before what is below it. -/
theorem collectLogs_singleton (node : Node) :
    g.collectLogs [node] = (g.entryOf? node).toList ++ g.collectLogs node.children := by
  rw [collectLogs, preorderAll_singleton, List.filterMap_cons]
  cases g.entryOf? node with
  | none => rfl
  | some entry => rfl

theorem collectLogs_singleton_of_not_isLog {node : Node} (h : g.isLog node.rule = false) :
    g.collectLogs [node] = g.collectLogs node.children := by
  rw [collectLogs_singleton, entryOf?_eq_none g h, Option.toList_none, List.nil_append]

/-- The outermost entries bring all entries along. -/
theorem collectLogs_forestLogEntries (forest : List Node) :
    g.collectLogs (forestLogEntries g.isLog forest) = g.collectLogs forest := by
  induction forest using forest_induction with
  | nil => rfl
  | cons rule span children rest ihchildren ihrest =>
      have hhead : g.collectLogs
          (if g.isLog rule then [⟨rule, span, children⟩] else forestLogEntries g.isLog children) =
            g.collectLogs [⟨rule, span, children⟩] := by
        split
        · rfl
        · rename_i hlog
          rw [ihchildren, collectLogs_singleton_of_not_isLog g (Bool.eq_false_iff.mpr hlog)]
      rw [forestLogEntries_cons, collectLogs_append, hhead, ihrest, ← collectLogs_append]
      rfl

theorem collectLogs_keep (pruning : Pruning) (node : Node) :
    g.collectLogs (pruning.keep g.isLog node) = g.collectLogs [node] := by
  -- No pruning drops an entry, and what it drops of other nodes holds the entries that it passes on.
  cases pruning with
  | none => rfl
  | root =>
      rw [Pruning.keep]
      split
      · rfl
      · rename_i hlog
        rw [collectLogs_singleton_of_not_isLog g (Bool.eq_false_iff.mpr hlog)]
  | all =>
      rw [Pruning.keep, ← forestLogEntries_singleton, collectLogs_forestLogEntries]
  | children =>
      rw [Pruning.keep]
      split
      · rfl
      · rename_i hlog
        have hnode := collectLogs_singleton_of_not_isLog g (Bool.eq_false_iff.mpr hlog)
        rw [collectLogs_singleton_of_not_isLog g, collectLogs_forestLogEntries, hnode]
        exact Bool.eq_false_iff.mpr hlog

/-- Pruning keeps all entries, in their order. -/
theorem collectLogs_prune (pruning : Pruning) (forest : List Node) :
    g.collectLogs (g.prune pruning forest) = g.collectLogs forest := by
  induction forest with
  | nil => rfl
  | cons node rest ih =>
      rw [prune, List.flatMap_cons, collectLogs_append, collectLogs_keep, ← prune, ih,
        ← collectLogs_append]
      rfl

/-- The messages of all log rules. -/
def logMessages : List String :=
  g.rules.toList.filterMap fun rule =>
    match rule.kind with
    | .log _ message _ => some message
    | _ => none

/-- An entry has the message of a log rule. -/
theorem message_mem_logMessages {forest : List Node} {entry : LogEntry}
    (h : entry ∈ g.collectLogs forest) : entry.message ∈ g.logMessages := by
  obtain ⟨node, -, hentry⟩ := List.mem_filterMap.mp h
  unfold entryOf? at hentry
  split at hentry
  · rename_i severity message guard hkind
    cases hentry
    obtain ⟨rule, hrule, hrulekind⟩ := Option.map_eq_some_iff.mp hkind
    refine List.mem_filterMap.mpr ⟨rule, Array.mem_toList_iff.mpr (Array.mem_of_getElem? hrule), ?_⟩
    rw [hrulekind]
  · cases hentry

/-! ### Forests without log entries -/

/-- A forest without log entries, at any depth. -/
def LogFree (forest : List Node) : Prop := ∀ node ∈ preorderAll forest, g.isLog node.rule = false

variable {g} {first second : List Node} {node : Node}

theorem LogFree.nil : g.LogFree [] := fun _ h => nomatch h

theorem LogFree.append_iff : g.LogFree (first ++ second) ↔ g.LogFree first ∧ g.LogFree second := by
  simp only [LogFree, preorderAll_append, List.mem_append, or_imp, forall_and]

theorem LogFree.singleton_iff :
    g.LogFree [node] ↔ g.isLog node.rule = false ∧ g.LogFree node.children := by
  simp only [LogFree, preorderAll_singleton, List.forall_mem_cons]

theorem isLog_of_mem_forestLogEntries {forest : List Node}
    (h : node ∈ forestLogEntries g.isLog forest) : g.isLog node.rule := by
  induction forest using forest_induction with
  | nil => cases h
  | cons rule span children rest ihchildren ihrest =>
      rw [forestLogEntries_cons, List.mem_append] at h
      rcases h with h | h
      · split at h
        · rename_i hlog
          rw [List.mem_singleton.mp h]
          exact hlog
        · exact ihchildren h
      · exact ihrest h

/-- A forest gives up no entries only if it has none. -/
theorem forestLogEntries_eq_nil_iff {forest : List Node} :
    forestLogEntries g.isLog forest = [] ↔ g.LogFree forest := by
  induction forest using forest_induction with
  | nil => exact ⟨fun _ => .nil, fun _ => rfl⟩
  | cons rule span children rest ihchildren ihrest =>
      rw [← List.singleton_append, LogFree.append_iff, LogFree.singleton_iff,
        List.singleton_append, forestLogEntries_cons, List.append_eq_nil_iff, ihrest, ← ihchildren]
      refine and_congr_left fun _ => ?_
      cases g.isLog rule <;> simp

/-! ### What prunings leave -/

theorem prune_none (forest : List Node) : g.prune .none forest = forest := by
  induction forest with
  | nil => rfl
  | cons node rest ih =>
      rw [prune, List.flatMap_cons, ← prune, ih]
      rfl

theorem prune_root_singleton {id : RuleId} (hlog : g.isLog id = false) (span : Span)
    (nodes : List Node) : g.prune .root [⟨id, span, nodes⟩] = nodes := by
  simp [prune, Pruning.keep, hlog]

theorem prune_all_leaf {id : RuleId} (hlog : g.isLog id = false) (span : Span) :
    g.prune .all [.leaf id span] = [] := by
  simp [prune, Pruning.keep, leaf, logEntries, forestLogEntries, hlog]

theorem prune_all (forest : List Node) : g.prune .all forest = forestLogEntries g.isLog forest := by
  induction forest with
  | nil => rfl
  | cons node rest ih =>
      rw [prune, List.flatMap_cons, ← prune, ih]
      rfl

theorem prune_log_leaf {id : RuleId} (hlog : g.isLog id) (pruning : Pruning) (span : Span) :
    g.prune pruning [.leaf id span] = [.leaf id span] := by
  cases pruning <;> simp [prune, Pruning.keep, leaf, logEntries, hlog]

end Graph

end RuleScript
