import RuleScript.Match.Prune

/-!
# Forests

Functions on parse trees come in pairs, one for a node and one for a forest, so facts about them
are proved for forests: `Node.forest_induction` takes the first node of a forest apart into what is
below it and what comes after it.

The main statement is `Graph.exists_origin_of_mem_prune`: pruning drops nodes and empties nodes,
but whatever it leaves has the rule and the span of a node that was there before.
-/

namespace RuleScript

namespace Node

/-- Induction on a forest: below its first node, and after it. -/
theorem forest_induction {motive : List Node → Prop} (nil : motive [])
    (cons : ∀ rule span children rest, motive children → motive rest →
      motive (⟨rule, span, children⟩ :: rest)) : ∀ forest, motive forest
  | [] => nil
  | ⟨rule, span, children⟩ :: rest =>
      cons rule span children rest (forest_induction nil cons children)
        (forest_induction nil cons rest)

@[simp] theorem preorderAll_nil : preorderAll [] = [] := rfl

theorem preorderAll_cons (node : Node) (rest : List Node) :
    preorderAll (node :: rest) = node :: (preorderAll node.children ++ preorderAll rest) := by
  cases node
  rfl

@[simp] theorem preorderAll_append (first second : List Node) :
    preorderAll (first ++ second) = preorderAll first ++ preorderAll second := by
  induction first with
  | nil => rfl
  | cons node rest ih => simp only [List.cons_append, preorderAll, ih, List.append_assoc]

theorem preorderAll_singleton (node : Node) :
    preorderAll [node] = node :: preorderAll node.children := by
  rw [preorderAll_cons, preorderAll_nil, List.append_nil]

theorem mem_preorderAll_of_mem {node : Node} {forest : List Node} (h : node ∈ forest) :
    node ∈ preorderAll forest := by
  induction forest with
  | nil => cases h
  | cons head rest ih =>
      rw [preorderAll_cons]
      rcases List.mem_cons.mp h with rfl | h
      · exact List.mem_cons_self
      · exact List.mem_cons_of_mem _ (List.mem_append_right _ (ih h))

theorem mem_preorderAll_of_child {node child : Node} {forest : List Node} (h : node ∈ forest)
    (hchild : child ∈ preorderAll node.children) : child ∈ preorderAll forest := by
  induction forest with
  | nil => cases h
  | cons head rest ih =>
      rw [preorderAll_cons]
      rcases List.mem_cons.mp h with rfl | h
      · exact List.mem_cons_of_mem _ (List.mem_append_left _ hchild)
      · exact List.mem_cons_of_mem _ (List.mem_append_right _ (ih h))

/-! ## Log entries -/

theorem forestLogEntries_cons (isLog : RuleId → Bool) (node : Node) (rest : List Node) :
    forestLogEntries isLog (node :: rest) =
      (if isLog node.rule then [node] else forestLogEntries isLog node.children) ++
        forestLogEntries isLog rest := by
  cases node
  rfl

theorem forestLogEntries_append (isLog : RuleId → Bool) (first second : List Node) :
    forestLogEntries isLog (first ++ second) =
      forestLogEntries isLog first ++ forestLogEntries isLog second := by
  induction first with
  | nil => rfl
  | cons node rest ih =>
      rw [List.cons_append, forestLogEntries_cons, forestLogEntries_cons, ih, List.append_assoc]

theorem forestLogEntries_singleton (isLog : RuleId → Bool) (node : Node) :
    forestLogEntries isLog [node] = node.logEntries isLog := by
  simp only [forestLogEntries, List.append_nil]

/-- A log entry brings up no node that was not in the forest. -/
theorem mem_preorderAll_of_mem_forestLogEntries {isLog : RuleId → Bool} {node : Node}
    {forest : List Node} (h : node ∈ preorderAll (forestLogEntries isLog forest)) :
    node ∈ preorderAll forest := by
  induction forest using forest_induction with
  | nil => exact h
  | cons rule span children rest ihchildren ihrest =>
      rw [forestLogEntries_cons, preorderAll_append, List.mem_append] at h
      rw [preorderAll_cons]
      rcases h with h | h
      · split at h
        · rw [preorderAll_singleton] at h
          exact List.mem_append_left _ h
        · exact List.mem_cons_of_mem _ (List.mem_append_left _ (ihchildren h))
      · exact List.mem_cons_of_mem _ (List.mem_append_right _ (ihrest h))

end Node

/-! ## Pruning -/

open Node

/-- What a pruning keeps of a node has the rule and the span of a node of the tree. -/
theorem Pruning.exists_origin_of_mem_keep {isLog : RuleId → Bool} {pruning : Pruning}
    {forest : List Node} {node kept : Node} (hnode : node ∈ forest)
    (h : kept ∈ preorderAll (pruning.keep isLog node)) :
    ∃ origin ∈ preorderAll forest, origin.rule = kept.rule ∧ origin.span = kept.span := by
  have hwhole (hkept : kept ∈ preorderAll [node]) : kept ∈ preorderAll forest := by
    rw [preorderAll_singleton] at hkept
    rcases List.mem_cons.mp hkept with rfl | hkept
    · exact mem_preorderAll_of_mem hnode
    · exact mem_preorderAll_of_child hnode hkept
  -- Whatever is kept has been in the forest, but for a node whose children are dropped.
  cases pruning with
  | none => exact ⟨kept, hwhole h, rfl, rfl⟩
  | root =>
      simp only [keep] at h
      split at h
      · exact ⟨kept, hwhole h, rfl, rfl⟩
      · exact ⟨kept, mem_preorderAll_of_child hnode h, rfl, rfl⟩
  | all =>
      rw [keep, ← forestLogEntries_singleton] at h
      exact ⟨kept, hwhole (mem_preorderAll_of_mem_forestLogEntries h), rfl, rfl⟩
  | children =>
      simp only [keep] at h
      split at h
      · exact ⟨kept, hwhole h, rfl, rfl⟩
      · -- The node itself is made anew; only its rule and its span stay what they were.
        rw [preorderAll_singleton] at h
        rcases List.mem_cons.mp h with rfl | h
        · exact ⟨node, mem_preorderAll_of_mem hnode, rfl, rfl⟩
        · exact ⟨kept, mem_preorderAll_of_child hnode
            (mem_preorderAll_of_mem_forestLogEntries h), rfl, rfl⟩

/-- What a pruning leaves of a forest has the rules and the spans of nodes of the forest. -/
theorem Graph.exists_origin_of_mem_prune {α : Type} {g : Graph α} {pruning : Pruning}
    {forest : List Node} {kept : Node} (h : kept ∈ preorderAll (g.prune pruning forest)) :
    ∃ origin ∈ preorderAll forest, origin.rule = kept.rule ∧ origin.span = kept.span := by
  induction forest with
  | nil => cases h
  | cons node rest ih =>
      rw [prune, List.flatMap_cons, preorderAll_append, List.mem_append] at h
      rcases h with h | h
      · obtain ⟨origin, hmem, hsame⟩ :=
          Pruning.exists_origin_of_mem_keep (List.mem_cons_self (l := rest)) h
        exact ⟨origin, hmem, hsame⟩
      · obtain ⟨origin, hmem, hsame⟩ := ih h
        rw [preorderAll_cons]
        exact ⟨origin, List.mem_cons_of_mem _ (List.mem_append_right _ hmem), hsame⟩

end RuleScript
