import RuleScript.Match.Precedence
import RuleScript.Proofs.Pruning

/-!
# What a tree of operators leaves

The nodes that a reading of a chain leaves are told here from the bottom up, one operator at a time:
the nodes of the left side, those of the operator and those of the right side, below a node of the
operator that spans both sides, and of this what the operator's pruning leaves
(`ChainTree.Annotates`).  What a pruning leaves is told case by case (`Graph.PrunesTo`), and the log
entries that it keeps by going through a forest (`Node.Outermost`).

Every tree leaves one span and one list of nodes, and these are its fold
(`ChainTree.annotates_iff`).
-/

namespace RuleScript

/-- The outermost log entries of a forest, from left to right.  The nodes below a node that is no
entry come in its place. -/
inductive Node.Outermost (isLog : RuleId → Bool) : (forest entries : List Node) → Prop
  | nil : Outermost isLog [] []
  | entry {node : Node} {rest entries : List Node} (hlog : isLog node.rule)
      (hrest : Outermost isLog rest entries) : Outermost isLog (node :: rest) (node :: entries)
  | inner {node : Node} {rest entries : List Node} (hlog : isLog node.rule = false)
      (hrest : Outermost isLog (node.children ++ rest) entries) :
    Outermost isLog (node :: rest) entries

/-- What a pruning leaves of a node. -/
inductive Graph.PrunesTo {α : Type} (g : Graph α) (node : Node) : Pruning → List Node → Prop
  | none : PrunesTo g node .none [node]
  | entry (hlog : g.isLog node.rule) (pruning : Pruning) : PrunesTo g node pruning [node]
  | root (hlog : g.isLog node.rule = false) : PrunesTo g node .root node.children
  | all {entries : List Node} (hlog : g.isLog node.rule = false)
      (hentries : Node.Outermost g.isLog node.children entries) : PrunesTo g node .all entries
  | children {entries : List Node} (hlog : g.isLog node.rule = false)
      (hentries : Node.Outermost g.isLog node.children entries) :
    PrunesTo g node .children [⟨node.rule, node.span, entries⟩]

/-- What a tree spans and the nodes it leaves. -/
inductive ChainTree.Annotates {α : Type} (g : Graph α) : ChainTree → Span → List Node → Prop
  | operand (alone : Operand) : Annotates g (.operand alone) alone.span alone.nodes
  | branch {left right : ChainTree} {operator : BinaryOperator} {leftSpan rightSpan span : Span}
      {nodes onLeft onRight found : List Node} (hleft : Annotates g left leftSpan onLeft)
      (hright : Annotates g right rightSpan onRight)
      (hstart : span.start = min leftSpan.start rightSpan.start)
      (hstop : span.stop = max leftSpan.stop rightSpan.stop)
      (hpruned : g.PrunesTo ⟨operator.identity, span, onLeft ++ nodes ++ onRight⟩ operator.pruning
        found) :
    Annotates g (.branch left operator nodes right) span found

namespace Node

variable {isLog : RuleId → Bool} {first second forest entries entries' : List Node}

theorem Outermost.append (h : Outermost isLog first entries)
    (h' : Outermost isLog second entries') :
    Outermost isLog (first ++ second) (entries ++ entries') := by
  induction h with
  | nil => exact h'
  | entry hlog _ ih => exact .entry hlog ih
  | inner hlog _ ih =>
      rw [List.append_assoc] at ih
      exact .inner hlog ih

theorem outermost_iff : Outermost isLog forest entries ↔ entries = forestLogEntries isLog forest := by
  constructor
  · intro h
    induction h with
    | nil => rfl
    | entry hlog _ ih => rw [forestLogEntries_cons, if_pos hlog, ih, List.singleton_append]
    | inner hlog _ ih =>
        rw [forestLogEntries_cons, if_neg (Bool.eq_false_iff.mp hlog), ih, forestLogEntries_append]
  · rintro rfl
    induction forest using forest_induction with
    | nil => exact .nil
    | cons rule span children rest ihchildren ihrest =>
        rw [forestLogEntries_cons]
        split
        next hlog => exact .entry hlog ihrest
        next hlog => exact .inner (Bool.eq_false_iff.mpr hlog) (ihchildren.append ihrest)

end Node

theorem Span.cover_eq {s t span : Span} (hstart : span.start = min s.start t.start)
    (hstop : span.stop = max s.stop t.stop) : s.cover t = span := by
  have hlen : span.stop - span.start = span.len := Nat.add_sub_cancel_left ..
  rw [cover, ofBounds, ← hstart, ← hstop, hlen]

variable {α : Type} {g : Graph α}

namespace Graph

variable {node : Node} {pruning : Pruning} {nodes : List Node}

theorem prune_of_isLog (hlog : g.isLog node.rule) (pruning : Pruning) :
    g.prune pruning [node] = [node] := by
  cases pruning with
  | all => rw [prune_all, Node.forestLogEntries_cons, if_pos hlog, Node.forestLogEntries,
      List.append_nil]
  | _ => simp [prune, Pruning.keep, hlog]

theorem prune_root_of_not_isLog (hlog : g.isLog node.rule = false) :
    g.prune .root [node] = node.children := by
  simp [prune, Pruning.keep, hlog]

theorem prune_all_of_not_isLog (hlog : g.isLog node.rule = false) :
    g.prune .all [node] = Node.forestLogEntries g.isLog node.children := by
  rw [prune_all, Node.forestLogEntries_singleton_of_not_isLog g.isLog hlog]

theorem prune_children_of_not_isLog (hlog : g.isLog node.rule = false) :
    g.prune .children [node] =
      [⟨node.rule, node.span, Node.forestLogEntries g.isLog node.children⟩] := by
  simp [prune, Pruning.keep, hlog]

theorem prunesTo_iff : g.PrunesTo node pruning nodes ↔ nodes = g.prune pruning [node] := by
  constructor
  · intro h
    cases h with
    | none => rw [prune_none]
    | entry hlog => rw [prune_of_isLog hlog]
    | root hlog => rw [prune_root_of_not_isLog hlog]
    | all hlog hentries => rw [prune_all_of_not_isLog hlog, Node.outermost_iff.mp hentries]
    | children hlog hentries =>
        rw [prune_children_of_not_isLog hlog, Node.outermost_iff.mp hentries]
  · rintro rfl
    by_cases hlog : g.isLog node.rule
    · rw [prune_of_isLog hlog]
      exact .entry hlog pruning
    -- What is no entry is kept, opened or dropped as the pruning says.
    rw [Bool.not_eq_true] at hlog
    cases pruning with
    | none =>
        rw [prune_none]
        exact .none
    | root =>
        rw [prune_root_of_not_isLog hlog]
        exact .root hlog
    | all =>
        rw [prune_all_of_not_isLog hlog]
        exact .all hlog (Node.outermost_iff.mpr rfl)
    | children =>
        rw [prune_children_of_not_isLog hlog]
        exact .children hlog (Node.outermost_iff.mpr rfl)

end Graph

namespace ChainTree

/-- A tree spans what its fold does, and leaves the same nodes. -/
theorem annotates_iff {tree : ChainTree} {span : Span} {nodes : List Node} :
    tree.Annotates g span nodes ↔ tree.fold g = ⟨span, nodes⟩ := by
  constructor
  · intro h
    induction h with
    | operand alone => rfl
    | branch _ _ hstart hstop hpruned ihleft ihright =>
        rw [fold, ihleft, ihright, combine, Span.cover_eq hstart hstop,
          Graph.prunesTo_iff.mp hpruned]
  · intro h
    induction tree generalizing span nodes with
    | operand alone =>
        cases alone
        cases h
        exact .operand _
    | branch left operator nodes right ihleft ihright =>
        cases h
        exact .branch (ihleft rfl) (ihright rfl) (Span.start_cover _ _) (Span.stop_cover _ _)
          (Graph.prunesTo_iff.mpr rfl)

end ChainTree

end RuleScript
