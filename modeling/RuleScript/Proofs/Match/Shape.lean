import RuleScript.Proofs.Logs
import RuleScript.Proofs.Match.Agreement
import RuleScript.Proofs.Match.Folding
import RuleScript.Proofs.Match.Loops

/-!
# What shapes the tree does not change the match

Pruning and precedence are there to shape the tree.  A match of a graph is compared here with the
same match of the graph without them (`Graph.unshaped`): the two come to the same, and the log
entries in their trees are the same in the same order (`Graph.matchAt_unshaped`).

Two forests count as the same if they hold the same entries.  All ways of putting forests together
keep this, and pruning does since it passes entries on.  An operator chain is read differently under
other precedences, but every reading has the same operands and operators from left to right, which
is the order of the entries.
-/

namespace RuleScript

/-! ## Without pruning and precedence -/

variable {α : Type}

/-- The rule without what only has a say in the shape of trees. -/
def Rule.unshaped (rule : Rule α) : Rule α := { rule with pruning := .none, precedence := .zero }

/-- The operator of unshaped rules. -/
def BinaryOperator.unshaped (operator : BinaryOperator) : BinaryOperator :=
  { operator with precedence := .zero, pruning := .none }

namespace Graph

/-- The graph with unshaped rules. -/
def unshaped (g : Graph α) : Graph α := { g with rules := g.rules.map Rule.unshaped }

variable (g : Graph α)

@[simp] theorem size_unshaped : g.unshaped.size = g.size := Array.size_map

theorem rule?_unshaped (id : RuleId) : g.unshaped.rule? id = (g.rule? id).map Rule.unshaped :=
  Array.getElem?_map

@[simp] theorem kind?_unshaped (id : RuleId) : g.unshaped.kind? id = g.kind? id := by
  rw [kind?, kind?, rule?_unshaped, Option.map_map]
  rfl

@[simp] theorem isNamed_unshaped (id : RuleId) : g.unshaped.isNamed id = g.isNamed id := by
  rw [isNamed, isNamed, nameOf?, nameOf?, rule?_unshaped, Option.bind_map]
  rfl

@[simp] theorem label_unshaped (id : RuleId) : g.unshaped.label id = g.label id := by
  rw [label, label, rule?_unshaped]
  cases g.rule? id with
  | none => rfl
  | some rule => rfl

@[simp] theorem isLog_unshaped (id : RuleId) : g.unshaped.isLog id = g.isLog id := by
  rw [isLog, isLog, rule?_unshaped]
  cases g.rule? id with
  | none => rfl
  | some rule => rfl

@[simp] theorem entryOf?_unshaped (node : Node) :
    g.unshaped.entryOf? node = g.entryOf? node := by
  rw [entryOf?, entryOf?, kind?_unshaped]

@[simp] theorem collectLogs_unshaped (forest : List Node) :
    g.unshaped.collectLogs forest = g.collectLogs forest := by
  rw [collectLogs, collectLogs]
  exact congrArg (List.filterMap · _) (funext g.entryOf?_unshaped)

/-! ## Operators -/

theorem operatorFrom?_unshaped (steps : Nat) (identity : Option RuleId) (current : RuleId) :
    g.unshaped.operatorFrom? steps identity current =
      (g.operatorFrom? steps identity current).map BinaryOperator.unshaped := by
  induction steps generalizing identity current with
  | zero => rfl
  | succ steps ih =>
      rw [operatorFrom?, operatorFrom?]
      simp only [kind?_unshaped, isNamed_unshaped]
      split
      · exact ih _ _
      · exact ih _ _
      · rename_i left operator right hkind
        simp only [Option.map_some, operatorOf, BinaryOperator.unshaped, rule?_unshaped]
        cases g.rule? (Option.getD _ current) with
        | none => rfl
        | some rule => rfl
      · rfl

@[simp] theorem leadsTo_unshaped (id target : RuleId) :
    g.unshaped.leadsTo id target = g.leadsTo id target := by
  rw [leadsTo, leadsTo, size_unshaped]
  generalize g.size + 1 = steps
  induction steps generalizing id with
  | zero => rfl
  | succ steps ih => simp only [leadsWithin, kind?_unshaped, ih]

/-- An operator belongs to the sequence it is written as, or to a rule that leads there. -/
theorem not_isLog_of_operatorFrom? {steps : Nat} {identity : Option RuleId} {current : RuleId}
    {operator : BinaryOperator} (hidentity : ∀ id ∈ identity, g.isLog id = false)
    (h : g.operatorFrom? steps identity current = some operator) :
    g.isLog operator.identity = false := by
  induction steps generalizing identity current with
  | zero => cases h
  | succ steps ih =>
      -- The identity is the first named rule on the way, and no rule on the way is a log rule.
      have hnext (hcurrent : g.isLog current = false) :
          ∀ id ∈ identity.or (if g.isNamed current then some current else none),
            g.isLog id = false := by
        intro id hid
        rcases Option.or_eq_some_iff.mp hid with hid | ⟨-, hid⟩
        · exact hidentity id hid
        · split at hid
          · cases hid
            exact hcurrent
          · cases hid
      rw [operatorFrom?] at h
      split at h
      · rename_i hkind
        exact ih (hnext (isLog_of_kind? hkind)) h
      · rename_i hkind
        exact ih (hnext (isLog_of_kind? hkind)) h
      · rename_i hkind
        have hcurrent : g.isLog current = false := isLog_of_kind? hkind
        cases h
        rw [operatorOf]
        cases hchosen : identity.or (if g.isNamed current then some current else none) with
        | none => exact hcurrent
        | some id => exact hnext hcurrent id hchosen
      · cases h

open Match

variable {g} {evaluation : RuleId} {alternatives : List RuleId}

theorem not_isLog_of_mem_operators {operator : BinaryOperator}
    (h : operator ∈ (ChainForm.ofEvaluation g evaluation alternatives).operators) :
    g.isLog operator.identity = false := by
  obtain ⟨alternative, -, hfound⟩ := exists_operatorFrom?_of_mem_operators h
  exact not_isLog_of_operatorFrom? g (by simp) hfound

theorem operandRule_classify_unshaped (alternative : RuleId) :
    (g.unshaped.classify alternative).operandRule = (g.classify alternative).operandRule := by
  rw [classify, classify, operatorFrom?_unshaped, size_unshaped]
  cases g.operatorFrom? (g.size + 1) none alternative with
  | none => rfl
  | some operator => rfl

theorem binary?_classify_unshaped (alternative : RuleId) :
    (g.unshaped.classify alternative).binary? =
      (g.classify alternative).binary?.map BinaryOperator.unshaped := by
  rw [classify, classify, operatorFrom?_unshaped, size_unshaped]
  cases g.operatorFrom? (g.size + 1) none alternative with
  | none => rfl
  | some operator => rfl

theorem operands_unshaped :
    (ChainForm.ofEvaluation g.unshaped evaluation alternatives).operands =
      (ChainForm.ofEvaluation g evaluation alternatives).operands := by
  simp only [ChainForm.ofEvaluation, List.map_map, leadsTo_unshaped]
  exact congrArg _ (List.map_congr_left fun one _ => operandRule_classify_unshaped one)

theorem operators_unshaped :
    (ChainForm.ofEvaluation g.unshaped evaluation alternatives).operators =
      (ChainForm.ofEvaluation g evaluation alternatives).operators.map BinaryOperator.unshaped := by
  simp only [ChainForm.ofEvaluation, List.filterMap_map, List.map_filterMap]
  exact congrArg (List.filterMap · alternatives) (funext binary?_classify_unshaped)

end Graph

/-! ## Readings of a chain -/

/-- A folded reading holds the entries of its operands and operators from left to right. -/
theorem ChainTree.collectLogs_fold {g : Graph α} {tree : ChainTree}
    (h : tree.All (fun _ => True) fun operator _ => g.isLog operator.identity = false) :
    g.collectLogs (tree.fold g).nodes = g.collectLogs tree.frontier := by
  induction tree with
  | operand alone => rfl
  | branch left operator nodes right ihleft ihright =>
      obtain ⟨hleft, hoperator, hright⟩ := h
      rw [fold, combine, Graph.collectLogs_prune, frontier,
        Graph.collectLogs_singleton_of_not_isLog g hoperator]
      simp only [Graph.collectLogs_append, ihleft hleft, ihright hright]

namespace Graph

/-- Nothing is renamed or moved, and forests correspond if they hold the same entries. -/
def sameLogs (g : Graph α) : Correspondence where
  toComparison := .exact
  ids := Eq
  shift := 0
  nodes found found' := g.collectLogs found = g.collectLogs found'
  nodes_nil := rfl
  nodes_append hfirst hsecond := by
    rw [collectLogs_append, collectLogs_append, hfirst, hsecond]
  nodes_single start len hid hfound := by
    subst hid
    rw [collectLogs_singleton, collectLogs_singleton, hfound]
    rfl

/-- The same operator, perhaps with another pruning and another precedence. -/
structure SameOperator (g : Graph α) (operator operator' : BinaryOperator) : Prop where
  identity_eq : operator'.identity = operator.identity
  not_isLog : g.isLog operator.identity = false

section Readings

variable {g : Graph α} {first first' : Operand} {links links' : List Link}
variable (hfirst : g.sameLogs.Operands first first')
variable (hlinks : List.Forall₂ (g.sameLogs.Links g.SameOperator) links links')

include hfirst hlinks

theorem frontier_sameLogs :
    g.collectLogs (ChainTree.ofChain first links).frontier =
      g.collectLogs (ChainTree.ofChain first' links').frontier := by
  rw [ChainTree.frontier_ofChain, ChainTree.frontier_ofChain]
  refine g.sameLogs.nodes_append hfirst.nodes ?_
  induction hlinks with
  | nil => rfl
  | cons hlink _ ih =>
      rw [List.flatMap_cons, List.flatMap_cons]
      exact g.sameLogs.nodes_append (g.sameLogs.nodes_append hlink.nodes hlink.right.nodes) ih

theorem stop_sameLogs :
    (ChainTree.ofChain first' links').stop = (ChainTree.ofChain first links).stop := by
  rw [ChainTree.stop_ofChain, ChainTree.stop_ofChain, hfirst.stop_eq]
  show List.foldl _ first.span.stop links' = _
  generalize first.span.stop = stop
  induction hlinks generalizing stop with
  | nil => rfl
  | cons hlink _ ih =>
      rw [List.foldl_cons, List.foldl_cons, hlink.right.stop_eq]
      exact ih _

omit hfirst in
theorem not_isLog_sameLogs :
    (∀ link ∈ links, g.isLog link.operator.identity = false) ∧
      ∀ link ∈ links', g.isLog link.operator.identity = false := by
  induction hlinks with
  | nil => exact ⟨fun _ h => (List.not_mem_nil h).elim, fun _ h => (List.not_mem_nil h).elim⟩
  | cons hlink _ ih =>
      have hlog := hlink.operator.not_isLog
      constructor
      · exact List.forall_mem_cons.mpr ⟨hlog, ih.1⟩
      · exact List.forall_mem_cons.mpr ⟨hlink.operator.identity_eq ▸ hlog, ih.2⟩

/-- Two readings of a chain end at the same place and hold the same entries. -/
theorem fold_sameLogs :
    ((ChainTree.ofChain first' links').fold g.unshaped).span.stop =
        ((ChainTree.ofChain first links).fold g).span.stop + g.sameLogs.shift ∧
      g.sameLogs.nodes ((ChainTree.ofChain first links).fold g).nodes
        ((ChainTree.ofChain first' links').fold g.unshaped).nodes := by
  obtain ⟨hlogs, hlogs'⟩ := not_isLog_sameLogs hlinks
  -- No operator is an entry, so combining operands neither adds nor drops one.
  have hleft : g.collectLogs ((ChainTree.ofChain first links).fold g).nodes =
      g.collectLogs (ChainTree.ofChain first links).frontier :=
    ChainTree.collectLogs_fold (.ofChain trivial fun link hmem => ⟨hlogs link hmem, trivial⟩)
  have hright : g.collectLogs ((ChainTree.ofChain first' links').fold g.unshaped).nodes =
      g.collectLogs (ChainTree.ofChain first' links').frontier := by
    have hall : (ChainTree.ofChain first' links').All (fun _ => True) fun operator _ =>
        g.unshaped.isLog operator.identity = false :=
      .ofChain trivial fun link hmem => ⟨(isLog_unshaped g _).trans (hlogs' link hmem), trivial⟩
    have hfold := ChainTree.collectLogs_fold hall
    rw [collectLogs_unshaped, collectLogs_unshaped] at hfold
    exact hfold
  constructor
  · rw [ChainTree.stop_fold, ChainTree.stop_fold]
    exact stop_sameLogs hfirst hlinks
  · calc g.collectLogs ((ChainTree.ofChain first links).fold g).nodes
        = g.collectLogs (ChainTree.ofChain first links).frontier := hleft
      _ = g.collectLogs (ChainTree.ofChain first' links').frontier :=
          frontier_sameLogs hfirst hlinks
      _ = g.collectLogs ((ChainTree.ofChain first' links').fold g.unshaped).nodes := hright.symm

end Readings

/-! ## Matches -/

theorem sameLogs_graphs (g : Graph α) (input : Array α) :
    g.sameLogs.Graphs g g.unshaped input input where
  setting := by
    refine .inPlace (fun _ _ hid => hid.symm) rfl ?_ ?_ ?_ fun _ => rfl
    · rintro id _ rfl
      exact g.label_unshaped id
    · rintro event trace _ rfl
      rfl
    · rintro pos trace _ rfl
      rfl
  none := by
    rintro id _ rfl hrule
    rw [rule?_unshaped, hrule, Option.map_none]
  rule := by
    rintro id _ rfl rule hrule
    refine ⟨rule.unshaped, fun one => one, ?_, (Kind.mapSubs_id rule.kind).symm, fun _ _ => rfl, ?_⟩
    · rw [rule?_unshaped, hrule, Option.map_some]
    · intro found found' hfound
      -- The two prunings differ, but each passes all entries on.
      have hprune := g.unshaped.collectLogs_prune .none found'
      rw [collectLogs_unshaped, collectLogs_unshaped] at hprune
      calc g.collectLogs (g.prune rule.pruning found)
          = g.collectLogs found := g.collectLogs_prune _ _
        _ = g.collectLogs found' := hfound
        _ = g.collectLogs (g.unshaped.prune .none found') := hprune.symm
  chain := by
    rintro id _ alternatives alternatives' rfl hkind hkind' sub sub' hsub start
    rw [kind?_unshaped, hkind] at hkind'
    cases hkind'
    have hforms : g.sameLogs.Forms sub sub' g.SameOperator
        (Match.ChainForm.ofEvaluation g id alternatives)
        (Match.ChainForm.ofEvaluation g.unshaped id alternatives) := by
      constructor
      · rw [operands_unshaped]
        exact List.forall₂_same.mpr fun one _ => hsub one one rfl
      · rw [operators_unshaped]
        refine List.forall₂_map_right_iff.mpr (List.forall₂_same.mpr fun operator hmem => ?_)
        exact ⟨⟨rfl, not_isLog_of_mem_operators hmem⟩, hsub _ _ rfl, hsub _ _ rfl,
          (leadsTo_unshaped g _ _).symm⟩
    exact Correspondence.chain_agree hforms rfl rfl fun _ _ _ _ => fold_sameLogs

end Graph

/-- What a match comes to apart from its tree: success, length and log entries. -/
def Outcome.summary (g : Graph α) (outcome : Outcome) : Bool × Nat × List LogEntry :=
  (outcome.isSuccess, outcome.len, g.collectLogs outcome.nodes)

namespace Graph

variable [Element α]

/-- Without pruning and precedence a match comes to the same, and leaves the same trace. -/
theorem matchAt_unshaped (g : Graph α) (input : Array α) (limit : Nat) (id : RuleId)
    (start : Nat) :
    (g.unshaped.matchAt input limit id start).1.map (·.summary g.unshaped) =
        (g.matchAt input limit id start).1.map (·.summary g) ∧
      (g.unshaped.matchAt input limit id start).2 = (g.matchAt input limit id start).2 := by
  have hagree := Correspondence.runWithin_agree_of_aborts (g.sameLogs_graphs input) limit limit
    (fun _ => rfl) limit id id rfl start
  have hsummary (outcome outcome' : Outcome) (h : g.sameLogs.Outcomes outcome outcome') :
      outcome.summary g = outcome'.summary g.unshaped := by
    cases h with
    | failure => rfl
    | success len hfound =>
        rw [Outcome.summary, Outcome.summary, collectLogs_unshaped]
        exact congrArg (true, len, ·) hfound
  have hstart : g.sameLogs.traces {} {} := rfl
  obtain ⟨hresult, htrace⟩ :=
    hagree.map_result_eq hstart (fun _ _ h => h) (fun _ _ h => h) hsummary
  exact ⟨hresult, htrace.symm⟩

/-- Graphs that differ at most in prunings and precedences come to the same with the same log
entries, and leave the same trace. -/
theorem matchAt_of_unshaped_eq {g g' : Graph α} (h : g.unshaped = g'.unshaped) (input : Array α)
    (limit : Nat) (id : RuleId) (start : Nat) :
    (g.matchAt input limit id start).1.map (·.summary g) =
        (g'.matchAt input limit id start).1.map (·.summary g') ∧
      (g.matchAt input limit id start).2 = (g'.matchAt input limit id start).2 := by
  obtain ⟨hresult, htrace⟩ := g.matchAt_unshaped input limit id start
  obtain ⟨hresult', htrace'⟩ := g'.matchAt_unshaped input limit id start
  rw [h] at hresult htrace
  exact ⟨hresult.symm.trans hresult', htrace.symm.trans htrace'⟩

/-- Sums of products of digits; every plus leaves a note. -/
def weightedSums : Graph Char where
  rules := #[.ofKind (.range '0' '9'), .ofKind (.single '+'), .ofKind (.single '*'),
    .ofKind (.log .info "plus" none), .ofKind (.sequence [⟨1⟩, ⟨3⟩]),
    .ofKind (.sequence [⟨0⟩, ⟨4⟩, ⟨0⟩]), .ofKind (.sequence [⟨0⟩, ⟨2⟩, ⟨0⟩]),
    .ofKind (.evaluation [⟨5⟩, ⟨6⟩])]
  root := some ⟨7⟩

/-- The same with a tree for each product and no other nodes. -/
def groupedSums : Graph Char where
  rules := #[.ofKind (.range '0' '9'), (Rule.ofKind (.single '+')).pruned .all,
    .ofKind (.single '*'), .ofKind (.log .info "plus" none),
    (Rule.ofKind (.sequence [⟨1⟩, ⟨3⟩])).pruned .all,
    (Rule.ofKind (.sequence [⟨0⟩, ⟨4⟩, ⟨0⟩])).pruned .root,
    (Rule.ofKind (.sequence [⟨0⟩, ⟨2⟩, ⟨0⟩])).withPrecedence Precedence.zero.next,
    .ofKind (.evaluation [⟨5⟩, ⟨6⟩])]
  root := some ⟨7⟩

theorem weightedSums_groupedSums :
    weightedSums.unshaped = groupedSums.unshaped ∧
      (weightedSums.matchAt #['1', '+', '2', '*', '3'] 5 ⟨7⟩ 0).1.map (·.summary weightedSums) =
        .ok (true, 5, [⟨⟨3⟩, .info, "plus", ⟨2, 0⟩⟩]) ∧
      (groupedSums.matchAt #['1', '+', '2', '*', '3'] 5 ⟨7⟩ 0).1.map (·.summary groupedSums) =
        .ok (true, 5, [⟨⟨3⟩, .info, "plus", ⟨2, 0⟩⟩]) := by
  have hunshaped : weightedSums.unshaped = groupedSums.unshaped := by decide +kernel
  have hmatch : (weightedSums.matchAt #['1', '+', '2', '*', '3'] 5 ⟨7⟩ 0).1.map
      (·.summary weightedSums) = .ok (true, 5, [⟨⟨3⟩, .info, "plus", ⟨2, 0⟩⟩]) := by decide +kernel
  have hsame := (matchAt_of_unshaped_eq hunshaped #['1', '+', '2', '*', '3'] 5 ⟨7⟩ 0).1
  exact ⟨hunshaped, hmatch, hsame.symm.trans hmatch⟩

end Graph

end RuleScript
