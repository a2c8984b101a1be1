import RuleScript.Proofs.Logs
import RuleScript.Proofs.Match.Passing
import RuleScript.Proofs.Match.Way

/-!
# Trees that show names

A rule without a name is there for structure only.  A graph is discreet if each such rule gives its node
up, unless it is of a kind that puts no node over what it matches.  All that a match of a discreet graph
leaves, at any depth, are then nodes of rules with names and log entries
(`Graph.Discreet.matchAt_shows`).

This has to be said of rules of all kinds, since rules pass on what the rules inside left.  The nodes over
an operator chain belong to none of the rules that are being matched: each belongs to the first rule with a
name on the way to the operator, or else to the sequence at the end of the way, and is pruned as that rule
says (`Graph.Discreet.hides`).
-/

namespace RuleScript

variable {α : Type}

/-- Whether a node that is pruned gives way to what is below it, or to some of that. -/
def Pruning.dropsRoot : Pruning → Bool
  | root | all => true
  | none | children => false

/-- Whether a rule shows a name with each node it puts over what it matches. -/
def Rule.isDiscreet (rule : Rule α) : Bool :=
  rule.name.isSome || rule.pruning.dropsRoot || !rule.kind.leavesNode

namespace Graph

/-- Rules without a name leave no nodes of their own. -/
def Discreet (g : Graph α) : Prop := ∀ rule ∈ g.rules, rule.isDiscreet

instance (g : Graph α) : Decidable g.Discreet :=
  inferInstanceAs (Decidable (∀ rule ∈ g.rules, _))

/-- Each node of a forest, at any depth, belongs to a rule with a name or is a log entry. -/
def Shows (g : Graph α) (forest : List Node) : Prop :=
  ∀ node ∈ Node.preorderAll forest, g.isNamed node.rule ∨ g.isLog node.rule

variable {g : Graph α} {id : RuleId} {pruning : Pruning} {inner : List Node}

/-! ## What prunings show -/

theorem shows_additive : Node.Additive g.Shows where
  nil _ hnode := nomatch hnode
  append hfirst hsecond node hnode := by
    rw [Node.preorderAll_append, List.mem_append] at hnode
    exact hnode.elim (hfirst node) (hsecond node)

theorem shows_singleton (hid : g.isNamed id ∨ g.isLog id) (span : Span) (hinner : g.Shows inner) :
    g.Shows [⟨id, span, inner⟩] := by
  intro node hnode
  rw [Node.preorderAll_singleton] at hnode
  rcases List.mem_cons.mp hnode with rfl | hnode
  · exact hid
  · exact hinner node hnode

theorem Shows.prune {forest : List Node} (h : g.Shows forest) (pruning : Pruning) :
    g.Shows (g.prune pruning forest) := by
  intro node hnode
  obtain ⟨origin, hmem, hrule, -⟩ := exists_origin_of_mem_prune hnode
  exact hrule ▸ h origin hmem

/-- What gives up its node shows what is below it. -/
theorem Shows.prune_under (h : g.Shows inner) (hid : g.isNamed id ∨ pruning.dropsRoot) (span : Span) :
    g.Shows (g.prune pruning [⟨id, span, inner⟩]) := by
  rcases hid with hnamed | hdrops
  · exact (shows_singleton (.inl hnamed) span h).prune pruning
  cases hlog : g.isLog id with
  | true => exact (shows_singleton (.inr hlog) span h).prune pruning
  | false =>
      cases pruning with
      | none => cases hdrops
      | root =>
          rw [prune_root_singleton hlog]
          exact h
      | all =>
          rw [prune_all, Node.forestLogEntries_cons, hlog, Node.forestLogEntries, List.append_nil]
          exact fun node hnode => h node (Node.mem_preorderAll_of_mem_forestLogEntries hnode)
      | children => cases hdrops

/-- A rule with a name, or one that gives up its node, shows what it is made of. -/
theorem Shows.of_madeOf {outcome : Outcome} {start : Nat}
    (h : outcome.MadeOf g g.Shows id start) (hid : g.isNamed id ∨ pruning.dropsRoot) :
    g.Shows (g.prune pruning outcome.nodes) :=
  h.nodes (Q := fun nodes => g.Shows (g.prune pruning nodes)) shows_additive.nil
    (fun _ hinner => hinner.prune pruning) (fun _ _ hinner => hinner.prune_under hid _)
    fun hlog span => (shows_singleton (.inr hlog) span shows_additive.nil).prune pruning

theorem shows_mapNodes {outcome : Outcome} (h : g.Shows (g.prune pruning outcome.nodes)) :
    g.Shows (outcome.mapNodes (g.prune pruning)).nodes := by
  cases outcome with
  | failure => exact shows_additive.nil
  | success len nodes => exact h

/-! ## Rules and operators of a discreet graph -/

namespace Discreet

/-- A rule whose node would show no name gives it up. -/
theorem isNamed_or_dropsRoot (hg : g.Discreet) {rule : Rule α} (hrule : g.rule? id = some rule)
    (hnode : rule.kind.leavesNode) : g.isNamed id ∨ rule.pruning.dropsRoot := by
  have hdiscreet := hg rule (Array.mem_of_getElem? hrule)
  rw [Rule.isDiscreet, hnode, Bool.not_true, Bool.or_false, Bool.or_eq_true] at hdiscreet
  refine hdiscreet.imp_left fun hname => ?_
  rw [isNamed, nameOf?, hrule]
  exact hname

/-- An operator shows a name or gives up its node, if the identity of the way so far is a name. -/
theorem operatorFrom?_hides (hg : g.Discreet) {steps : Nat} {identity : Option RuleId}
    {current : RuleId} {operator : BinaryOperator} (hidentity : ∀ one ∈ identity, g.isNamed one)
    (h : g.operatorFrom? steps identity current = some operator) :
    g.isNamed operator.identity ∨ operator.pruning.dropsRoot := by
  induction steps generalizing identity current with
  | zero => cases h
  | succ steps ih =>
      have hnamed : ∀ one ∈ g.identityAt identity current, g.isNamed one := by
        intro one hone
        rcases Option.or_eq_some_iff.mp hone with hone | ⟨-, hone⟩
        · exact hidentity one hone
        · split at hone
          · rename_i hcurrent
            exact Option.some.inj hone ▸ hcurrent
          · cases hone
      cases hnext : g.subject? current with
      | some next =>
          rw [operatorFrom?_of_subject? hnext] at h
          exact ih hnamed h
      | none =>
          rw [operatorFrom?_of_subject?_eq_none hnext, operatorAt?] at h
          split at h
          · rename_i left symbol right hkind
            cases h
            cases hfound : g.identityAt identity current with
            | some one => exact .inl (hnamed one hfound)
            | none =>
                -- No rule on the way has a name, so the operator is pruned as its sequence is.
                obtain ⟨rule, hrule, hsequence⟩ := Option.map_eq_some_iff.mp hkind
                have hnode : rule.kind.leavesNode := by
                  rw [hsequence]
                  rfl
                rw [operatorOf, Option.getD_none, hrule]
                exact hg.isNamed_or_dropsRoot hrule hnode
          · cases h

/-- **The nodes over a chain** show a name, or the operator gives them up. -/
theorem hides (hg : g.Discreet) {evaluation : RuleId} {alternatives : List RuleId}
    {operator : BinaryOperator}
    (h : operator ∈ (Match.ChainForm.ofEvaluation g evaluation alternatives).operators) :
    g.isNamed operator.identity ∨ operator.pruning.dropsRoot := by
  obtain ⟨alternative, -, hfound⟩ := Match.exists_operatorFrom?_of_mem_operators h
  exact hg.operatorFrom?_hides (fun _ hone => absurd hone (Option.not_mem_none _)) hfound

/-! ## Matches of a discreet graph -/

variable [Element α] {input : Array α}

theorem runWithin_shows (hg : g.Discreet) (limit depth : Nat) (id : RuleId) (start : Nat) :
    (g.runWithin input limit depth id start).Yields fun outcome => g.Shows outcome.nodes := by
  refine runWithin_induction (P := fun _ _ run =>
    run.Yields fun outcome => g.Shows outcome.nodes) ?_ ?_ ?_ depth id start
  · intro id start hrule
    exact (Run.Yields.record _).bind fun _ _ => .pure shows_additive.nil
  · intro id start
    exact .throw trivial
  · intro depth ih id rule hrule start
    have hkind := kind?_eq_some hrule
    -- The node of an operator hides unless it has a name to show.
    have hchain (alternatives : List RuleId) :
        (Match.chain (g.runWithin input limit depth) (.ofEvaluation g id alternatives) g input.size
          start).Yields fun outcome => g.Shows outcome.nodes :=
      Match.chain_passes shows_additive ih fun _ hoperator span _ hinner =>
        hinner.prune_under (hg.hides hoperator) span
    cases hnode : rule.kind.leavesNode with
    | false =>
        have hpassed : (Match.kind g input (g.runWithin input limit depth) id rule.kind start).Yields
            fun outcome => g.Shows outcome.nodes :=
          Match.kind_passes_on Trace.steady_true shows_additive hkind hnode (fun _ _ => trivial)
            (fun _ _ _ _ => trivial) (fun alternatives _ => hchain alternatives) (fun one _ => ih one)
            (fun _ hnodes => hnodes)
            fun hlog _ span => shows_singleton (.inr hlog) span shows_additive.nil
        exact hpassed.map fun _ hnodes => shows_mapNodes (hnodes.prune rule.pruning)
    | true =>
        have hmade : (Match.kind g input (g.runWithin input limit depth) id rule.kind start).Yields
            (·.MadeOf g g.Shows id start) :=
          Match.kind_passes Trace.steady_true shows_additive hkind (fun _ _ => trivial)
            (fun _ _ _ _ => trivial)
            (fun alternatives _ => (hchain alternatives).mono (fun _ h => h) fun _ => .of_nodes)
            fun one _ => ih one
        exact hmade.map fun _ hmade =>
          shows_mapNodes (Shows.of_madeOf hmade (hg.isNamed_or_dropsRoot hrule hnode))

/-- **Trees of a discreet graph show names**: whichever rule a match starts from, all it leaves are nodes
of rules with names and log entries. -/
theorem matchAt_shows (hg : g.Discreet) (limit : Nat) (id : RuleId) (start : Nat) {len : Nat}
    {nodes : List Node} {trace : Trace}
    (h : g.matchAt input limit id start = (.ok (.success len nodes), trace)) : g.Shows nodes :=
  (hg.runWithin_shows limit limit id start).of_result h

end Discreet

end Graph

end RuleScript
