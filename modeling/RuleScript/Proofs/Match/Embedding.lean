import RuleScript.Proofs.Forest
import RuleScript.Proofs.Match.Agreement
import RuleScript.Proofs.Match.Way

/-!
# Matches in a larger graph

A graph is embedded in another one by a renaming of ids if each of its rules is found there under its
new id, with the rules it refers to renamed likewise (`Graph.Embeds`).  The larger graph may have any
other rules in front, in between and behind.  A match of a rule then comes to the same in both graphs,
but for the names of ids in the tree it leaves (`Graph.Embeds.graphs`).

Two things need more than a look at one rule.  Whether references lead back to an evaluation, and to
which operator they lead, is searched for with as many steps as a graph has rules, and the two graphs
have different numbers of rules; but a few steps are always enough (`leadsWithin_of_size_lt`
and `operatorFrom?_of_size_lt`).  And pruning has to know which nodes are log entries, so
forests only correspond as long as all their nodes belong to rules of the first graph.
-/

namespace RuleScript

/-! ## Renaming -/

namespace Node

mutual

/-- The same tree with all ids renamed. -/
def renamed (f : RuleId → RuleId) : Node → Node
  | ⟨rule, span, children⟩ => ⟨f rule, span, forestRenamed f children⟩

/-- The same forest with all ids renamed. -/
def forestRenamed (f : RuleId → RuleId) : List Node → List Node
  | [] => []
  | node :: rest => node.renamed f :: forestRenamed f rest

end

variable {f : RuleId → RuleId}

@[simp] theorem forestRenamed_nil : forestRenamed f [] = [] := rfl

theorem forestRenamed_append (first second : List Node) :
    forestRenamed f (first ++ second) = forestRenamed f first ++ forestRenamed f second := by
  induction first with
  | nil => rfl
  | cons node rest ih => rw [List.cons_append, forestRenamed, ih, forestRenamed, List.cons_append]

theorem forestRenamed_self (forest : List Node) : forestRenamed (fun id => id) forest = forest := by
  induction forest using forest_induction with
  | nil => rfl
  | cons rule span children rest ihchildren ihrest => rw [forestRenamed, renamed, ihchildren, ihrest]

/-- Log entries are the same after a renaming that keeps apart which rules are log rules. -/
theorem forestLogEntries_renamed {isLog isLog' : RuleId → Bool} {forest : List Node}
    (h : ∀ node ∈ preorderAll forest, isLog' (f node.rule) = isLog node.rule) :
    forestLogEntries isLog' (forestRenamed f forest) =
      forestRenamed f (forestLogEntries isLog forest) := by
  induction forest using forest_induction with
  | nil => rfl
  | cons rule span children rest ihchildren ihrest =>
      rw [preorderAll_cons, List.forall_mem_cons, List.forall_mem_append] at h
      obtain ⟨hrule, hchildren, hrest⟩ := h
      rw [forestRenamed, forestLogEntries_cons, forestLogEntries_cons, forestRenamed_append,
        ihrest hrest, renamed, hrule]
      congr 1
      split
      · rfl
      · exact ihchildren hchildren

end Node

open Node

theorem Pruning.keep_renamed {isLog isLog' : RuleId → Bool} {f : RuleId → RuleId}
    (pruning : Pruning) {node : Node}
    (h : ∀ one ∈ preorderAll [node], isLog' (f one.rule) = isLog one.rule) :
    pruning.keep isLog' (node.renamed f) = forestRenamed f (pruning.keep isLog node) := by
  obtain ⟨rule, span, children⟩ := node
  have hentries := forestLogEntries_renamed h
  rw [preorderAll_singleton, List.forall_mem_cons] at h
  obtain ⟨hrule, hchildren⟩ := h
  -- Renaming keeps apart entries and other nodes, which is all that pruning looks at.
  cases pruning with
  | none => rfl
  | root =>
      rw [renamed, keep, keep, hrule]
      split <;> rfl
  | all =>
      rw [forestLogEntries_singleton] at hentries
      rw [keep, keep, ← hentries, ← forestLogEntries_singleton]
      rfl
  | children =>
      rw [renamed, keep, keep, hrule]
      split
      · rfl
      · rw [forestLogEntries_renamed hchildren]
        rfl

/-- The same outcome with all ids renamed. -/
def Outcome.renamed (f : RuleId → RuleId) (outcome : Outcome) : Outcome :=
  outcome.mapNodes (forestRenamed f)

/-- The same operator with all ids renamed. -/
def BinaryOperator.renamed (f : RuleId → RuleId) (operator : BinaryOperator) : BinaryOperator :=
  { operator with
    identity := f operator.identity
    left := f operator.left
    operator := f operator.operator
    right := f operator.right }

/-! ## Embeddings -/

namespace Graph

variable {α : Type} {f : RuleId → RuleId} {g g' : Graph α}

/-- The rules of `g` are found in `g'` under new ids, one for each. -/
structure Embeds (f : RuleId → RuleId) (g g' : Graph α) : Prop where
  rule : ∀ id rule, g.rule? id = some rule → g'.rule? (f id) = some (rule.mapSubs f)
  injOn : ∀ id id', g.contains id → g.contains id' → f id = f id' → id = id'

namespace Embeds

theorem size_le (h : Embeds f g g') : g.size ≤ g'.size := by
  have hmaps : Set.MapsTo (fun index => (f ⟨index⟩).index) (Finset.range g.size)
      (Finset.range g'.size) := by
    intro index hindex
    rw [Finset.coe_range, Set.mem_Iio] at hindex
    obtain ⟨rule, hrule⟩ : ∃ rule, g.rule? ⟨index⟩ = some rule :=
      exists_rule?_of_contains (contains_iff.mpr hindex)
    rw [Finset.coe_range, Set.mem_Iio]
    exact contains_iff.mp (contains_of_rule? (h.rule _ rule hrule))
  have hinj : Set.InjOn (fun index => (f ⟨index⟩).index) (Finset.range g.size) := by
    intro index hindex index' hindex' hsame
    rw [Finset.coe_range, Set.mem_Iio] at hindex hindex'
    exact congrArg RuleId.index (h.injOn ⟨index⟩ ⟨index'⟩ (contains_iff.mpr hindex)
      (contains_iff.mpr hindex') (Element.code_injective hsame))
  simpa using Finset.card_le_card_of_injOn _ hmaps hinj

theorem exists_rule (h : Embeds f g g') {id : RuleId} (hid : g.contains id) :
    ∃ rule, g.rule? id = some rule ∧ g'.rule? (f id) = some (rule.mapSubs f) := by
  obtain ⟨rule, hrule⟩ := exists_rule?_of_contains hid
  exact ⟨rule, hrule, h.rule id rule hrule⟩

variable (h : Embeds f g g') {id : RuleId} (hid : g.contains id)

include h hid

theorem kind? : g'.kind? (f id) = (g.kind? id).map (·.mapSubs f) := by
  obtain ⟨rule, hrule, hrule'⟩ := h.exists_rule hid
  rw [kind?_eq_some hrule, kind?_eq_some hrule']
  rfl

theorem isNamed : g'.isNamed (f id) = g.isNamed id := by
  obtain ⟨rule, hrule, hrule'⟩ := h.exists_rule hid
  rw [Graph.isNamed, Graph.isNamed, nameOf?, nameOf?, hrule, hrule']
  rfl

theorem isLog : g'.isLog (f id) = g.isLog id := by
  obtain ⟨rule, hrule, hrule'⟩ := h.exists_rule hid
  rw [Graph.isLog, Graph.isLog, hrule, hrule']
  cases hkind : rule.kind <;> simp [Rule.mapSubs, Kind.mapSubs, Kind.isLog, hkind]

theorem subject? : g'.subject? (f id) = (g.subject? id).map f := by
  rw [Graph.subject?, Graph.subject?, h.kind? hid]
  cases g.kind? id with
  | none => rfl
  | some kind => cases kind <;> rfl

end Embeds

/-! ## Ways -/

theorem Embeds.leadsWithin (h : Embeds f g g') (hg : g.WellFormed) (steps : Nat)
    {id target : RuleId} (hid : g.contains id) (htarget : g.contains target) :
    g'.leadsWithin (f target) steps (f id) = g.leadsWithin target steps id := by
  induction steps generalizing id with
  | zero => rfl
  | succ steps ih =>
      have hsame : decide (f id = f target) = decide (id = target) :=
        decide_eq_decide.mpr ⟨h.injOn id target hid htarget, congrArg f⟩
      rw [leadsWithin_succ, leadsWithin_succ, hsame, h.subject? hid]
      cases hnext : g.subject? id with
      | none => rfl
      | some next =>
          rw [Option.map_some, Option.any_some, Option.any_some,
            ih (hg.contains_of_mem_subs (mem_subs_of_subject? hnext))]

theorem Embeds.leadsTo (h : Embeds f g g') (hg : g.WellFormed) {id target : RuleId}
    (hid : g.contains id) (htarget : g.contains target) :
    g'.leadsTo (f id) (f target) = g.leadsTo id target := by
  rw [Graph.leadsTo, h.leadsWithin hg _ hid htarget]
  exact leadsWithin_of_size_lt (Nat.lt_succ_of_le h.size_le)

theorem Embeds.operatorOf (h : Embeds f g g') {identity : RuleId} (hidentity : g.contains identity)
    (left operator right : RuleId) :
    g'.operatorOf (f identity) (f left) (f operator) (f right) =
      (g.operatorOf identity left operator right).renamed f := by
  obtain ⟨rule, hrule, hrule'⟩ := h.exists_rule hidentity
  simp only [Graph.operatorOf, hrule, hrule']
  rfl

theorem Embeds.identityAt (h : Embeds f g g') (identity : Option RuleId) {current : RuleId}
    (hcurrent : g.contains current) :
    g'.identityAt (identity.map f) (f current) = (g.identityAt identity current).map f := by
  rw [Graph.identityAt, Graph.identityAt, h.isNamed hcurrent, Option.map_or]
  split <;> rfl

theorem Embeds.operatorAt? (h : Embeds f g g') {identity : Option RuleId} {current : RuleId}
    (hidentity : ∀ id ∈ identity, g.contains id) (hcurrent : g.contains current) :
    g'.operatorAt? (identity.map f) (f current) =
      (g.operatorAt? identity current).map (·.renamed f) := by
  have hgetD : (identity.map f).getD (f current) = f (identity.getD current) := by
    cases identity <;> rfl
  rw [Graph.operatorAt?, Graph.operatorAt?, h.kind? hcurrent, hgetD]
  cases g.kind? current with
  | none => rfl
  | some kind =>
      cases kind with
      | sequence subs =>
          rcases subs with _ | ⟨left, _ | ⟨operator, _ | ⟨right, _ | ⟨more, rest⟩⟩⟩⟩
          case cons.cons.cons.nil =>
            exact congrArg some (h.operatorOf (contains_getD hidentity hcurrent) left operator right)
          all_goals rfl
      | _ => rfl

theorem Embeds.operatorFrom? (h : Embeds f g g') (hg : g.WellFormed) (steps : Nat)
    {identity : Option RuleId} {current : RuleId} (hidentity : ∀ id ∈ identity, g.contains id)
    (hcurrent : g.contains current) :
    g'.operatorFrom? steps (identity.map f) (f current) =
      (g.operatorFrom? steps identity current).map (·.renamed f) := by
  induction steps generalizing identity current with
  | zero => rfl
  | succ steps ih =>
      have hmore := contains_of_mem_identityAt hidentity hcurrent
      have hsubject := h.subject? hcurrent
      -- Both searches pass through the same wrappers and stop at the same rule.
      cases hnext : g.subject? current with
      | some next =>
          rw [hnext, Option.map_some] at hsubject
          rw [operatorFrom?_of_subject? hsubject, operatorFrom?_of_subject? hnext,
            h.identityAt identity hcurrent]
          exact ih hmore (hg.contains_of_mem_subs (mem_subs_of_subject? hnext))
      | none =>
          rw [hnext, Option.map_none] at hsubject
          rw [operatorFrom?_of_subject?_eq_none hsubject, operatorFrom?_of_subject?_eq_none hnext,
            h.identityAt identity hcurrent]
          exact h.operatorAt? hmore hcurrent

/-- What an alternative contributes is the same but for the ids. -/
theorem Embeds.classify (h : Embeds f g g') (hg : g.WellFormed) {id : RuleId}
    (hid : g.contains id) :
    (g'.classify (f id)).operandRule = f (g.classify id).operandRule ∧
      (g'.classify (f id)).binary? = (g.classify id).binary?.map (·.renamed f) := by
  have hmore : g.operatorFrom? (g'.size + 1) none id = g.operatorFrom? (g.size + 1) none id :=
    operatorFrom?_of_size_lt (Nat.lt_succ_of_le h.size_le) none
  have hnobody : ∀ identity ∈ (none : Option RuleId), g.contains identity := fun _ hmem => nomatch hmem
  have hsame := h.operatorFrom? hg (g'.size + 1) hnobody hid
  rw [hmore, Option.map_none] at hsame
  rw [Graph.classify, Graph.classify, hsame]
  cases g.operatorFrom? (g.size + 1) none id with
  | none => exact ⟨rfl, rfl⟩
  | some operator => exact ⟨rfl, rfl⟩

/-! ## Operator chains -/

section Chains

open Match

variable {evaluation : RuleId} {alternatives : List RuleId}

theorem Embeds.operands (h : Embeds f g g') (hg : g.WellFormed) (hevaluation : g.contains evaluation)
    (halternatives : ∀ id ∈ alternatives, g.contains id) :
    (ChainForm.ofEvaluation g' (f evaluation) (alternatives.map f)).operands =
      (ChainForm.ofEvaluation g evaluation alternatives).operands.map f := by
  have hmap : ((alternatives.map f).map g'.classify).map (·.operandRule) =
      ((alternatives.map g.classify).map (·.operandRule)).map f := by
    simp only [List.map_map]
    exact List.map_congr_left fun id hid => (h.classify hg (halternatives id hid)).1
  simp only [ChainForm.ofEvaluation]
  rw [hmap, List.filter_map]
  refine congrArg (List.map f) (List.filter_congr fun id hid => ?_)
  have hcontains : g.contains id := by
    obtain ⟨_, halternative, rfl⟩ := List.mem_map.mp hid
    obtain ⟨alternative, hmem, rfl⟩ := List.mem_map.mp halternative
    exact hg.contains_operandRule (halternatives alternative hmem)
  rw [Function.comp_apply, h.leadsTo hg hcontains hevaluation]

theorem Embeds.operators (h : Embeds f g g') (hg : g.WellFormed)
    (halternatives : ∀ id ∈ alternatives, g.contains id) :
    (ChainForm.ofEvaluation g' (f evaluation) (alternatives.map f)).operators =
      (ChainForm.ofEvaluation g evaluation alternatives).operators.map (·.renamed f) := by
  simp only [ChainForm.ofEvaluation, List.filterMap_map, List.map_filterMap]
  exact List.filterMap_congr fun id hid => (h.classify hg (halternatives id hid)).2

/-- The identity of an operator is a rule of the graph. -/
theorem WellFormed.contains_identity (hg : g.WellFormed) {steps : Nat} {identity : Option RuleId}
    {current : RuleId} {operator : BinaryOperator} (hidentity : ∀ id ∈ identity, g.contains id)
    (hcurrent : g.contains current)
    (hfound : g.operatorFrom? steps identity current = some operator) :
    g.contains operator.identity := by
  induction steps generalizing identity current with
  | zero => cases hfound
  | succ steps ih =>
      have hmore := contains_of_mem_identityAt hidentity hcurrent
      cases hnext : g.subject? current with
      | some next =>
          rw [operatorFrom?_of_subject? hnext] at hfound
          exact ih hmore (hg.contains_of_mem_subs (mem_subs_of_subject? hnext)) hfound
      | none =>
          rw [operatorFrom?_of_subject?_eq_none hnext, operatorAt?] at hfound
          split at hfound
          · cases hfound
            exact contains_getD hmore hcurrent
          · cases hfound

end Chains

end Graph

/-! ## Matches -/

/-- Rules of a graph under other names, and forests of such rules. -/
def Correspondence.embedding {α : Type} (D : Run.Comparison) (f : RuleId → RuleId) (g : Graph α) :
    Correspondence where
  toComparison := D
  ids id id' := g.contains id ∧ id' = f id
  shift := 0
  nodes found found' :=
    (∀ node ∈ preorderAll found, g.contains node.rule) ∧ found' = forestRenamed f found
  nodes_nil := ⟨fun _ hnode => (List.not_mem_nil hnode).elim, rfl⟩
  nodes_append := by
    rintro first _ second _ ⟨hfirst, rfl⟩ ⟨hsecond, rfl⟩
    refine ⟨?_, (forestRenamed_append first second).symm⟩
    rw [preorderAll_append, List.forall_mem_append]
    exact ⟨hfirst, hsecond⟩
  nodes_single := by
    rintro id _ found _ start len ⟨hid, rfl⟩ ⟨hfound, rfl⟩
    refine ⟨?_, rfl⟩
    rw [preorderAll_singleton, List.forall_mem_cons]
    exact ⟨hid, hfound⟩

namespace Graph

variable {α : Type} {D : Run.Comparison} {f : RuleId → RuleId} {g g' : Graph α}

/-- Pruning leaves the same of a forest whose ids are renamed. -/
theorem Embeds.prune (h : Embeds f g g') (pruning : Pruning) {forest : List Node}
    (hforest : ∀ node ∈ preorderAll forest, g.contains node.rule) :
    g'.prune pruning (forestRenamed f forest) = forestRenamed f (g.prune pruning forest) := by
  induction forest with
  | nil => rfl
  | cons node rest ih =>
      have hcons (g : Graph α) (first : Node) (others : List Node) :
          g.prune pruning (first :: others) = pruning.keep g.isLog first ++ g.prune pruning others :=
        List.flatMap_cons
      rw [preorderAll_cons, ← List.cons_append, ← preorderAll_singleton,
        List.forall_mem_append] at hforest
      have hkeep := pruning.keep_renamed fun one hone => h.isLog (hforest.1 one hone)
      rw [forestRenamed, hcons, hcons, forestRenamed_append, ih hforest.2, hkeep]

/-- What corresponds still does after it was pruned. -/
theorem Embeds.nodes_prune (h : Embeds f g g') (pruning : Pruning) (found found' : List Node)
    (hfound : (Correspondence.embedding D f g).nodes found found') :
    (Correspondence.embedding D f g).nodes (g.prune pruning found) (g'.prune pruning found') := by
  obtain ⟨hcontains, rfl⟩ := hfound
  refine ⟨fun node hnode => ?_, h.prune pruning hcontains⟩
  obtain ⟨origin, horigin, hrule, -⟩ := exists_origin_of_mem_prune hnode
  exact hrule ▸ hcontains origin horigin

open Match

/-- A graph corresponds to one that it is embedded in. -/
theorem Embeds.graphs (h : Embeds f g g') (hg : g.WellFormed) {input : Array α}
    (hsetting : (Correspondence.embedding D f g).Setting g g' input input) :
    (Correspondence.embedding D f g).Graphs g g' input input where
  setting := hsetting
  none := by
    rintro id _ ⟨hid, rfl⟩ hnone
    obtain ⟨rule, hrule, -⟩ := h.exists_rule hid
    rw [hnone] at hrule
    cases hrule
  rule := by
    rintro id _ ⟨hid, rfl⟩ rule hrule
    refine ⟨rule.mapSubs f, f, h.rule id rule hrule, rfl, fun one hone => ⟨?_, rfl⟩,
      h.nodes_prune rule.pruning⟩
    exact hg.edges rule (Array.mem_of_getElem? hrule) one hone
  chain := by
    rintro id _ alternatives alternatives' ⟨hid, rfl⟩ hkind hkind' sub sub' hsub start
    rw [h.kind? hid, hkind] at hkind'
    cases hkind'
    have hcontains {one : RuleId} (hreaches : g.Reaches id one) : g.contains one :=
      hg.contains_of_reaches hid hreaches
    have halternatives : ∀ one ∈ alternatives, g.contains one := fun one hone =>
      hcontains (reaches_of_mem_subs hkind hone)
    -- Both evaluations read their alternatives alike, so their chains call rules that correspond.
    have hforms : (Correspondence.embedding D f g).Forms sub sub'
        ((Correspondence.embedding D f g).SameShape g g')
        (ChainForm.ofEvaluation g id alternatives)
        (ChainForm.ofEvaluation g' (f id) (alternatives.map f)) := by
      constructor
      · rw [h.operands hg hid halternatives]
        refine List.forall₂_map_right_iff.mpr (List.forall₂_same.mpr fun one hone => ?_)
        exact hsub one (f one) ⟨hcontains (reaches_of_mem_operands hkind hone), rfl⟩
      · rw [h.operators hg halternatives]
        refine List.forall₂_map_right_iff.mpr (List.forall₂_same.mpr fun operator hmem => ?_)
        obtain ⟨hoperator, hright⟩ := reaches_of_mem_operators hkind hmem
        have hidentity : g.contains operator.identity := by
          obtain ⟨alternative, halternative, hfound⟩ := exists_operatorFrom?_of_mem_operators hmem
          exact hg.contains_identity (by simp) (halternatives alternative halternative) hfound
        exact ⟨⟨⟨hidentity, rfl⟩, rfl, h.nodes_prune operator.pruning⟩,
          hsub _ _ ⟨hcontains hoperator, rfl⟩, hsub _ _ ⟨hcontains hright, rfl⟩,
          (h.leadsTo hg (hcontains hright) hid).symm⟩
    exact Correspondence.chain_agree hforms rfl rfl fun _ _ _ _ => Correspondence.fold_agree

end Graph

end RuleScript
