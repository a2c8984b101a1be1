import RuleScript.Proofs.Match.Merged
import RuleScript.Proofs.Match.Reuse
import RuleScript.Token

/-!
# Tokens under a breakpoint

What a text is split into is read off what the root left: if that is a single node of the root, the
nodes below it are the tokens.  A breakpoint that is set on the root takes its place as the root, but
never leaves a node of its own.  So the node of the rule behind it is no longer seen through, and becomes
the one token itself.

This is the only way in which a breakpoint changes what a text is split into
(`Graph.WellFormed.tokenize_setBreakpoint`), and all else is the same even then: the log entries, the
length, the farthest miss and any abort.
-/

namespace RuleScript

namespace Graph

/-! ## What a match leaves -/

section Nodes

variable {α : Type} [Element α] {g : Graph α} {input : Array α} {id : RuleId} {limit start : Nat}

omit [Element α] in
theorem embeds_self (g : Graph α) : Embeds (fun id => id) g g where
  rule id rule hrule := by rw [hrule, Rule.mapSubs_id]
  injOn _ _ _ _ h := h

/-- Each node that a match leaves, at any depth, is of a rule of the graph. -/
theorem WellFormed.contains_of_matchAt (hg : g.WellFormed) (hid : g.contains id) {outcome : Outcome}
    (h : (g.matchAt input limit id start).1 = .ok outcome) :
    ∀ node ∈ Node.preorderAll outcome.nodes, g.contains node.rule := by
  -- A graph is embedded in itself, and where matches are compared like this, nodes are of its rules.
  have hyields := g.embeds_self.agree_exact hg hid input limit start {} {} rfl
  rw [matchAt] at h
  rcases hresult : (g.run input limit id start).result {} with ⟨cause | value, after⟩
  · rw [hresult] at h
    cases h
  · rw [hresult] at h hyields
    cases h
    cases hyields.2 with
    | failure => exact fun _ hnode => (List.not_mem_nil hnode).elim
    | success len hfound => exact hfound.1

/-- A log rule leaves nothing below its entry. -/
theorem promises_entries (h : g.isLog id) (input : Array α) (start : Nat) :
    g.Promises input id start fun outcome => ∀ node ∈ outcome.nodes, node.children = [] := by
  cases hrule : g.rule? id with
  | none => simp [isLog, hrule] at h
  | some rule =>
      refine promises_of_rule hrule fun sub _ => ?_
      -- Whatever the guard gives, the entry is a leaf.
      have hentry (severity : Severity) (message : String) (guarded : Outcome) :
          (Match.entryOver g id severity message start guarded : Run Outcome).Yields fun outcome =>
            ∀ node ∈ (outcome.mapNodes (g.prune rule.pruning)).nodes, node.children = [] := by
        cases guarded with
        | failure => exact .pure fun _ hnode => (List.not_mem_nil hnode).elim
        | success len nodes =>
            rw [Match.entryOver]
            split
            · exact .throw trivial
            · refine (Run.Yields.record _).bind fun _ _ => .pure fun node hnode => ?_
              rw [Outcome.mapNodes, prune_log_leaf h] at hnode
              rw [List.mem_singleton.mp hnode]
              rfl
      cases hkind : rule.kind with
      | log severity message guard =>
          cases guard with
          | none => exact hentry severity message _
          | some guard =>
              exact (Run.Yields.trivial _).bind fun guarded _ => hentry severity message guarded
      | _ => simp [isLog, hrule, hkind, Kind.isLog] at h

/-- A match of the root that is cut off at neither of two limits comes to the same at both. -/
theorem matchRoot_eq_of_not_cutOff {limit' : Nat} (hcut : ¬ CutOff (g.matchRoot input limit))
    (hcut' : ¬ CutOff (g.matchRoot input limit')) :
    g.matchRoot input limit' = g.matchRoot input limit := by
  cases hroot : g.root with
  | none => rw [matchRoot_of_root_eq_none hroot, matchRoot_of_root_eq_none hroot]
  | some root =>
      rw [matchRoot_eq_matchAt hroot] at hcut hcut' ⊢
      rw [matchRoot_eq_matchAt hroot]
      rcases Nat.le_total limit limit' with hle | hle
      · exact matchAt_of_le hcut hle
      · exact (matchAt_of_le hcut' hle).symm

end Nodes

/-! ## Log entries -/

/-- A breakpoint is no log rule, and the log rules that there are say the same with it. -/
theorem entryOf?_withBreakpoint {α : Type} (g : Graph α) (target : RuleId) :
    (g.withBreakpoint target).entryOf? = g.entryOf? := by
  funext node
  by_cases hnode : g.contains node.rule
  · rw [entryOf?, entryOf?, kind?_withBreakpoint hnode]
    cases g.kind? node.rule with
    | none => rfl
    | some kind => cases kind <;> rfl
  · have hlog : g.isLog node.rule = false := by rw [isLog, rule?_eq_none hnode]
    rw [entryOf?_eq_none g hlog]
    exact entryOf?_eq_none _ (by rw [isLog_withBreakpoint, hlog])

theorem collectLogs_withBreakpoint {α : Type} (g : Graph α) (target : RuleId) :
    (g.withBreakpoint target).collectLogs = g.collectLogs := by
  funext forest
  rw [collectLogs, entryOf?_withBreakpoint, ← collectLogs]

end Graph

/-! ## Tokens -/

namespace Tokenized

open RuleScript.Graph

variable {g : Graph Char} {target : RuleId} {forest : List Node} {node : Node}

/-- The nodes of a forest as tokens, but for log entries. -/
def visible (g : Graph Char) (forest : List Node) : Array Token :=
  ((forest.filter fun node => !g.isLog node.rule).map Token.mk).toArray

/-- What is not a single node of the root is not seen through. -/
theorem tokensOf_eq_visible (h : ∀ node, forest = [node] → some node.rule ≠ g.root) :
    tokensOf g forest = visible g forest := by
  match forest with
  | [] => rfl
  | [node] => rw [tokensOf, if_neg (h node rfl), visible]
  | _ :: _ :: _ => rfl

theorem tokensOf_root (h : some node.rule = g.root) :
    tokensOf g [node] = visible g node.children := by
  rw [tokensOf, if_pos h, visible]

theorem visible_singleton (h : g.isLog node.rule = false) : visible g [node] = #[⟨node⟩] := by
  simp [visible, h]

theorem visible_singleton_log (h : g.isLog node.rule) : visible g [node] = #[] := by
  simp [visible, h]

/-- A node is not among what is below it. -/
theorem visible_children_ne (g : Graph Char) (node : Node) :
    visible g node.children ≠ #[⟨node⟩] := by
  intro heq
  have hmem : (⟨node⟩ : Token) ∈ visible g node.children := by
    rw [heq]
    exact Array.mem_singleton_self _
  simp only [visible, List.mem_toArray, List.mem_map, List.mem_filter] at hmem
  obtain ⟨child, ⟨hchild, -⟩, hsame⟩ := hmem
  cases hsame
  have hlt := List.sizeOf_lt_of_mem hchild
  have hsize : sizeOf node.children < sizeOf node := by
    cases node
    simp only [Node.mk.sizeOf_spec]
    omega
  omega

/-- Nothing is seen through any more once the breakpoint is the root. -/
theorem tokensOf_withBreakpoint (hforest : ∀ node ∈ forest, g.contains node.rule) :
    tokensOf (g.withBreakpoint target) forest =
      if g.root = some target then visible g forest else tokensOf g forest := by
  split
  · rename_i hroot
    have hnew : ∀ node, forest = [node] → some node.rule ≠ (g.withBreakpoint target).root := by
      rintro node rfl hnode
      rw [root_withBreakpoint, hroot, Option.map_some, watched_target, Option.some.injEq] at hnode
      exact ne_new_of_contains (hforest node List.mem_cons_self) hnode
    rw [tokensOf_eq_visible hnew, visible, isLog_withBreakpoint, visible]
  · rename_i hroot
    have hsame : (g.withBreakpoint target).root = g.root := by
      rw [root_withBreakpoint]
      cases hfound : g.root with
      | none => rfl
      | some root =>
          have hne : root ≠ target := fun heq => hroot (by rw [hfound, heq])
          rw [Option.map_some, watched_of_ne hne]
    simp only [tokensOf, hsame, isLog_withBreakpoint]

end Tokenized

namespace Graph

open Tokenized

variable {g : Graph Char} {chars : Array Char} {limit limit' : Nat} {target : RuleId} {node : Node}

/-- Splitting a text was given up for the depth of its match. -/
def CutsOff (g : Graph Char) (chars : Array Char) (limit : Nat) : Prop :=
  ∃ reached pos, (g.tokenize chars limit).1 = .error (.depthExceeded reached pos)

/-- The root matches and leaves nothing but a node of its own, which is no log entry. -/
def LeavesRootNode (g : Graph Char) (chars : Array Char) (limit : Nat) (node : Node) : Prop :=
  ∃ len, (g.matchRoot chars limit).1 = .ok (.success len [node]) ∧ some node.rule = g.root ∧
    g.isLog node.rule = false

theorem tokenize_eq (g : Graph Char) (chars : Array Char) (limit : Nat) :
    (g.tokenize chars limit).1 =
      (g.matchRoot chars limit).1.map (ofOutcome g (g.matchRoot chars limit).2.farthest) := rfl

theorem cutsOff_iff : g.CutsOff chars limit ↔ CutOff (g.matchRoot chars limit) := by
  rw [CutsOff, CutOff, tokenize_eq]
  cases (g.matchRoot chars limit).1 with
  | ok outcome => simp [Except.map]
  | error cause => simp [Except.map]

theorem not_cutsOff_of_tokenize {t : Tokenized} (h : (g.tokenize chars limit).1 = .ok t) :
    ¬ g.CutsOff chars limit := by
  rintro ⟨reached, pos, heq⟩
  rw [h] at heq
  cases heq

theorem tokenize_eq_of_not_cutsOff (hcut : ¬ g.CutsOff chars limit) (hcut' : ¬ g.CutsOff chars limit') :
    (g.tokenize chars limit').1 = (g.tokenize chars limit).1 := by
  rw [cutsOff_iff] at hcut hcut'
  rw [tokenize_eq, tokenize_eq, matchRoot_eq_of_not_cutOff hcut hcut']

/-- What a text is split into with a new breakpoint is read off the same match. -/
theorem WellFormed.tokenize_withBreakpoint (hg : g.WellFormed) (htarget : g.contains target)
    (hcut : ¬ g.CutsOff chars limit) (hcut' : ¬ (g.withBreakpoint target).CutsOff chars limit') :
    ((g.withBreakpoint target).tokenize chars limit').1 =
      (g.matchRoot chars limit).1.map
        (ofOutcome (g.withBreakpoint target) (g.matchRoot chars limit).2.farthest) := by
  rw [cutsOff_iff] at hcut hcut'
  obtain ⟨hresult, hfarthest⟩ :=
    (hg.transparentIn_withBreakpoint htarget chars).1.of_watched limit' hcut'
  have hplain : ¬ CutOff (g.matchRoot chars limit') := by
    rintro ⟨reached, pos, heq⟩
    exact hcut' ⟨reached, pos, hresult.trans heq⟩
  rw [tokenize_eq, hresult, hfarthest, matchRoot_eq_of_not_cutOff hcut hplain]

theorem WellFormed.contains_of_matchRoot (hg : g.WellFormed) {len : Nat} {forest : List Node}
    (h : (g.matchRoot chars limit).1 = .ok (.success len forest)) :
    ∀ node ∈ forest, g.contains node.rule := by
  cases hroot : g.root with
  | none =>
      rw [matchRoot_of_root_eq_none hroot] at h
      cases h
  | some root =>
      rw [matchRoot_eq_matchAt hroot] at h
      exact fun node hnode => hg.contains_of_matchAt (hg.root root hroot) h node
        (Node.mem_preorderAll_of_mem hnode)

/-- A single node of the root that is a log entry has nothing below it. -/
theorem children_eq_nil_of_log {len : Nat} (h : (g.matchRoot chars limit).1 = .ok (.success len [node]))
    (hroot : some node.rule = g.root) (hlog : g.isLog node.rule) : node.children = [] := by
  have hresult : g.matchRoot chars limit =
      (.ok (.success len [node]), (g.matchRoot chars limit).2) := Prod.ext h rfl
  exact (promises_entries hlog chars 0).of_matchRoot hroot.symm hresult node List.mem_cons_self

/-- Where the root leaves a node of its own, that node becomes the only token. -/
theorem WellFormed.tokenize_withBreakpoint_of_leaves (hg : g.WellFormed) (hroot : g.root = some target)
    (hcut : ¬ g.CutsOff chars limit) (hcut' : ¬ (g.withBreakpoint target).CutsOff chars limit')
    (hleaves : g.LeavesRootNode chars limit node) :
    ((g.withBreakpoint target).tokenize chars limit').1 =
      (g.tokenize chars limit).1.map fun t => { t with tokens := #[⟨node⟩] } := by
  obtain ⟨len, hresult, hnode, hlog⟩ := hleaves
  rw [hg.tokenize_withBreakpoint (hg.root target hroot) hcut hcut', tokenize_eq, hresult]
  have htokens : tokensOf (g.withBreakpoint target) [node] = #[⟨node⟩] := by
    rw [tokensOf_withBreakpoint (hg.contains_of_matchRoot hresult), if_pos hroot,
      visible_singleton hlog]
  simp only [Except.map, ofOutcome, collectLogs_withBreakpoint, htokens]

/-- Where the root leaves anything else, a breakpoint does not change what the text is split into. -/
theorem WellFormed.tokenize_withBreakpoint_of_not_leaves (hg : g.WellFormed)
    (htarget : g.contains target) (hcut : ¬ g.CutsOff chars limit)
    (hcut' : ¬ (g.withBreakpoint target).CutsOff chars limit')
    (hnot : g.root = some target → ∀ node, ¬ g.LeavesRootNode chars limit node) :
    ((g.withBreakpoint target).tokenize chars limit').1 = (g.tokenize chars limit).1 := by
  rw [hg.tokenize_withBreakpoint htarget hcut hcut', tokenize_eq]
  cases hresult : (g.matchRoot chars limit).1 with
  | error cause => rfl
  | ok outcome =>
      cases outcome with
      | failure => rfl
      | success len forest =>
          suffices hsame : tokensOf (g.withBreakpoint target) forest = tokensOf g forest by
            simp only [Except.map, ofOutcome, collectLogs_withBreakpoint, hsame]
          rw [tokensOf_withBreakpoint (hg.contains_of_matchRoot hresult)]
          split
          · rename_i hroot
            by_cases hsingle : ∃ node, forest = [node] ∧ some node.rule = g.root
            · -- The node is a log entry then, which is no token either way.
              obtain ⟨node, rfl, hnode⟩ := hsingle
              have hlog : g.isLog node.rule := by
                by_contra hlog
                exact hnot hroot node ⟨len, hresult, hnode, Bool.eq_false_iff.mpr hlog⟩
              rw [tokensOf_root hnode, children_eq_nil_of_log hresult hnode hlog,
                visible_singleton_log hlog]
              rfl
            · refine (tokensOf_eq_visible fun node hnode hrule => ?_).symm
              exact hsingle ⟨node, hnode, hrule⟩
          · rfl

/-- **What a breakpoint does to tokens.**  A breakpoint can be set on every name that the graph has.
Then, if neither split is cut off for its depth, a text is split into the same as before, unless the
breakpoint is new and on the root, and the root leaves just one node of its own that is no log entry.
In this case that node takes the place of all tokens, and the rest is the same as before. -/
theorem WellFormed.tokenize_setBreakpoint (hg : g.WellFormed) {name : String} (hname : name ∈ g.names) :
    ∃ set, g.setBreakpoint name = .ok set ∧
      ∀ chars limit limit', ¬ g.CutsOff chars limit → ¬ set.graph.CutsOff chars limit' →
        ((set.graph.tokenize chars limit').1 = (g.tokenize chars limit).1 ↔
          ¬ (set.isNew ∧ g.idOf? name = g.root ∧ ∃ node, g.LeavesRootNode chars limit node)) ∧
        ∀ node, set.isNew → g.idOf? name = g.root → g.LeavesRootNode chars limit node →
          (set.graph.tokenize chars limit').1 =
            (g.tokenize chars limit).1.map fun t => { t with tokens := #[⟨node⟩] } := by
  obtain ⟨target, hfound⟩ := Option.isSome_iff_exists.mp (hasName_iff.mpr hname)
  refine ⟨_, setBreakpoint_eq hfound, fun chars limit limit' hcut hcut' => ?_⟩
  cases hset : g.breakpointsOn target with
  | cons id rest =>
      -- There is a breakpoint already, and the graph stays as it is.
      rw [hset] at hcut'
      refine ⟨⟨fun _ hnew => Bool.false_ne_true hnew.1,
        fun _ => tokenize_eq_of_not_cutsOff hcut hcut'⟩, ?_⟩
      exact fun _ hnew => (Bool.false_ne_true hnew).elim
  | nil =>
      rw [hset] at hcut'
      have hchanged (node : Node) (hroot : g.idOf? name = g.root)
          (hleaves : g.LeavesRootNode chars limit node) :
          ((g.withBreakpoint target).tokenize chars limit').1 =
            (g.tokenize chars limit).1.map fun t => { t with tokens := #[⟨node⟩] } :=
        hg.tokenize_withBreakpoint_of_leaves (hroot ▸ hfound) hcut hcut' hleaves
      refine ⟨⟨?_, fun hnot => ?_⟩, fun node _ => hchanged node⟩
      · rintro hsame ⟨-, hroot, node, hleaves⟩
        rw [hchanged node hroot hleaves] at hsame
        obtain ⟨len, hresult, hnode, -⟩ := hleaves
        rw [tokenize_eq, hresult] at hsame
        simp only [Except.map, ofOutcome, tokensOf_root hnode, Except.ok.injEq,
          Tokenized.mk.injEq] at hsame
        exact visible_children_ne g node hsame.1.symm
      · refine hg.tokenize_withBreakpoint_of_not_leaves (contains_of_idOf? hfound) hcut hcut'
          fun hroot node hleaves => hnot ⟨rfl, hfound.trans hroot.symm, node, hleaves⟩

/-- Letters, each of which is a token. -/
def letterTokens : Graph Char where
  rules := #[.named "a" (.ofKind (.single 'a')), .named "tokens" (.ofKind (.count ⟨0⟩ 0 0))]
  root := some ⟨1⟩

theorem letterTokens_wellFormed : letterTokens.WellFormed where
  distinct := by decide +kernel
  edges := by decide +kernel
  root := by decide +kernel

theorem letterTokens_tokenize :
    (letterTokens.tokenize #['a', 'a'] 4).1 =
      .ok { tokens := #[⟨.leaf ⟨0⟩ ⟨0, 1⟩⟩, ⟨.leaf ⟨0⟩ ⟨1, 1⟩⟩], len := 2, farthest := 2 } := by
  decide +kernel

/-- A breakpoint on the letter leaves the tokens alone. -/
theorem letterTokens_tokenize_setBreakpoint :
    letterTokens.WellFormed ∧ "a" ∈ letterTokens.names ∧ ¬ letterTokens.CutsOff #['a', 'a'] 4 ∧
      ∃ set, letterTokens.setBreakpoint "a" = .ok set ∧ set.isNew ∧
        ¬ set.graph.CutsOff #['a', 'a'] 4 ∧
        (set.graph.tokenize #['a', 'a'] 4).1 = (letterTokens.tokenize #['a', 'a'] 4).1 := by
  have hname : "a" ∈ letterTokens.names := by decide +kernel
  have hset : letterTokens.setBreakpoint "a" = .ok ⟨⟨2⟩, letterTokens.withBreakpoint ⟨0⟩, true⟩ := by
    decide +kernel
  have hwatched : ((letterTokens.withBreakpoint ⟨0⟩).tokenize #['a', 'a'] 4).1 =
      .ok { tokens := #[⟨.leaf ⟨0⟩ ⟨0, 1⟩⟩, ⟨.leaf ⟨0⟩ ⟨1, 1⟩⟩], len := 2, farthest := 2 } := by
    decide +kernel
  have hcut := not_cutsOff_of_tokenize letterTokens_tokenize
  obtain ⟨set, hfound, htokens⟩ := letterTokens_wellFormed.tokenize_setBreakpoint hname
  cases hset.symm.trans hfound
  have hcut' := not_cutsOff_of_tokenize hwatched
  refine ⟨letterTokens_wellFormed, hname, hcut, _, hset, rfl, hcut',
    (htokens _ 4 4 hcut hcut').1.mpr ?_⟩
  rintro ⟨-, hroot, -⟩
  exact absurd hroot (by decide +kernel)

/-- A breakpoint on the root makes the whole text one token. -/
theorem letterTokens_tokenize_watched :
    letterTokens.WellFormed ∧ letterTokens.root.isSome ∧ "tokens" ∈ letterTokens.names ∧
      ¬ letterTokens.CutsOff #['a', 'a'] 4 ∧
      ∃ set, letterTokens.setBreakpoint "tokens" = .ok set ∧ ¬ set.graph.CutsOff #['a', 'a'] 4 ∧
        (set.graph.tokenize #['a', 'a'] 4).1 ≠ (letterTokens.tokenize #['a', 'a'] 4).1 := by
  have hset : letterTokens.setBreakpoint "tokens" = .ok ⟨⟨2⟩, letterTokens.withBreakpoint ⟨1⟩, true⟩ := by
    decide +kernel
  have hwatched : ((letterTokens.withBreakpoint ⟨1⟩).tokenize #['a', 'a'] 4).1 =
      .ok { tokens := #[⟨⟨1⟩, ⟨0, 2⟩, [.leaf ⟨0⟩ ⟨0, 1⟩, .leaf ⟨0⟩ ⟨1, 1⟩]⟩], len := 2, farthest := 2 } := by
    decide +kernel
  refine ⟨letterTokens_wellFormed, rfl, by decide +kernel, not_cutsOff_of_tokenize letterTokens_tokenize,
    _, hset, not_cutsOff_of_tokenize hwatched, ?_⟩
  rw [hwatched, letterTokens_tokenize]
  decide +kernel

end Graph

end RuleScript
