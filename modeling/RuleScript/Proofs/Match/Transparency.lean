import RuleScript.Proofs.Match.Agreement
import RuleScript.Proofs.Match.Detour
import RuleScript.Proofs.Match.Promise

/-!
# Breakpoints are transparent

A breakpoint matches what the rule it is on matches, and leaves what that leaves.  So a graph matches
the same after a breakpoint was set: outcomes, trees, aborts and the farthest position are the same,
and only the journal tells that the breakpoint is there (`Graph.WellFormed.setBreakpoint_transparent`).

There is one reservation.  Going through a breakpoint takes one level of depth, so a match may be cut
off that was not before.  But a rule is reached through one new breakpoint at most, so twice the depth
is enough.

Both directions are a comparison of runs by induction on the depth, once with the breakpoint in the
first graph and once in the second.  A rule of the old graph goes by `Correspondence.kind_agree`,
where the rules inside are the same or behind the breakpoint; the breakpoint itself goes by what it is
on, one level deeper.
-/

namespace RuleScript

/-- Two runs are compared by how far they came, whatever is on record.  The first may have been cut
off for its depth. -/
def Run.Comparison.cutOffUnrecorded : Run.Comparison where
  traces trace trace' := trace'.farthest = trace.farthest
  aborts := Eq
  excuses cause := ∃ limit pos, cause = .depthExceeded limit pos

variable {α : Type} {g g' : Graph α} {input : Array α} {target id : RuleId}

open Correspondence Match Run.Comparison

theorem cutOffUnrecorded_excuses (limit pos : Nat) :
    cutOffUnrecorded.excuses (.depthExceeded limit pos) := ⟨limit, pos, rfl⟩

theorem cutOffUnrecorded_setting (g g' : Graph α) (input : Array α) :
    (identical cutOffUnrecorded).Setting g g' input input :=
  .unrecorded rfl (fun _ _ _ _ htraces => htraces)
    (fun pos _ _ htraces => congrArg (max · pos) htraces) fun _ => rfl

theorem Graph.prune_congr (hlog : g'.isLog = g.isLog) (pruning : Pruning) (forest : List Node) :
    g'.prune pruning forest = g.prune pruning forest := by
  unfold prune
  rw [hlog]

variable {sub sub' : RuleId → Nat → Run Outcome}

/-! ## Rules that refer to others -/

/-- A breakpoint in the first run. -/
theorem throughBreakpoint_agree_left {subject : RuleId} {start : Nat} {run : Run Outcome}
    (h : (identical cutOffUnrecorded).Agree (sub subject start) run) :
    (identical cutOffUnrecorded).Agree (throughBreakpoint g sub id subject start) run := by
  have hleft : (identical cutOffUnrecorded).Agree
      (sub subject start >>= fun outcome => do
        Run.record (.breakpointLeft (g.label id) start outcome.isSuccess outcome.len)
        pure outcome) (run >>= pure) :=
    h.bind fun _ _ houtcome => .record_left (fun _ _ htraces => htraces) (.pure houtcome)
  rw [bind_pure] at hleft
  exact hleft.record_left fun _ _ htraces => htraces

/-- A breakpoint in the second run. -/
theorem throughBreakpoint_agree_right {subject : RuleId} {start : Nat} {run : Run Outcome}
    (h : (identical cutOffUnrecorded).Agree run (sub subject start)) :
    (identical cutOffUnrecorded).Agree run (throughBreakpoint g sub id subject start) := by
  have hleft : (identical cutOffUnrecorded).Agree (run >>= pure)
      (sub subject start >>= fun outcome => do
        Run.record (.breakpointLeft (g.label id) start outcome.isSuccess outcome.len)
        pure outcome) :=
    h.bind fun _ _ houtcome => .record_right (fun _ _ htraces => htraces) (.pure houtcome)
  rw [bind_pure] at hleft
  exact hleft.record_right fun _ _ htraces => htraces

/-- A rule agrees with one of another graph that refers to other rules, if these agree. -/
theorem rule_agree_of_forms [Element α] {rule : Rule α} {f : RuleId → RuleId}
    (hlog : g'.isLog = g.isLog)
    (hsub : ∀ one ∈ rule.kind.subs, (identical cutOffUnrecorded).SubsAgree sub sub' one (f one))
    (hforms : ∀ alternatives, rule.kind = .evaluation alternatives →
      (identical cutOffUnrecorded).Forms sub sub' ((identical cutOffUnrecorded).SameShape g g')
        (ChainForm.ofEvaluation g id alternatives)
        (ChainForm.ofEvaluation g' id (alternatives.map f))) (start : Nat) :
    (identical cutOffUnrecorded).Agree (Match.rule g input sub id rule start)
      (Match.rule g' input sub' id (rule.mapSubs f) start) := by
  have hid : (identical cutOffUnrecorded).ids id id := rfl
  have hkind := kind_agree (cutOffUnrecorded_setting g g' input) hid hsub start
    (fun _ _ _ _ htraces => htraces) fun alternatives heq =>
      chain_agree (hforms alternatives heq) rfl rfl fun _ _ _ _ => fold_agree
  refine hkind.map fun _ _ houtcome => houtcome.mapNodes ?_
  rintro found _ rfl
  exact (Graph.prune_congr hlog _ _).symm

/-! ## Operator chains -/

/-- Chains of the same form, but for the rules that they are made of. -/
structure Match.ChainForm.Alike (rules : RuleId → RuleId → Prop) (form form' : ChainForm) : Prop where
  operands : List.Forall₂ rules form.operands form'.operands
  operators : List.Forall₂ (fun operator operator' =>
      operator'.identity = operator.identity ∧ operator'.precedence = operator.precedence ∧
        operator'.pruning = operator.pruning ∧ rules operator.operator operator'.operator ∧
        rules operator.right operator'.right ∧
        form'.isOpen operator'.right = form.isOpen operator.right) form.operators form'.operators

theorem Match.ChainForm.Alike.flip {rules : RuleId → RuleId → Prop} {form form' : ChainForm}
    (h : form.Alike rules form') : form'.Alike (fun one one' => rules one' one) form where
  operands := h.operands.flip
  operators := h.operators.flip.imp fun _ _ ⟨hidentity, hprecedence, hpruning, hsymbol, hright, hopen⟩ =>
    ⟨hidentity.symm, hprecedence.symm, hpruning.symm, hsymbol, hright, hopen.symm⟩

/-- Chains of the same form agree, if the rules do that they are made of. -/
theorem Match.ChainForm.Alike.forms {rules : RuleId → RuleId → Prop} {form form' : ChainForm}
    (h : form.Alike rules form') (hlog : g'.isLog = g.isLog)
    (hsub : ∀ one one', rules one one' →
      (identical cutOffUnrecorded).SubsAgree sub sub' one one') :
    (identical cutOffUnrecorded).Forms sub sub' ((identical cutOffUnrecorded).SameShape g g')
      form form' where
  operands := h.operands.imp hsub
  operators := by
    refine h.operators.imp fun operator operator' hoperator => ?_
    obtain ⟨hidentity, hprecedence, hpruning, hsymbol, hright, hopen⟩ := hoperator
    refine ⟨⟨hidentity.symm, hprecedence, ?_⟩, hsub _ _ hsymbol, hsub _ _ hright, hopen.symm⟩
    rintro found _ rfl
    rw [hpruning]
    exact (Graph.prune_congr hlog _ _).symm

/-- The chains of an evaluation are made of the same rules as before, or of breakpoints on them. -/
theorem Graph.WellFormed.alike_withBreakpoint (hg : g.WellFormed) (htarget : g.contains target)
    (hid : g.contains id) {alternatives : List RuleId}
    (hkind : g.kind? id = some (.evaluation alternatives)) :
    (ChainForm.ofEvaluation g id alternatives).Alike
      (fun one one' => g.contains one ∧ one' = g.watched target one)
      (ChainForm.ofEvaluation (g.withBreakpoint target) id
        (alternatives.map (g.watched target))) := by
  have hcontains {one : RuleId} (hreaches : g.Reaches id one) : g.contains one :=
    hg.contains_of_reaches hid hreaches
  have halternatives : ∀ one ∈ alternatives, g.contains one := fun one hone =>
    hcontains (reaches_of_mem_subs hkind hone)
  -- All rules that the form lists are replaced by what watches them, and leading back is not changed.
  constructor
  · rw [hg.operands_withBreakpoint htarget hid halternatives]
    refine List.forall₂_map_right_iff.mpr (List.forall₂_same.mpr fun one hone => ?_)
    exact ⟨hcontains (reaches_of_mem_operands hkind hone), rfl⟩
  · rw [hg.operators_withBreakpoint htarget halternatives]
    refine List.forall₂_map_right_iff.mpr (List.forall₂_same.mpr fun operator hmem => ?_)
    obtain ⟨hsymbol, hright⟩ := reaches_of_mem_operators hkind hmem
    exact ⟨rfl, rfl, rfl, ⟨hcontains hsymbol, rfl⟩, ⟨hcontains hright, rfl⟩,
      hg.leadsTo_withBreakpoint htarget (hcontains hright) hid⟩

/-! ## Matches -/

namespace Graph

variable [Element α]

theorem runWithin_breakpoint (g : Graph α) (target : RuleId) (input : Array α)
    (limit depth start : Nat) :
    (g.withBreakpoint target).runWithin input limit (depth + 1) ⟨g.size⟩ start =
      throughBreakpoint (g.withBreakpoint target)
        ((g.withBreakpoint target).runWithin input limit depth) ⟨g.size⟩ target start := by
  rw [runWithin_succ (rule?_withBreakpoint_new g target), Match.rule]
  simp only [Rule.ofKind, Outcome.mapNodes_prune_none, Match.kind, id_map']

namespace WellFormed

variable (hg : g.WellFormed) (htarget : g.contains target)

include hg htarget

/-- A rule of the graph agrees with itself next to the breakpoint, if all rules agree that it may
refer to. -/
theorem rule_agree_withBreakpoint {rule : Rule α} (hrule : g.rule? id = some rule)
    (hsub : ∀ one, g.contains one →
      (identical cutOffUnrecorded).SubsAgree sub sub' one (g.watched target one)) (start : Nat) :
    (identical cutOffUnrecorded).Agree (Match.rule g input sub id rule start)
      (Match.rule (g.withBreakpoint target) input sub' id (rule.mapSubs (g.watched target))
        start) := by
  refine rule_agree_of_forms (isLog_withBreakpoint g target) (fun one hone => hsub one ?_)
    (fun alternatives heq => ?_) start
  · exact hg.edges rule (Array.mem_of_getElem? hrule) one hone
  · have hkind : g.kind? id = some (.evaluation alternatives) := by rw [kind?_eq_some hrule, heq]
    refine (hg.alike_withBreakpoint htarget (contains_of_rule? hrule) hkind).forms
      (isLog_withBreakpoint g target) ?_
    rintro one _ ⟨hone, rfl⟩
    exact hsub one hone

/-- The rule next to the breakpoint agrees with the one of the graph likewise. -/
theorem rule_withBreakpoint_agree {rule : Rule α} (hrule : g.rule? id = some rule)
    (hsub : ∀ one, g.contains one →
      (identical cutOffUnrecorded).SubsAgree sub sub' (g.watched target one) one) (start : Nat) :
    (identical cutOffUnrecorded).Agree
      (Match.rule (g.withBreakpoint target) input sub id (rule.mapSubs (g.watched target)) start)
      (Match.rule g input sub' id rule start) := by
  have hedges : ∀ one ∈ rule.kind.subs, g.contains one :=
    hg.edges rule (Array.mem_of_getElem? hrule)
  -- The old rule is the new one, with the breakpoint taken away again.
  have hback : (rule.mapSubs (g.watched target)).mapSubs (g.unwatched target) = rule := by
    rw [Rule.mapSubs_mapSubs, Rule.mapSubs_eq_self_iff]
    exact fun one hone => unwatched_watched (hedges one hone)
  suffices hagree : (identical cutOffUnrecorded).Agree
      (Match.rule (g.withBreakpoint target) input sub id (rule.mapSubs (g.watched target)) start)
      (Match.rule g input sub' id ((rule.mapSubs (g.watched target)).mapSubs (g.unwatched target))
        start) by
    rwa [hback] at hagree
  refine rule_agree_of_forms (isLog_withBreakpoint g target).symm ?_ ?_ start
  · intro one hone
    rw [Rule.mapSubs, Kind.subs_mapSubs] at hone
    obtain ⟨old, hold, rfl⟩ := List.mem_map.mp hone
    rw [unwatched_watched (hedges old hold)]
    exact hsub old (hedges old hold)
  · intro alternatives heq
    obtain ⟨olds, hkind, rfl⟩ := Kind.exists_of_mapSubs_eq_evaluation heq
    have hfound : g.kind? id = some (.evaluation olds) := by rw [kind?_eq_some hrule, hkind]
    have hsame : (olds.map (g.watched target)).map (g.unwatched target) = olds := by
      have hkinds := congrArg (·.kind) hback
      simpa [Rule.mapSubs, hkind, Kind.mapSubs] using hkinds
    rw [hsame]
    refine (hg.alike_withBreakpoint htarget (contains_of_rule? hrule) hfound).flip.forms
      (isLog_withBreakpoint g target).symm ?_
    rintro _ one ⟨hone, rfl⟩
    exact hsub one hone

/-- With twice the depth, a match with the breakpoint agrees with one without. -/
theorem runWithin_agree_withBreakpoint (limit limit' depth : Nat) {more : Nat}
    (hmore : 2 * depth ≤ more) (hid : (g.withBreakpoint target).contains id) (start : Nat) :
    (identical cutOffUnrecorded).Agree
      (g.runWithin input limit depth (g.unwatched target id) start)
      ((g.withBreakpoint target).runWithin input limit' more id start) := by
  induction depth generalizing more id start with
  | zero =>
      obtain ⟨rule, hrule⟩ := exists_rule?_of_contains (contains_unwatched htarget hid)
      rw [runWithin_zero hrule]
      exact Run.Compares.excused (cutOffUnrecorded_excuses limit start) _
  | succ depth ih =>
      have hrule {old : RuleId} (hold : g.contains old) {most : Nat} (hmost : 2 * depth ≤ most) :
          (identical cutOffUnrecorded).Agree (g.runWithin input limit (depth + 1) old start)
            ((g.withBreakpoint target).runWithin input limit' (most + 1) old start) := by
        obtain ⟨rule, hrule⟩ := exists_rule?_of_contains hold
        rw [runWithin_succ hrule, runWithin_succ (rule?_withBreakpoint hrule target)]
        refine hg.rule_agree_withBreakpoint htarget hrule ?_ start
        rintro one hone _ pos rfl
        have hone' := ih hmost (contains_watched hone) pos
        rwa [unwatched_watched hone] at hone'
      -- The breakpoint takes one level, and the rule behind it the other one.
      obtain ⟨most, rfl⟩ : ∃ most, more = most + 2 := ⟨more - 2, by omega⟩
      rcases contains_withBreakpoint_iff.mp hid with hold | rfl
      · rw [unwatched_of_contains hold]
        exact hrule hold (by omega)
      · rw [unwatched_new, runWithin_breakpoint]
        exact throughBreakpoint_agree_right (hrule htarget (by omega))

/-- A match without the breakpoint agrees with one that has it, and goes no deeper. -/
theorem runWithin_withBreakpoint_agree (limit limit' depth : Nat) {more : Nat}
    (hmore : depth ≤ more) (hid : (g.withBreakpoint target).contains id) (start : Nat) :
    (identical cutOffUnrecorded).Agree
      ((g.withBreakpoint target).runWithin input limit depth id start)
      (g.runWithin input limit' more (g.unwatched target id) start) := by
  induction depth generalizing more id start with
  | zero =>
      obtain ⟨rule, hrule⟩ := exists_rule?_of_contains hid
      rw [runWithin_zero hrule]
      exact Run.Compares.excused (cutOffUnrecorded_excuses limit start) _
  | succ depth ih =>
      obtain ⟨most, rfl⟩ : ∃ most, more = most + 1 := ⟨more - 1, by omega⟩
      rcases contains_withBreakpoint_iff.mp hid with hold | rfl
      · obtain ⟨rule, hrule⟩ := exists_rule?_of_contains hold
        rw [unwatched_of_contains hold, runWithin_succ hrule,
          runWithin_succ (rule?_withBreakpoint hrule target)]
        refine hg.rule_withBreakpoint_agree htarget hrule ?_ start
        rintro one hone _ pos rfl
        have hone' := ih (by omega : depth ≤ most) (contains_watched hone) pos
        rwa [unwatched_watched hone] at hone'
      · -- What the breakpoint is on is matched at the same depth as before.
        have hsubject := ih (by omega : depth ≤ most + 1)
          (contains_withBreakpoint_iff.mpr (.inl htarget)) start
        rw [unwatched_of_contains htarget] at hsubject
        rw [unwatched_new, runWithin_breakpoint]
        exact throughBreakpoint_agree_left hsubject

end WellFormed

/-! ## What matches come to -/

/-- A match was given up for its depth. -/
def CutOff (result : Except Abort Outcome × Trace) : Prop :=
  ∃ limit pos, result.1 = .error (.depthExceeded limit pos)

/-- Two matches come to the same outcome, tree and all, or to the same abort, and came as far. -/
def SameMatch (result result' : Except Abort Outcome × Trace) : Prop :=
  result'.1 = result.1 ∧ result'.2.farthest = result.2.farthest

/-- Matches with a breakpoint, by their limit, against the same matches without it. -/
structure Transparent (plain watched : Nat → Except Abort Outcome × Trace) : Prop where
  /-- What a match with the breakpoint comes to, the match without it comes to. -/
  of_watched : ∀ limit, ¬ CutOff (watched limit) → SameMatch (plain limit) (watched limit)
  /-- What a match comes to, the match with the breakpoint comes to with twice the depth. -/
  of_plain : ∀ limit, ¬ CutOff (plain limit) → SameMatch (plain limit) (watched (2 * limit))

theorem sameMatch_of_agree {run run' : Run Outcome}
    (h : (identical cutOffUnrecorded).Agree run run') (hcut : ¬ CutOff (run.result {})) :
    SameMatch (run.result {}) (run'.result {}) := by
  refine h.result_eq rfl (fun _ _ hcause => hcause) fun cause hcause => ?_
  rintro ⟨limit, pos, rfl⟩
  exact hcut ⟨limit, pos, hcause⟩

theorem matchRoot_eq_matchAt {root : RuleId} (h : g.root = some root) (input : Array α)
    (limit : Nat) : g.matchRoot input limit = g.matchAt input limit root 0 := by
  rw [matchRoot, runRoot, h, matchAt]

theorem matchRoot_of_root_eq_none (h : g.root = none) (input : Array α) (limit : Nat) :
    g.matchRoot input limit = (.error .missingRoot, {}) := by
  rw [matchRoot, runRoot, h, Run.result_throw]

/-- A match that was not cut off comes to the same with more depth. -/
theorem transparent_self (g : Graph α) (input : Array α) (id : RuleId) (start : Nat) :
    Transparent (fun limit => g.matchAt input limit id start)
      fun limit => g.matchAt input limit id start where
  of_watched _ _ := ⟨rfl, rfl⟩
  of_plain limit hcut := by
    have hdeeper := runWithin_deeper (fun limit' pos heq => hcut ⟨limit', pos, heq⟩) (2 * limit) limit
    rw [← Nat.two_mul] at hdeeper
    exact ⟨congrArg (·.1) hdeeper, congrArg (·.2.farthest) hdeeper⟩

theorem WellFormed.transparent_withBreakpoint (hg : g.WellFormed) (htarget : g.contains target)
    (hid : (g.withBreakpoint target).contains id) (input : Array α) (start : Nat) :
    Transparent (fun limit => g.matchAt input limit (g.unwatched target id) start)
      fun limit => (g.withBreakpoint target).matchAt input limit id start where
  of_watched limit hcut := by
    have hsame := sameMatch_of_agree
      (hg.runWithin_withBreakpoint_agree htarget limit limit limit le_rfl hid start) hcut
    exact ⟨hsame.1.symm, hsame.2.symm⟩
  of_plain limit hcut := sameMatch_of_agree
    (hg.runWithin_agree_withBreakpoint htarget limit (2 * limit) limit le_rfl hid start) hcut

/-- Whatever is matched, the root or any rule of `g`, breakpoints that `g'` has besides make no
difference. -/
def TransparentIn (g g' : Graph α) : Prop :=
  ∀ input : Array α,
    Transparent (g.matchRoot input) (g'.matchRoot input) ∧
      ∀ id, g.contains id → ∀ start,
        Transparent (fun limit => g.matchAt input limit id start)
          fun limit => g'.matchAt input limit id start

theorem transparentIn_self (g : Graph α) : g.TransparentIn g := by
  intro input
  refine ⟨?_, fun id _ start => transparent_self g input id start⟩
  cases hroot : g.root with
  | none =>
      refine ⟨fun _ _ => ⟨rfl, rfl⟩, fun limit _ => ?_⟩
      rw [matchRoot_of_root_eq_none hroot, matchRoot_of_root_eq_none hroot]
      exact ⟨rfl, rfl⟩
  | some root =>
      have hplain := funext (matchRoot_eq_matchAt hroot input)
      rw [hplain]
      exact transparent_self g input root 0

theorem WellFormed.transparentIn_withBreakpoint (hg : g.WellFormed) (htarget : g.contains target) :
    g.TransparentIn (g.withBreakpoint target) := by
  intro input
  refine ⟨?_, fun id hid start => ?_⟩
  · cases hroot : g.root with
    | none =>
        have hroot' : (g.withBreakpoint target).root = none := by
          rw [root_withBreakpoint, hroot, Option.map_none]
        refine ⟨fun limit _ => ?_, fun limit _ => ?_⟩
        · rw [matchRoot_of_root_eq_none hroot, matchRoot_of_root_eq_none hroot']
          exact ⟨rfl, rfl⟩
        · rw [matchRoot_of_root_eq_none hroot, matchRoot_of_root_eq_none hroot']
          exact ⟨rfl, rfl⟩
    | some root =>
        have hcontains := hg.root root hroot
        have hroot' : (g.withBreakpoint target).root = some (g.watched target root) := by
          rw [root_withBreakpoint, hroot, Option.map_some]
        have hroots := hg.transparent_withBreakpoint htarget (contains_watched hcontains) input 0
        rw [unwatched_watched hcontains] at hroots
        -- Matching from the root is matching the rule that the root stands for.
        rw [funext (matchRoot_eq_matchAt hroot input), funext (matchRoot_eq_matchAt hroot' input)]
        exact hroots
  · have hrules := hg.transparent_withBreakpoint htarget
      (contains_withBreakpoint_iff.mpr (.inl hid)) input start
    rwa [unwatched_of_contains hid] at hrules

/-- **Breakpoints are transparent.**  A breakpoint can be set on every name that the graph has.  Then
a match of the root or of any rule comes to the same as before, tree, abort and farthest position,
whenever the match with the breakpoint is not cut off for its depth; and if the match without it is
not cut off, twice the depth is enough for the match with it. -/
theorem WellFormed.setBreakpoint_transparent (hg : g.WellFormed) {name : String}
    (hname : name ∈ g.names) :
    ∃ set, g.setBreakpoint name = .ok set ∧ g.TransparentIn set.graph := by
  obtain ⟨target, htarget⟩ := Option.isSome_iff_exists.mp (hasName_iff.mpr hname)
  refine ⟨_, setBreakpoint_eq htarget, ?_⟩
  cases g.breakpointsOn target with
  | nil => exact hg.transparentIn_withBreakpoint (contains_of_idOf? htarget)
  | cons id rest => exact transparentIn_self g

/-- Sums of ones, where the right operand is any expression again. -/
def openSums : Graph Char where
  rules := #[.ofKind (.single '1'), .ofKind (.single '+'),
    .ofKind (.reference "expression" (some ⟨4⟩)),
    .named "sum" (.ofKind (.sequence [⟨0⟩, ⟨1⟩, ⟨2⟩])),
    .named "expression" (.ofKind (.evaluation [⟨3⟩]))]
  root := some ⟨4⟩

theorem openSums_wellFormed : openSums.WellFormed where
  distinct := by decide +kernel
  edges := by decide +kernel
  root := by decide +kernel

/-- The right operand leads back to the evaluation, through the breakpoint that is set on it. -/
theorem openSums_transparent :
    openSums.WellFormed ∧ "expression" ∈ openSums.names ∧
      ¬ CutOff (openSums.matchRoot #['1', '+', '1'] 2) ∧
      ∃ set, openSums.setBreakpoint "expression" = .ok set ∧
        SameMatch (openSums.matchRoot #['1', '+', '1'] 2)
          (set.graph.matchRoot #['1', '+', '1'] 4) := by
  have hname : "expression" ∈ openSums.names := by decide +kernel
  have hmatch : (openSums.matchRoot #['1', '+', '1'] 2).1 =
      .ok (.success 3 [⟨⟨3⟩, ⟨0, 3⟩, [.leaf ⟨0⟩ ⟨0, 1⟩, .leaf ⟨1⟩ ⟨1, 1⟩, .leaf ⟨0⟩ ⟨2, 1⟩]⟩]) := by
    decide +kernel
  have hcut : ¬ CutOff (openSums.matchRoot #['1', '+', '1'] 2) := by
    rintro ⟨limit, pos, heq⟩
    rw [hmatch] at heq
    cases heq
  obtain ⟨set, hset, htransparent⟩ := openSums_wellFormed.setBreakpoint_transparent hname
  exact ⟨openSums_wellFormed, hname, hcut, set, hset,
    (htransparent #['1', '+', '1']).1.of_plain 2 hcut⟩

end Graph

end RuleScript
