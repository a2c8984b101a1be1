import RuleScript.Proofs.Graph.Redirecting

/-!
# Graphs with breakpoints

Breakpoints may be set and cleared in any order, under any names.  All the while the rules of the graph
are what they were, but for what they refer to, and that is the rule from before or a breakpoint on it
(`Graph.Instrumented`).  Breakpoints that were cleared stay in the graph, and later calls redirect what
they refer to as well; but no rule refers to them, so it does not matter what they have come to.
-/

namespace RuleScript

open RuleId

/-- A call that sets or clears breakpoints on the rule with a name. -/
inductive BreakpointCall where
  | set (name : String)
  | clear (name : String)
  deriving DecidableEq

namespace Graph

variable {α : Type} {g g' : Graph α} {id target front one other : RuleId} {name : String}

/-! ## Calls -/

/-- The graph without the breakpoints that were in use on a rule. -/
def withoutBreakpoints (g : Graph α) (target : RuleId) : Graph α :=
  (g.breakpointsOn target).foldl (fun g id => g.redirect id target) g

/-- The graph after a call; a call that fails leaves the graph as it is. -/
def afterCall (g : Graph α) : BreakpointCall → Graph α
  | .set name =>
    match g.setBreakpoint name with
    | .ok set => set.graph
    | .error _ => g
  | .clear name =>
    match g.clearBreakpoint name with
    | .ok cleared => cleared
    | .error _ => g

/-- The graph after some calls, one after the other. -/
def afterCalls (g : Graph α) (calls : List BreakpointCall) : Graph α := calls.foldl afterCall g

theorem afterCall_set (h : g.idOf? name = some target) :
    g.afterCall (.set name) =
      if g.breakpointsOn target = [] then g.withBreakpoint target else g := by
  rw [afterCall, setBreakpoint_eq h]
  cases g.breakpointsOn target <;> rfl

theorem afterCall_clear (h : g.idOf? name = some target) :
    g.afterCall (.clear name) = g.withoutBreakpoints target := by
  rw [afterCall, clearBreakpoint, h]
  rfl

theorem afterCall_clear_of_eq_none (h : g.idOf? name = none) : g.afterCall (.clear name) = g := by
  rw [afterCall, clearBreakpoint, h]

/-- All that a call can do.  A call to set a breakpoint under a name that is there changes nothing only
if there is one in use. -/
theorem afterCall_cases (g : Graph α) (call : BreakpointCall) :
    (g.afterCall call = g ∧ ∀ name target, call = .set name → g.idOf? name = some target →
        g.breakpointsOn target ≠ []) ∨
      (∃ name target, call = .set name ∧ g.idOf? name = some target ∧ g.breakpointsOn target = [] ∧
        g.afterCall call = g.withBreakpoint target) ∨
      ∃ name target, call = .clear name ∧ g.idOf? name = some target ∧
        g.afterCall call = g.withoutBreakpoints target := by
  -- A call does nothing if the name is unknown, or if a breakpoint to be set is there already.
  cases call with
  | set name =>
      cases htarget : g.idOf? name with
      | none =>
          refine .inl ⟨by rw [afterCall, setBreakpoint, htarget], ?_⟩
          rintro _ target ⟨⟩ hsome
          rw [htarget] at hsome
          cases hsome
      | some target =>
          by_cases hnone : g.breakpointsOn target = []
          · refine .inr (.inl ⟨name, target, rfl, htarget, hnone, ?_⟩)
            rw [afterCall_set htarget, if_pos hnone]
          · refine .inl ⟨by rw [afterCall_set htarget, if_neg hnone], ?_⟩
            rintro _ other ⟨⟩ hsome
            cases htarget.symm.trans hsome
            exact hnone
  | clear name =>
      cases htarget : g.idOf? name with
      | none =>
          exact .inl ⟨afterCall_clear_of_eq_none htarget, fun _ _ hset =>
            BreakpointCall.noConfusion hset⟩
      | some target => exact .inr (.inr ⟨name, target, rfl, htarget, afterCall_clear htarget⟩)

theorem rule?_withoutBreakpoints (g : Graph α) (target id : RuleId) :
    (g.withoutBreakpoints target).rule? id = (g.rule? id).map fun rule =>
      if id = target then rule else rule.mapSubs (redirected (g.breakpointsOn target) target) :=
  rule?_foldl_redirect g _ target id

theorem root_withoutBreakpoints (g : Graph α) (target : RuleId) :
    (g.withoutBreakpoints target).root = g.root.map (redirected (g.breakpointsOn target) target) :=
  root_foldl_redirect g _ target

theorem kind?_withoutBreakpoints (h : id ≠ target) :
    (g.withoutBreakpoints target).kind? id =
      (g.kind? id).map (·.mapSubs (redirected (g.breakpointsOn target) target)) := by
  simp only [kind?, rule?_withoutBreakpoints, if_neg h, Option.map_map]
  rfl

/-! ## Rules and breakpoints on them -/

/-- No rule is a breakpoint. -/
def BreakpointFree (g : Graph α) : Prop := ∀ rule ∈ g.rules, ∀ sub, rule.kind ≠ .breakpoint sub

/-- `front` is the rule `id` or a breakpoint on it. -/
def Fronts (g : Graph α) (front id : RuleId) : Prop :=
  front = id ∨ g.kind? front = some (.breakpoint id)

/-- `g'` is `g` with breakpoints: the rules of `g` and the root are the same, but for breakpoints on
what they refer to, and there is nothing else but breakpoints. -/
structure Instrumented (g g' : Graph α) : Prop where
  wellFormed : g'.WellFormed
  /-- A rule keeps its id, its name and all else but breakpoints on the rules it refers to. -/
  rule : ∀ id rule, g.rule? id = some rule →
    ∃ f, g'.rule? id = some (rule.mapSubs f) ∧ ∀ one ∈ rule.kind.subs, g'.Fronts (f one) one
  root : Option.Rel (fun front id => g'.Fronts front id) g'.root g.root
  /-- What was added is breakpoints, and those on rules of `g` are on named ones. -/
  added : ∀ id rule, ¬ g.contains id → g'.rule? id = some rule →
    ∃ sub, rule = .ofKind (.breakpoint sub) ∧ (g.contains sub → g.isNamed sub)

theorem WellFormed.instrumented (hg : g.WellFormed) : g.Instrumented g where
  wellFormed := hg
  rule id rule hrule :=
    ⟨fun one => one, by rw [Rule.mapSubs_id, hrule], fun one _ => .inl rfl⟩
  root := by
    cases g.root with
    | none => exact .none
    | some root => exact .some (.inl rfl)
  added id rule hid hrule := (hid (contains_of_rule? hrule)).elim

namespace Instrumented

variable (h : g.Instrumented g') (hfree : g.BreakpointFree) (hg : g.WellFormed)

include h

theorem contains (hid : g.contains id) : g'.contains id := by
  obtain ⟨rule, hrule⟩ := exists_rule?_of_contains hid
  obtain ⟨f, hrule', -⟩ := h.rule id rule hrule
  exact contains_of_rule? hrule'

theorem nameOf? (id : RuleId) : g'.nameOf? id = g.nameOf? id := by
  rw [Graph.nameOf?, Graph.nameOf?]
  by_cases hid : g.contains id
  · obtain ⟨rule, hrule⟩ := exists_rule?_of_contains hid
    obtain ⟨f, hrule', -⟩ := h.rule id rule hrule
    rw [hrule, hrule']
    rfl
  · rw [rule?_eq_none hid]
    cases hrule' : g'.rule? id with
    | none => rfl
    | some rule' =>
        obtain ⟨sub, rfl, -⟩ := h.added id rule' hid hrule'
        rfl

theorem idOf?_eq_some_iff :
    g'.idOf? name = some id ↔ g.nameOf? id = some name := by
  rw [Graph.idOf?_eq_some_iff h.wellFormed.distinct, h.nameOf?]

theorem named_of_idOf? (htarget : g'.idOf? name = some target) :
    g.nameOf? target = some name ∧ g.isNamed target ∧ g.contains target := by
  have hname := h.idOf?_eq_some_iff.mp htarget
  exact ⟨hname, by rw [isNamed, hname, Option.isSome_some], contains_of_nameOf? hname⟩

include hfree

/-- A rule of `g` is no breakpoint. -/
theorem not_breakpoint (hid : g.contains id) (sub : RuleId) :
    g'.kind? id ≠ some (.breakpoint sub) := by
  obtain ⟨rule, hrule⟩ := exists_rule?_of_contains hid
  obtain ⟨f, hrule', -⟩ := h.rule id rule hrule
  have hkind := hfree rule (Array.mem_of_getElem? hrule)
  rw [kind?_eq_some hrule', Rule.mapSubs]
  intro heq
  cases hold : rule.kind with
  | breakpoint old => exact hkind old hold
  | _ =>
      rw [hold] at heq
      cases heq

theorem eq_of_fronts (hfront : g'.Fronts front one) (hid : g.contains front) : front = one :=
  hfront.resolve_right (h.not_breakpoint hfree hid one)

omit hfree in
theorem contains_of_fronts (hfront : g'.Fronts front one) (hone : g.contains one) :
    g'.contains front := by
  rcases hfront with rfl | hkind
  · exact h.contains hone
  · obtain ⟨rule, hrule, -⟩ := Option.map_eq_some_iff.mp hkind
    exact contains_of_rule? hrule

/-! ## Setting and clearing -/

/-- What is in use in front of a rule still is when a first breakpoint is set. -/
theorem fronts_withBreakpoint (htarget : g.contains target) (hone : g.contains one)
    (hnone : g'.breakpointsOn target = []) (huse : g'.isInUse front)
    (hfront : g'.Fronts front one) :
    (g'.withBreakpoint target).Fronts (g'.watched target front) one := by
  by_cases heq : front = target
  · right
    obtain rfl : front = one := h.eq_of_fronts hfree hfront (heq ▸ htarget)
    rw [heq, watched_target]
    exact kind?_withBreakpoint_new g' target
  · rw [watched_of_ne heq]
    have hcontains := h.contains_of_fronts hfront hone
    refine hfront.imp_right fun hkind => ?_
    -- The rule is not the one that the breakpoint is set on, which has no breakpoint in use.
    have hne : one ≠ target := by
      rintro rfl
      have hmem := mem_breakpointsOn_iff.mpr ⟨hkind, huse⟩
      rw [hnone] at hmem
      exact List.not_mem_nil hmem
    rw [kind?_withBreakpoint hcontains, hkind, Option.map_some, Kind.mapSubs, watched_of_ne hne]

theorem not_mem_breakpointsOn (hid : g.contains id) : id ∉ g'.breakpointsOn target := fun hmem =>
  h.not_breakpoint hfree hid target (mem_breakpointsOn_iff.mp hmem).1

/-- What is in front of a rule stays there when breakpoints are cleared. -/
theorem kind?_withoutBreakpoints_iff (htarget : g.contains target) (hone : g.contains one)
    (hfront : g'.Fronts front one) {id : RuleId} :
    (g'.withoutBreakpoints target).kind? front = some (.breakpoint id) ↔
      g'.kind? front = some (.breakpoint id) := by
  by_cases heq : front = target
  · subst heq
    rw [Graph.kind?, Graph.kind?, rule?_withoutBreakpoints]
    simp
  · rw [kind?_withoutBreakpoints heq]
    rcases hfront with rfl | hkind
    · -- A rule of `g` is no breakpoint, before and after.
      refine ⟨fun hafter => ?_, fun hbefore => (h.not_breakpoint hfree hone id hbefore).elim⟩
      obtain ⟨sub, hkind, -⟩ := Kind.exists_of_map_mapSubs_eq_breakpoint hafter
      exact (h.not_breakpoint hfree hone sub hkind).elim
    · rw [hkind, Option.map_some, Kind.mapSubs,
        redirected_of_not_mem (h.not_mem_breakpointsOn hfree hone)]

theorem fronts_withoutBreakpoints (htarget : g.contains target) (hone : g.contains one)
    (hfront : g'.Fronts front one) : (g'.withoutBreakpoints target).Fronts front one :=
  hfront.imp_right (h.kind?_withoutBreakpoints_iff hfree htarget hone hfront).mpr

/-- What is in front of a rule is out of the way, or stays, when breakpoints are cleared. -/
theorem fronts_redirected (htarget : g.contains target) (hone : g.contains one)
    (hfront : g'.Fronts front one) :
    (g'.withoutBreakpoints target).Fronts
      (redirected (g'.breakpointsOn target) target front) one := by
  by_cases hmem : front ∈ g'.breakpointsOn target
  · left
    rw [redirected_of_mem hmem]
    rcases hfront with rfl | hkind
    · exact (h.not_mem_breakpointsOn hfree hone hmem).elim
    · rw [(mem_breakpointsOn_iff.mp hmem).1] at hkind
      cases hkind
      rfl
  · rw [redirected_of_not_mem hmem]
    exact h.fronts_withoutBreakpoints hfree htarget hone hfront

/-! ## What stays the same -/

include hg

theorem withBreakpoint (hnamed : g.isNamed target) (htarget : g.contains target)
    (hnone : g'.breakpointsOn target = []) : g.Instrumented (g'.withBreakpoint target) where
  wellFormed := h.wellFormed.withBreakpoint (h.contains htarget)
  rule id rule hrule := by
    obtain ⟨f, hrule', hf⟩ := h.rule id rule hrule
    -- The fronts of before are watched in their turn.
    refine ⟨g'.watched target ∘ f, ?_, fun one hone => ?_⟩
    · rw [rule?_withBreakpoint hrule', Rule.mapSubs_mapSubs]
    · have hcontains := hg.edges rule (Array.mem_of_getElem? hrule) one hone
      have huse : g'.isInUse (f one) := by
        refine isInUse_iff.mpr (.inl ⟨id, ?_⟩)
        rw [subs_eq hrule', Rule.mapSubs, Kind.subs_mapSubs]
        exact List.mem_map_of_mem hone
      exact h.fronts_withBreakpoint hfree htarget hcontains hnone huse (hf one hone)
  root := by
    have hroot := h.root
    have hcontains := hg.root
    rw [root_withBreakpoint]
    generalize hfound : g'.root = root' at hroot
    generalize g.root = root at hroot hcontains
    cases hroot with
    | none => exact .none
    | some hfront =>
        exact .some (h.fronts_withBreakpoint hfree htarget (hcontains _ rfl) hnone
          (isInUse_iff.mpr (.inr hfound)) hfront)
  added id rule hid hrule := by
    rcases contains_withBreakpoint_iff.mp (contains_of_rule? hrule) with hold | rfl
    · obtain ⟨old, hrule'⟩ := exists_rule?_of_contains hold
      obtain ⟨sub, rfl, hsub⟩ := h.added id old hid hrule'
      rw [rule?_withBreakpoint hrule', Option.some.injEq] at hrule
      refine ⟨g'.watched target sub, hrule.symm, fun hcontains => ?_⟩
      by_cases heq : sub = target
      · -- The new breakpoint is none of the old rules.
        rw [heq, watched_target] at hcontains
        exact (ne_new_of_contains (h.contains hcontains) rfl).elim
      · rw [watched_of_ne heq] at hcontains ⊢
        exact hsub hcontains
    · rw [rule?_withBreakpoint_new, Option.some.injEq] at hrule
      exact ⟨target, hrule.symm, fun _ => hnamed⟩

theorem withoutBreakpoints (hnamed : g.isNamed target) (htarget : g.contains target) :
    g.Instrumented (g'.withoutBreakpoints target) where
  wellFormed := h.wellFormed.foldl_redirect (h.contains htarget) _
  rule id rule hrule := by
    obtain ⟨f, hrule', hf⟩ := h.rule id rule hrule
    have hcontains := hg.edges rule (Array.mem_of_getElem? hrule)
    -- The rule that breakpoints are taken off keeps its own references; all others are redirected.
    by_cases heq : id = target
    · refine ⟨f, ?_, fun one hone => ?_⟩
      · rw [rule?_withoutBreakpoints, hrule', Option.map_some, if_pos heq]
      · exact h.fronts_withoutBreakpoints hfree htarget (hcontains one hone) (hf one hone)
    · refine ⟨redirected (g'.breakpointsOn target) target ∘ f, ?_, fun one hone => ?_⟩
      · rw [rule?_withoutBreakpoints, hrule', Option.map_some, if_neg heq, Rule.mapSubs_mapSubs]
      · exact h.fronts_redirected hfree htarget (hcontains one hone) (hf one hone)
  root := by
    have hroot := h.root
    have hcontains := hg.root
    rw [root_withoutBreakpoints]
    generalize g'.root = root' at hroot
    generalize g.root = root at hroot hcontains
    cases hroot with
    | none => exact .none
    | some hfront => exact .some (h.fronts_redirected hfree htarget (hcontains _ rfl) hfront)
  added id rule hid hrule := by
    rw [rule?_withoutBreakpoints] at hrule
    obtain ⟨old, hrule', hafter⟩ := Option.map_eq_some_iff.mp hrule
    obtain ⟨sub, rfl, hsub⟩ := h.added id old hid hrule'
    have hne : id ≠ target := fun heq => hid (heq ▸ htarget)
    rw [if_neg hne] at hafter
    refine ⟨redirected (g'.breakpointsOn target) target sub, hafter.symm, fun hcontains => ?_⟩
    by_cases hmem : sub ∈ g'.breakpointsOn target
    · rwa [redirected_of_mem hmem]
    · rw [redirected_of_not_mem hmem] at hcontains ⊢
      exact hsub hcontains

theorem afterCall (call : BreakpointCall) : g.Instrumented (g'.afterCall call) := by
  obtain ⟨hsame, -⟩ | ⟨name, target, rfl, htarget, hnone, hset⟩ |
    ⟨name, target, rfl, htarget, hclear⟩ := afterCall_cases g' call
  · rwa [hsame]
  · rw [hset]
    obtain ⟨-, hnamed, hcontains⟩ := h.named_of_idOf? htarget
    exact h.withBreakpoint hfree hg hnamed hcontains hnone
  · rw [hclear]
    obtain ⟨-, hnamed, hcontains⟩ := h.named_of_idOf? htarget
    exact h.withoutBreakpoints hfree hg hnamed hcontains

theorem afterCalls (calls : List BreakpointCall) : g.Instrumented (g'.afterCalls calls) := by
  induction calls generalizing g' with
  | nil => exact h
  | cons call calls ih => exact ih (h.afterCall hfree hg call)

end Instrumented

end Graph

end RuleScript
