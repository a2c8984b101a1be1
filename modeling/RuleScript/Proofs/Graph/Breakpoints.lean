import Mathlib.Data.List.Induction
import RuleScript.Proofs.Graph.Instrumented

/-!
# Breakpoints come and go

Clearing the breakpoints on a rule takes them out of the way of every other rule and of the root.  It
does not touch the rule itself, so a rule that refers directly to itself keeps referring to its
breakpoint from the first time on that one was set.  But for such rules, the graph is restored when all
names are cleared, whatever calls came before (`Graph.WellFormed.breakpoints_reversible`).
-/

namespace RuleScript.Graph

open RuleId

variable {α : Type} {g g' : Graph α} {id target front one other : RuleId} {name : String}

/-! ## What refers to a rule through a breakpoint -/

/-- A rule refers to another one through a breakpoint. -/
def RefersThrough (g : Graph α) (other id : RuleId) : Prop :=
  ∃ front ∈ g.subs other, g.kind? front = some (.breakpoint id)

/-- The root is a breakpoint on a rule. -/
def RootThrough (g : Graph α) (id : RuleId) : Prop :=
  ∃ front ∈ g.root, g.kind? front = some (.breakpoint id)

theorem subs_withoutBreakpoints (g : Graph α) (target other : RuleId) :
    (g.withoutBreakpoints target).subs other =
      if other = target then g.subs other
      else (g.subs other).map (redirected (g.breakpointsOn target) target) := by
  rw [subs, subs, rule?_withoutBreakpoints]
  cases g.rule? other with
  | none => simp
  | some rule =>
      by_cases heq : other = target
      · simp [heq]
      · simp [heq, Rule.mapSubs, Kind.subs_mapSubs]

theorem subs_withBreakpoint (hother : g.contains other) :
    (g.withBreakpoint target).subs other = (g.subs other).map (g.watched target) := by
  obtain ⟨rule, hrule⟩ := exists_rule?_of_contains hother
  rw [subs_eq (rule?_withBreakpoint hrule target), subs_eq hrule, Rule.mapSubs, Kind.subs_mapSubs]

namespace Instrumented

variable (h : g.Instrumented g') (hfree : g.BreakpointFree) (hg : g.WellFormed)

include h

/-- What a rule refers to is in front of what it referred to before. -/
theorem exists_of_mem_subs (hg : g.WellFormed) (hother : g.contains other)
    (hfront : front ∈ g'.subs other) : ∃ one ∈ g.subs other, g.contains one ∧ g'.Fronts front one := by
  obtain ⟨rule, hrule⟩ := exists_rule?_of_contains hother
  obtain ⟨f, hrule', hf⟩ := h.rule other rule hrule
  rw [subs_eq hrule', Rule.mapSubs, Kind.subs_mapSubs] at hfront
  obtain ⟨one, hone, rfl⟩ := List.mem_map.mp hfront
  exact ⟨one, by rwa [subs_eq hrule], hg.edges rule (Array.mem_of_getElem? hrule) one hone,
    hf one hone⟩

theorem exists_front_of_mem_subs (hother : g.contains other) (hone : one ∈ g.subs other) :
    ∃ front ∈ g'.subs other, g'.Fronts front one := by
  obtain ⟨rule, hrule⟩ := exists_rule?_of_contains hother
  obtain ⟨f, hrule', hf⟩ := h.rule other rule hrule
  rw [subs_eq hrule] at hone
  refine ⟨f one, ?_, hf one hone⟩
  rw [subs_eq hrule', Rule.mapSubs, Kind.subs_mapSubs]
  exact List.mem_map_of_mem hone

include hfree

/-- What is in use and goes through a breakpoint on `id` did so before, or the breakpoint is new. -/
theorem kind?_watched_iff (id : RuleId) (htarget : g.contains target) (hone : g.contains one)
    (hnone : g'.breakpointsOn target = []) (hfront : g'.Fronts front one)
    (huse : g'.isInUse front) :
    (g'.withBreakpoint target).kind? (g'.watched target front) = some (.breakpoint id) ↔
      g'.kind? front = some (.breakpoint id) ∨ front = target ∧ id = target := by
  -- On the target itself the new breakpoint stands in front; elsewhere fronts stay what they were.
  by_cases heq : front = target
  · have hkind := h.not_breakpoint hfree htarget id
    rw [heq, watched_target, kind?_withBreakpoint_new]
    simp [hkind, eq_comm]
  · have hfrontAfter := h.fronts_withBreakpoint hfree htarget hone hnone huse hfront
    rw [watched_of_ne heq] at hfrontAfter ⊢
    simp only [heq, false_and, or_false]
    -- Either the rule stands for itself, and no rule of `g` is a breakpoint, or a breakpoint stands
    -- in front.
    rcases hfront with rfl | hkind
    · have hbefore := h.not_breakpoint hfree hone
      refine iff_of_false (fun hafter => ?_) (hbefore id)
      rw [kind?_withBreakpoint (h.contains hone)] at hafter
      obtain ⟨sub, hkind, -⟩ := Kind.exists_of_map_mapSubs_eq_breakpoint hafter
      exact hbefore sub hkind
    · have hne : front ≠ one := by
        rintro rfl
        exact h.not_breakpoint hfree hone front hkind
      rw [hkind, hfrontAfter.resolve_left hne]

/-- A rule in use is redirected to a breakpoint on `id` only if it was one, and not on `target`. -/
theorem kind?_redirected_iff (id : RuleId) (htarget : g.contains target) (hone : g.contains one)
    (hfront : g'.Fronts front one) (huse : g'.isInUse front) :
    (g'.withoutBreakpoints target).kind? (redirected (g'.breakpointsOn target) target front) =
        some (.breakpoint id) ↔
      g'.kind? front = some (.breakpoint id) ∧ id ≠ target := by
  by_cases hmem : front ∈ g'.breakpointsOn target
  · have hkind := (mem_breakpointsOn_iff.mp hmem).1
    rw [redirected_of_mem hmem,
      h.kind?_withoutBreakpoints_iff hfree htarget htarget (.inl rfl), hkind]
    refine ⟨fun hafter => (h.not_breakpoint hfree htarget id hafter).elim, ?_⟩
    rintro ⟨heq, hne⟩
    cases heq
    exact (hne rfl).elim
  · rw [redirected_of_not_mem hmem, h.kind?_withoutBreakpoints_iff hfree htarget hone hfront]
    refine (and_iff_left_of_imp fun hkind => ?_).symm
    rintro rfl
    exact hmem (mem_breakpointsOn_iff.mpr ⟨hkind, huse⟩)

include hg

/-- Clearing takes breakpoints on `target` out of the way of all rules but `target` itself. -/
theorem refersThrough_withoutBreakpoints_iff (htarget : g.contains target)
    (hother : g.contains other) :
    (g'.withoutBreakpoints target).RefersThrough other id ↔
      g'.RefersThrough other id ∧ (other = id ∨ id ≠ target) := by
  rw [RefersThrough, RefersThrough, subs_withoutBreakpoints]
  by_cases heq : other = target
  · -- The rules that `target` itself refers to are left alone.
    have hself : other = id ∨ id ≠ target := by
      by_cases hid : id = target
      · exact .inl (heq.trans hid.symm)
      · exact .inr hid
    rw [if_pos heq, and_iff_left hself]
    refine exists_congr fun front => and_congr_right fun hfront => ?_
    obtain ⟨one, -, hone, hfronts⟩ := h.exists_of_mem_subs hg hother hfront
    exact h.kind?_withoutBreakpoints_iff hfree htarget hone hfronts
  · have hself : other = id ∨ id ≠ target ↔ id ≠ target :=
      or_iff_right_of_imp fun hid => hid ▸ heq
    have hredirected (front : RuleId) (hfront : front ∈ g'.subs other) :=
      let ⟨_, _, hone, hfronts⟩ := h.exists_of_mem_subs hg hother hfront
      h.kind?_redirected_iff hfree id htarget hone hfronts
        (isInUse_iff.mpr (.inl ⟨other, hfront⟩))
    rw [if_neg heq, hself]
    constructor
    · rintro ⟨_, hmem, hafter⟩
      obtain ⟨front, hfront, rfl⟩ := List.mem_map.mp hmem
      obtain ⟨hkind, hne⟩ := (hredirected front hfront).mp hafter
      exact ⟨⟨front, hfront, hkind⟩, hne⟩
    · rintro ⟨⟨front, hfront, hkind⟩, hne⟩
      exact ⟨_, List.mem_map_of_mem hfront, (hredirected front hfront).mpr ⟨hkind, hne⟩⟩

theorem rootThrough_withoutBreakpoints_iff (htarget : g.contains target) :
    (g'.withoutBreakpoints target).RootThrough id ↔ g'.RootThrough id ∧ id ≠ target := by
  have hroot := h.root
  have hcontains := hg.root
  rw [RootThrough, RootThrough, root_withoutBreakpoints]
  generalize hfound : g'.root = root' at hroot
  generalize g.root = root at hroot hcontains
  cases hroot with
  | none => simp
  | some hfront =>
      have hredirected := h.kind?_redirected_iff hfree id htarget (hcontains _ rfl) hfront
        (isInUse_iff.mpr (.inr hfound))
      simpa using hredirected

/-- Setting a first breakpoint on `target` puts it in the way of all that refers to `target`. -/
theorem refersThrough_withBreakpoint_iff (htarget : g.contains target) (hother : g.contains other)
    (hnone : g'.breakpointsOn target = []) :
    (g'.withBreakpoint target).RefersThrough other id ↔
      g'.RefersThrough other id ∨ id = target ∧ target ∈ g.subs other := by
  have hwatched (front : RuleId) (hfront : front ∈ g'.subs other) :=
    let ⟨_, _, hone, hfronts⟩ := h.exists_of_mem_subs hg hother hfront
    h.kind?_watched_iff hfree id htarget hone hnone hfronts
      (isInUse_iff.mpr (.inl ⟨other, hfront⟩))
  rw [RefersThrough, RefersThrough, subs_withBreakpoint (h.contains hother)]
  constructor
  · rintro ⟨_, hmem, hafter⟩
    obtain ⟨front, hfront, rfl⟩ := List.mem_map.mp hmem
    -- The breakpoint was there before, or it is the new one and stands in front of the target.
    obtain hkind | ⟨rfl, rfl⟩ := (hwatched front hfront).mp hafter
    · exact .inl ⟨front, hfront, hkind⟩
    · obtain ⟨one, hsub, -, hfronts⟩ := h.exists_of_mem_subs hg hother hfront
      obtain rfl := h.eq_of_fronts hfree hfronts htarget
      exact .inr ⟨rfl, hsub⟩
  · rintro (⟨front, hfront, hkind⟩ | ⟨rfl, hsub⟩)
    · exact ⟨_, List.mem_map_of_mem hfront, (hwatched front hfront).mpr (.inl hkind)⟩
    · obtain ⟨front, hfront, hfronts⟩ := h.exists_front_of_mem_subs hother hsub
      refine ⟨_, List.mem_map_of_mem hfront, (hwatched front hfront).mpr ?_⟩
      exact hfronts.symm.imp_right fun heq => ⟨heq, rfl⟩

/-! ## Calls in a row -/

omit hfree hg in
theorem idOf?_ne_some_iff : g'.idOf? name ≠ some id ↔ g.nameOf? id ≠ some name :=
  not_congr h.idOf?_eq_some_iff

omit hfree hg in
/-- A call brings up a breakpoint on a rule only if it sets one under the name of the rule. -/
theorem exists_breakpoint_of_afterCall (hname : g.nameOf? id = some name) {call : BreakpointCall}
    (hkind : (g'.afterCall call).kind? front = some (.breakpoint id)) :
    (∃ front, g'.kind? front = some (.breakpoint id)) ∨ call = .set name := by
  have hid := contains_of_nameOf? hname
  obtain ⟨hsame, -⟩ | ⟨other, target, rfl, htarget, -, hset⟩ | ⟨other, target, rfl, htarget, hclear⟩ :=
    afterCall_cases g' call
  · rw [hsame] at hkind
    exact .inl ⟨front, hkind⟩
  · rw [hset] at hkind
    obtain ⟨rule, hrule, -⟩ := Option.map_eq_some_iff.mp hkind
    rcases contains_withBreakpoint_iff.mp (contains_of_rule? hrule) with hold | rfl
    · rw [kind?_withBreakpoint hold] at hkind
      obtain ⟨sub, hbefore, rfl⟩ := Kind.exists_of_map_mapSubs_eq_breakpoint hkind
      by_cases heq : sub = target
      · -- No rule of `g` is the new breakpoint.
        rw [heq, watched_target] at hid
        exact (ne_new_of_contains (h.contains hid) rfl).elim
      · exact .inl ⟨front, by rw [hbefore, watched_of_ne heq]⟩
    · rw [kind?_withBreakpoint_new] at hkind
      cases hkind
      have hother := (h.named_of_idOf? htarget).1
      rw [hname, Option.some.injEq] at hother
      exact .inr (by rw [hother])
  · rw [hclear] at hkind
    left
    by_cases heq : front = target
    · rw [Graph.kind?, rule?_withoutBreakpoints] at hkind
      simp only [heq, if_true, Option.map_id'] at hkind
      exact ⟨target, hkind⟩
    · rw [kind?_withoutBreakpoints heq] at hkind
      obtain ⟨sub, hbefore, rfl⟩ := Kind.exists_of_map_mapSubs_eq_breakpoint hkind
      by_cases hmem : sub ∈ g'.breakpointsOn target
      · exact ⟨sub, by rw [redirected_of_mem hmem, (mem_breakpointsOn_iff.mp hmem).1]⟩
      · exact ⟨front, by rw [hbefore, redirected_of_not_mem hmem]⟩

theorem refersThrough_clear_iff (name : String) (id : RuleId) (hother : g.contains other) :
    (g'.afterCall (.clear name)).RefersThrough other id ↔
      g'.RefersThrough other id ∧ (other = id ∨ g.nameOf? id ≠ some name) := by
  rw [← h.idOf?_ne_some_iff]
  cases htarget : g'.idOf? name with
  | none =>
      rw [afterCall_clear_of_eq_none htarget]
      simp
  | some target =>
      obtain ⟨-, -, hcontains⟩ := h.named_of_idOf? htarget
      rw [afterCall_clear htarget, h.refersThrough_withoutBreakpoints_iff hfree hg hcontains hother,
        Ne, Ne, Option.some.injEq, eq_comm (a := target)]

theorem rootThrough_clear_iff (name : String) (id : RuleId) :
    (g'.afterCall (.clear name)).RootThrough id ↔
      g'.RootThrough id ∧ g.nameOf? id ≠ some name := by
  rw [← h.idOf?_ne_some_iff]
  cases htarget : g'.idOf? name with
  | none =>
      rw [afterCall_clear_of_eq_none htarget]
      simp
  | some target =>
      obtain ⟨-, -, hcontains⟩ := h.named_of_idOf? htarget
      rw [afterCall_clear htarget, h.rootThrough_withoutBreakpoints_iff hfree hg hcontains,
        Ne, Ne, Option.some.injEq, eq_comm (a := target)]

/-- After some names were cleared, nothing but a rule itself goes through a breakpoint on the rule. -/
theorem refersThrough_clears_iff (names : List String) (id : RuleId) (hother : g.contains other) :
    (g'.afterCalls (names.map .clear)).RefersThrough other id ↔
      g'.RefersThrough other id ∧ (other = id ∨ ∀ name ∈ names, g.nameOf? id ≠ some name) := by
  induction names generalizing g' with
  | nil => simp [Graph.afterCalls]
  | cons name names ih =>
      have hrest := ih (h.afterCall hfree hg (.clear name))
      rw [h.refersThrough_clear_iff hfree hg name id hother] at hrest
      rw [List.forall_mem_cons, or_and_left, ← and_assoc, ← hrest]
      rfl

theorem rootThrough_clears_iff (names : List String) :
    (g'.afterCalls (names.map .clear)).RootThrough id ↔
      g'.RootThrough id ∧ ∀ name ∈ names, g.nameOf? id ≠ some name := by
  induction names generalizing g' with
  | nil => simp [Graph.afterCalls]
  | cons name names ih =>
      have hrest := ih (h.afterCall hfree hg (.clear name))
      rw [h.rootThrough_clear_iff hfree hg] at hrest
      rw [List.forall_mem_cons, ← and_assoc, ← hrest]
      rfl

end Instrumented

section Calls

variable (hg : g.WellFormed) (hfree : g.BreakpointFree)

theorem afterCalls_append (g : Graph α) (calls more : List BreakpointCall) :
    g.afterCalls (calls ++ more) = (g.afterCalls calls).afterCalls more := List.foldl_append

include hfree in
theorem BreakpointFree.kind?_ne (id sub : RuleId) : g.kind? id ≠ some (.breakpoint sub) := by
  intro hkind
  obtain ⟨rule, hrule, hbreakpoint⟩ := Option.map_eq_some_iff.mp hkind
  exact hfree rule (Array.mem_of_getElem? hrule) sub hbreakpoint

include hg hfree

theorem WellFormed.instrumented_afterCalls (calls : List BreakpointCall) :
    g.Instrumented (g.afterCalls calls) :=
  hg.instrumented.afterCalls hfree hg calls

/-- There are breakpoints on a rule only if one was set under its name. -/
theorem WellFormed.mem_calls_of_breakpoint (hname : g.nameOf? id = some name)
    {calls : List BreakpointCall}
    (hkind : ∃ front, (g.afterCalls calls).kind? front = some (.breakpoint id)) :
    .set name ∈ calls := by
  induction calls using List.reverseRecOn with
  | nil =>
      obtain ⟨front, hfront⟩ := hkind
      exact (hfree.kind?_ne front id hfront).elim
  | append_singleton calls call ih =>
      obtain ⟨front, hfront⟩ := hkind
      rw [afterCalls_append] at hfront
      have hbefore := hg.instrumented_afterCalls hfree calls
      rcases hbefore.exists_breakpoint_of_afterCall hname hfront with hold | rfl
      · exact List.mem_append_left _ (ih hold)
      · exact List.mem_append_right _ List.mem_cons_self

/-- A rule goes through a breakpoint on itself just if it refers to itself and a breakpoint was ever
set on it, cleared or not. -/
theorem WellFormed.refersThrough_self_iff (hname : g.nameOf? id = some name)
    (calls : List BreakpointCall) :
    (g.afterCalls calls).RefersThrough id id ↔ id ∈ g.subs id ∧ .set name ∈ calls := by
  have hid := contains_of_nameOf? hname
  induction calls using List.reverseRecOn with
  | nil =>
      refine iff_of_false ?_ fun hself => List.not_mem_nil hself.2
      rintro ⟨front, -, hfront⟩
      exact hfree.kind?_ne front id hfront
  | append_singleton calls call ih =>
      have hbefore := hg.instrumented_afterCalls hfree calls
      -- Only the last call is new; the ones before it are covered by the induction.
      have hlast : BreakpointCall.set name ∈ calls ++ [call] ↔
          .set name ∈ calls ∨ call = .set name := by
        rw [List.mem_append, List.mem_singleton, eq_comm]
      rw [afterCalls_append, hlast]
      show ((g.afterCalls calls).afterCall call).RefersThrough id id ↔ _
      obtain ⟨hsame, huse⟩ | ⟨other, target, rfl, htarget, hnone, hset⟩ |
        ⟨other, target, rfl, htarget, hclear⟩ := afterCall_cases (g.afterCalls calls) call
      · -- If the call sets a breakpoint on the rule, one was there already, so it was set before.
        have hset : call = .set name → .set name ∈ calls := by
          rintro rfl
          have hmem := huse name id rfl (hbefore.idOf?_eq_some_iff.mpr hname)
          obtain ⟨front, hfront⟩ := List.exists_mem_of_ne_nil _ hmem
          exact hg.mem_calls_of_breakpoint hfree hname
            ⟨front, (mem_breakpointsOn_iff.mp hfront).1⟩
        rw [hsame, or_iff_left_of_imp hset]
        exact ih
      · obtain ⟨hother, -, hcontains⟩ := hbefore.named_of_idOf? htarget
        rw [hset, hbefore.refersThrough_withBreakpoint_iff hfree hg hcontains hid hnone]
        have hsame : id = target ↔ BreakpointCall.set other = .set name := by
          rw [BreakpointCall.set.injEq]
          constructor
          · rintro rfl
            exact Option.some.inj (hother.symm.trans hname)
          · rintro rfl
            exact eq_of_nameOf? hg.distinct hname hother
        rw [← hsame, and_or_left]
        refine or_congr ih ⟨?_, ?_⟩
        · rintro ⟨rfl, hself⟩
          exact ⟨hself, rfl⟩
        · rintro ⟨hself, rfl⟩
          exact ⟨rfl, hself⟩
      · obtain ⟨-, -, hcontains⟩ := hbefore.named_of_idOf? htarget
        rw [hclear, hbefore.refersThrough_withoutBreakpoints_iff hfree hg hcontains hid,
          and_iff_left (.inl rfl), or_iff_left fun hset => nomatch hset]
        exact ih

end Calls

/-! ## What is restored -/

namespace Instrumented

variable (h : g.Instrumented g') (hfree : g.BreakpointFree)

include h hfree

/-- Breakpoints are only ever on named rules. -/
theorem exists_name_of_fronts (hfront : g'.Fronts front one) (hone : g.contains one)
    (hkind : g'.kind? front = some (.breakpoint id)) : ∃ name, g.nameOf? id = some name := by
  have hnew : ¬ g.contains front := fun hcontains => h.not_breakpoint hfree hcontains id hkind
  have hne : front ≠ one := fun heq => hnew (heq ▸ hone)
  obtain ⟨rule, hrule, hbreakpoint⟩ := Option.map_eq_some_iff.mp hkind
  obtain ⟨sub, rfl, hnamed⟩ := h.added front rule hnew hrule
  have hsame : g'.kind? front = some (.breakpoint one) := hfront.resolve_left hne
  rw [hkind] at hsame
  cases hsame
  cases hbreakpoint
  exact Option.isSome_iff_exists.mp (hnamed hone)

theorem exists_name_of_refersThrough (hg : g.WellFormed) (hother : g.contains other)
    (hthrough : g'.RefersThrough other id) : ∃ name, g.nameOf? id = some name := by
  obtain ⟨front, hfront, hkind⟩ := hthrough
  obtain ⟨one, -, hone, hfronts⟩ := h.exists_of_mem_subs hg hother hfront
  exact h.exists_name_of_fronts hfree hfronts hone hkind

theorem exists_name_of_rootThrough (hg : g.WellFormed) (hthrough : g'.RootThrough id) :
    ∃ name, g.nameOf? id = some name := by
  obtain ⟨front, hfront, hkind⟩ := hthrough
  have hroot := h.root
  have hcontains := hg.root
  rw [Option.mem_def.mp hfront] at hroot
  generalize g.root = root at hroot hcontains
  cases hroot with
  | some hfronts => exact h.exists_name_of_fronts hfree hfronts (hcontains _ rfl) hkind

/-- A rule is what it was just if it refers to nothing through a breakpoint. -/
theorem rule?_eq_iff (hg : g.WellFormed) (hid : g.contains id) :
    g'.rule? id = g.rule? id ↔ ∀ one, ¬ g'.RefersThrough id one := by
  obtain ⟨rule, hrule⟩ := exists_rule?_of_contains hid
  obtain ⟨f, hrule', hf⟩ := h.rule id rule hrule
  have hcontains := hg.edges rule (Array.mem_of_getElem? hrule)
  rw [hrule', hrule, Option.some.injEq, Rule.mapSubs_eq_self_iff]
  constructor
  · rintro hsame sub ⟨front, hfront, hkind⟩
    rw [subs_eq hrule', Rule.mapSubs, Kind.subs_mapSubs] at hfront
    obtain ⟨one, hone, rfl⟩ := List.mem_map.mp hfront
    rw [hsame one hone] at hkind
    exact h.not_breakpoint hfree (hcontains one hone) sub hkind
  · intro hnone one hone
    refine (hf one hone).resolve_right fun hkind => hnone one ⟨f one, ?_, hkind⟩
    rw [subs_eq hrule', Rule.mapSubs, Kind.subs_mapSubs]
    exact List.mem_map_of_mem hone

theorem root_eq_iff (hg : g.WellFormed) : g'.root = g.root ↔ ∀ one, ¬ g'.RootThrough one := by
  have hroot := h.root
  have hcontains := hg.root
  unfold RootThrough
  generalize g'.root = root' at hroot
  generalize g.root = root at hroot hcontains
  cases hroot with
  | none => simp
  | @some front one hfront =>
      rw [Option.some.injEq]
      constructor
      · rintro rfl sub ⟨_, ⟨⟩, hkind⟩
        exact h.not_breakpoint hfree (hcontains _ rfl) sub hkind
      · intro hnone
        exact hfront.resolve_right fun hkind => hnone one ⟨front, rfl, hkind⟩

end Instrumented

section Restoring

variable (hg : g.WellFormed) (hfree : g.BreakpointFree) (calls : List BreakpointCall)

include hg hfree

/-- After a name was cleared, only the rule of that name may refer to itself through a breakpoint. -/
theorem WellFormed.refersThrough_cleared_iff (hname : g.nameOf? id = some name)
    (hother : g.contains other) :
    (g.afterCalls (calls ++ [.clear name])).RefersThrough other id ↔
      other = id ∧ id ∈ g.subs id ∧ .set name ∈ calls := by
  have hclear := (hg.instrumented_afterCalls hfree calls).refersThrough_clear_iff hfree hg name id
    hother
  rw [or_iff_left (not_not.mpr hname)] at hclear
  rw [afterCalls_append]
  refine hclear.trans ⟨?_, ?_⟩
  · rintro ⟨hthrough, rfl⟩
    exact ⟨rfl, (hg.refersThrough_self_iff hfree hname calls).mp hthrough⟩
  · rintro ⟨rfl, hself⟩
    exact ⟨(hg.refersThrough_self_iff hfree hname calls).mpr hself, rfl⟩

theorem WellFormed.not_rootThrough_cleared (hname : g.nameOf? id = some name) :
    ¬ (g.afterCalls (calls ++ [.clear name])).RootThrough id := by
  have hclear := (hg.instrumented_afterCalls hfree calls).rootThrough_clear_iff hfree hg name id
  rw [afterCalls_append]
  exact fun hroot => (hclear.mp hroot).2 hname

variable {names : List String} (hall : ∀ name ∈ g.names, name ∈ names)

include hall

theorem WellFormed.root_restored :
    (g.afterCalls (calls ++ names.map .clear)).root = g.root := by
  have hafter := hg.instrumented_afterCalls hfree (calls ++ names.map .clear)
  refine (hafter.root_eq_iff hfree hg).mpr fun one hroot => ?_
  obtain ⟨name, hname⟩ := hafter.exists_name_of_rootThrough hfree hg hroot
  -- Every rule that a breakpoint is on has a name, and so was cleared.
  rw [afterCalls_append, (hg.instrumented_afterCalls hfree calls).rootThrough_clears_iff hfree hg]
    at hroot
  exact hroot.2 name (hall name (mem_names_iff.mpr ⟨one, hname⟩)) hname

theorem WellFormed.rule_restored_iff (hid : g.contains id) :
    (g.afterCalls (calls ++ names.map .clear)).rule? id = g.rule? id ↔
      ¬ (id ∈ g.subs id ∧ ∃ name, g.nameOf? id = some name ∧ .set name ∈ calls) := by
  have hcalls := hg.instrumented_afterCalls hfree calls
  have hafter := hg.instrumented_afterCalls hfree (calls ++ names.map .clear)
  have hclears (one : RuleId) :=
    hcalls.refersThrough_clears_iff hfree hg names one hid
  -- A rule is as it was if it refers to none of its rules through a breakpoint.
  rw [hafter.rule?_eq_iff hfree hg hid]
  constructor
  · rintro hnone ⟨hself, name, hname, hset⟩
    refine hnone id ?_
    rw [afterCalls_append, hclears]
    exact ⟨(hg.refersThrough_self_iff hfree hname calls).mpr ⟨hself, hset⟩, .inl rfl⟩
  · intro hself one hthrough
    obtain ⟨name, hname⟩ := hafter.exists_name_of_refersThrough hfree hg hid hthrough
    rw [afterCalls_append, hclears] at hthrough
    obtain ⟨hbefore, rfl | hleft⟩ := hthrough
    · obtain ⟨hsub, hset⟩ := (hg.refersThrough_self_iff hfree hname calls).mp hbefore
      exact hself ⟨hsub, name, hname, hset⟩
    · exact hleft name (hall name (mem_names_iff.mpr ⟨one, hname⟩)) hname

end Restoring

/-- **Breakpoints can be undone, but for rules that refer to themselves.**  Whatever breakpoints were
set and cleared, all rules and the root are what they were, but for breakpoints on what they refer to.
After clearing a name, neither the root nor any rule refers to the rule of that name through a
breakpoint, save that rule itself: it does if it refers directly to itself and a breakpoint was ever
set on it.  After all names were cleared, the root and all rules but those are restored. -/
theorem WellFormed.breakpoints_reversible (hg : g.WellFormed) (hfree : g.BreakpointFree)
    (calls : List BreakpointCall) :
    g.Instrumented (g.afterCalls calls) ∧
      (∀ id name, g.nameOf? id = some name →
        ¬ (g.afterCalls (calls ++ [.clear name])).RootThrough id ∧
          ∀ other, g.contains other →
            ((g.afterCalls (calls ++ [.clear name])).RefersThrough other id ↔
              other = id ∧ id ∈ g.subs id ∧ .set name ∈ calls)) ∧
      ∀ names : List String, (∀ name ∈ g.names, name ∈ names) →
        (g.afterCalls (calls ++ names.map .clear)).root = g.root ∧
          ∀ id, g.contains id →
            ((g.afterCalls (calls ++ names.map .clear)).rule? id = g.rule? id ↔
              ¬ (id ∈ g.subs id ∧ ∃ name, g.nameOf? id = some name ∧ .set name ∈ calls)) := by
  refine ⟨hg.instrumented_afterCalls hfree calls, fun id name hname => ⟨?_, fun other hother => ?_⟩,
    fun names hall => ⟨?_, fun id hid => ?_⟩⟩
  · exact hg.not_rootThrough_cleared hfree calls hname
  · exact hg.refersThrough_cleared_iff hfree calls hname hother
  · exact hg.root_restored hfree calls hall
  · exact hg.rule_restored_iff hfree calls hall hid

/-- Numbers made of digits. -/
def numbers : Graph Char where
  rules := #[.named "digit" (.ofKind (.range '0' '9')), .named "number" (.ofKind (.count ⟨0⟩ 1 0))]
  root := some ⟨1⟩

theorem numbers_wellFormed : numbers.WellFormed where
  distinct := by decide +kernel
  edges := by decide +kernel
  root := by decide +kernel

theorem numbers_breakpointFree : numbers.BreakpointFree := by
  intro rule hrule sub
  simp only [numbers, List.mem_toArray, List.mem_cons, List.not_mem_nil, or_false] at hrule
  rcases hrule with rfl | rfl <;> exact nofun

/-- Both rules are restored after three breakpoints, one of them set a second time. -/
theorem numbers_breakpoints_reversible :
    numbers.WellFormed ∧ numbers.BreakpointFree ∧
      (numbers.afterCalls [.set "digit", .clear "digit", .set "number", .set "digit"]).size = 5 ∧
      (numbers.afterCalls ([.set "digit", .clear "digit", .set "number", .set "digit"] ++
        ["digit", "number"].map .clear)).root = numbers.root ∧
      (numbers.afterCalls ([.set "digit", .clear "digit", .set "number", .set "digit"] ++
        ["digit", "number"].map .clear)).rule? ⟨1⟩ = numbers.rule? ⟨1⟩ := by
  obtain ⟨-, -, hrestored⟩ := numbers_wellFormed.breakpoints_reversible numbers_breakpointFree
    [.set "digit", .clear "digit", .set "number", .set "digit"]
  obtain ⟨hroot, hrules⟩ := hrestored ["digit", "number"] (by decide +kernel)
  have hself : ⟨1⟩ ∉ numbers.subs ⟨1⟩ := by decide +kernel
  exact ⟨numbers_wellFormed, numbers_breakpointFree, by decide +kernel, hroot,
    (hrules ⟨1⟩ rfl).mpr fun h => hself h.1⟩

/-- A rule that stands for itself. -/
def selfReference : Graph Char where
  rules := #[.named "x" (.ofKind (.reference "x" (some ⟨0⟩)))]
  root := some ⟨0⟩

/-- The rule keeps referring to the breakpoint that was set on it and cleared. -/
theorem selfReference_not_restored :
    selfReference.WellFormed ∧ selfReference.BreakpointFree ∧
      (selfReference.afterCalls [.set "x", .clear "x"]).RefersThrough ⟨0⟩ ⟨0⟩ ∧
      (selfReference.afterCalls [.set "x", .clear "x"]).rule? ⟨0⟩ ≠ selfReference.rule? ⟨0⟩ := by
  refine ⟨⟨by decide +kernel, by decide +kernel, by decide +kernel⟩, ?_, ⟨⟨1⟩, ?_, ?_⟩, ?_⟩
  · intro rule hrule sub
    simp only [selfReference, List.mem_toArray, List.mem_singleton] at hrule
    rcases hrule with rfl
    exact nofun
  · decide +kernel
  · decide +kernel
  · decide +kernel

end RuleScript.Graph
