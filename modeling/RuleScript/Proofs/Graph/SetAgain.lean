import RuleScript.Proofs.Graph.Breakpoints
import RuleScript.Proofs.Graph.Reachability

/-!
# Setting a breakpoint again

No graph keeps a list of its breakpoints: one counts as set if it is in use.  A new breakpoint takes
over all that referred to the rule it is on, so it is in use just if that rule was
(`Graph.WellFormed.isInUse_new_iff`), and then the next call under the same name finds it.

On a rule that nothing refers to, the next call sets a second breakpoint.  The first one refers to the
rule by then, and so comes to refer to the second one, which every later call finds.  A third call
therefore never does anything (`Graph.WellFormed.setBreakpoint_again`).
-/

namespace RuleScript.Graph

variable {α : Type} {g : Graph α} {id target other : RuleId} {name : String}

/-! ## What refers to a new breakpoint -/

theorem subs_withBreakpoint_new (g : Graph α) (target : RuleId) :
    (g.withBreakpoint target).subs ⟨g.size⟩ = [target] :=
  subs_eq (rule?_withBreakpoint_new g target)

theorem watched_eq_new_iff (h : g.contains id) : g.watched target id = ⟨g.size⟩ ↔ id = target := by
  constructor
  · intro hnew
    by_contra hne
    rw [watched_of_ne hne] at hnew
    exact ne_new_of_contains h hnew
  · rintro rfl
    exact watched_target g id

theorem isInUse_of_kind? (h : g.kind? id = some (.breakpoint target)) : g.isInUse target := by
  obtain ⟨rule, hrule, hkind⟩ := Option.map_eq_some_iff.mp h
  refine isInUse_iff.mpr (.inl ⟨id, ?_⟩)
  rw [subs_eq hrule, hkind]
  exact List.mem_singleton.mpr rfl

/-- All other breakpoints on the rule are on the new breakpoint from now on. -/
theorem kind?_eq_breakpoint_on_iff (htarget : g.contains target) :
    (g.withBreakpoint target).kind? id = some (.breakpoint target) ↔ id = ⟨g.size⟩ := by
  constructor
  · intro hkind
    obtain ⟨rule, hrule, -⟩ := Option.map_eq_some_iff.mp hkind
    refine (contains_withBreakpoint_iff.mp (contains_of_rule? hrule)).resolve_left fun hid => ?_
    rw [kind?_withBreakpoint hid] at hkind
    obtain ⟨sub, -, hsame⟩ := Kind.exists_of_map_mapSubs_eq_breakpoint hkind
    by_cases hsub : sub = target
    · rw [hsub, watched_target] at hsame
      exact ne_new_of_contains htarget hsame
    · rw [watched_of_ne hsub] at hsame
      exact hsub hsame.symm
  · rintro rfl
    exact kind?_withBreakpoint_new g target

namespace WellFormed

variable (hg : g.WellFormed)

include hg

/-- A rule refers to the new breakpoint if it referred to the rule that the breakpoint is on. -/
theorem new_mem_subs_iff (h : g.contains other) :
    ⟨g.size⟩ ∈ (g.withBreakpoint target).subs other ↔ target ∈ g.subs other := by
  rw [subs_withBreakpoint h, List.mem_map]
  constructor
  · rintro ⟨one, hone, hnew⟩
    rwa [← (watched_eq_new_iff (hg.contains_of_mem_subs hone)).mp hnew]
  · intro hmem
    exact ⟨target, hmem, watched_target g target⟩

theorem root_eq_new_iff :
    (g.withBreakpoint target).root = some ⟨g.size⟩ ↔ g.root = some target := by
  rw [root_withBreakpoint, Option.map_eq_some_iff]
  constructor
  · rintro ⟨root, hroot, hnew⟩
    rwa [← (watched_eq_new_iff (hg.root root hroot)).mp hnew]
  · intro hroot
    exact ⟨target, hroot, watched_target g target⟩

/-- A new breakpoint is in use just if the rule it is on was. -/
theorem isInUse_new_iff (htarget : g.contains target) :
    (g.withBreakpoint target).isInUse ⟨g.size⟩ ↔ g.isInUse target := by
  rw [isInUse_iff, isInUse_iff, hg.root_eq_new_iff]
  refine or_congr_left (exists_congr fun other => ?_)
  by_cases hother : g.contains other
  · exact hg.new_mem_subs_iff hother
  · -- The breakpoint itself refers to the rule it is on, which is an old one.
    have hold : target ∉ g.subs other := by simp [subs, rule?_eq_none hother]
    refine iff_of_false (fun hmem => ?_) hold
    by_cases hnew : other = ⟨g.size⟩
    · rw [hnew, subs_withBreakpoint_new, List.mem_singleton] at hmem
      exact ne_new_of_contains htarget hmem.symm
    · have hnone := not_contains_withBreakpoint hother hnew target
      simp [subs, rule?_eq_none hnone] at hmem

theorem mem_breakpointsOn_withBreakpoint_iff (htarget : g.contains target) :
    id ∈ (g.withBreakpoint target).breakpointsOn target ↔ id = ⟨g.size⟩ ∧ g.isInUse target := by
  rw [mem_breakpointsOn_iff, kind?_eq_breakpoint_on_iff htarget]
  refine and_congr_right fun hid => ?_
  rw [hid, hg.isInUse_new_iff htarget]

end WellFormed

/-! ## Calls in a row -/

theorem setBreakpoint_of_mem (h : g.idOf? name = some target)
    (hmem : id ∈ g.breakpointsOn target) :
    ∃ first ∈ g.breakpointsOn target, g.setBreakpoint name = .ok ⟨first, g, false⟩ := by
  rw [setBreakpoint_eq h]
  cases hfound : g.breakpointsOn target with
  | nil =>
      rw [hfound] at hmem
      exact (List.not_mem_nil hmem).elim
  | cons first rest => exact ⟨first, List.mem_cons_self, rfl⟩

theorem setBreakpoint_of_eq_nil (h : g.idOf? name = some target)
    (hnone : g.breakpointsOn target = []) :
    g.setBreakpoint name = .ok ⟨⟨g.size⟩, g.withBreakpoint target, true⟩ := by
  rw [setBreakpoint_eq h, hnone]

namespace WellFormed

variable (hg : g.WellFormed)

include hg

theorem idOf?_withBreakpoint (h : g.idOf? name = some target) :
    (g.withBreakpoint target).idOf? name = some target := by
  have htarget := contains_of_idOf? h
  rw [idOf?_eq_some_iff (hg.withBreakpoint htarget).distinct, nameOf?_withBreakpoint htarget]
  exact nameOf?_of_idOf? h

theorem setBreakpoint_found (h : g.idOf? name = some target) (huse : g.isInUse target) :
    (g.withBreakpoint target).setBreakpoint name =
      .ok ⟨⟨g.size⟩, g.withBreakpoint target, false⟩ := by
  have hmem (id : RuleId) : id ∈ (g.withBreakpoint target).breakpointsOn target ↔
      id = ⟨g.size⟩ ∧ g.isInUse target :=
    hg.mem_breakpointsOn_withBreakpoint_iff (contains_of_idOf? h)
  obtain ⟨first, hfirst, hset⟩ :=
    setBreakpoint_of_mem (hg.idOf?_withBreakpoint h) ((hmem _).mpr ⟨rfl, huse⟩)
  rw [hset, ((hmem first).mp hfirst).1]

theorem setBreakpoint_missed (h : g.idOf? name = some target) (huse : ¬ g.isInUse target) :
    (g.withBreakpoint target).setBreakpoint name =
      .ok ⟨⟨g.size + 1⟩, (g.withBreakpoint target).withBreakpoint target, true⟩ := by
  have hnone : (g.withBreakpoint target).breakpointsOn target = [] :=
    List.eq_nil_iff_forall_not_mem.mpr fun id hid =>
      huse ((hg.mem_breakpointsOn_withBreakpoint_iff (contains_of_idOf? h)).mp hid).2
  rw [setBreakpoint_of_eq_nil (hg.idOf?_withBreakpoint h) hnone, size_withBreakpoint]

end WellFormed

/-- **A breakpoint is set once on a rule in use, and twice at most.**  Setting a breakpoint a second
time finds the one from the first time, and leaves the graph as it is, just if some rule refers to the
named rule or the named rule is the root.  A third time never does anything. -/
theorem WellFormed.setBreakpoint_again (hg : g.WellFormed) (hname : g.nameOf? target = some name) :
    ∃ first second, g.setBreakpoint name = .ok first ∧
      first.graph.setBreakpoint name = .ok second ∧
      (second.id = first.id ↔ g.isInUse target) ∧ (second.graph = first.graph ↔ g.isInUse target) ∧
      second.graph.setBreakpoint name = .ok ⟨second.id, second.graph, false⟩ := by
  have h : g.idOf? name = some target := (idOf?_eq_some_iff hg.distinct).mpr hname
  by_cases hset : ∃ id, id ∈ g.breakpointsOn target
  · -- A breakpoint is set already, and refers to the rule.
    obtain ⟨id, hid⟩ := hset
    have huse := isInUse_of_kind? (mem_breakpointsOn_iff.mp hid).1
    obtain ⟨first, -, hfirst⟩ := setBreakpoint_of_mem h hid
    exact ⟨_, _, hfirst, hfirst, iff_of_true rfl huse, iff_of_true rfl huse, hfirst⟩
  · have hnone : g.breakpointsOn target = [] :=
      List.eq_nil_iff_forall_not_mem.mpr fun id hid => hset ⟨id, hid⟩
    have hfirst := setBreakpoint_of_eq_nil h hnone
    -- A breakpoint that nothing refers to is not found again, so the second call makes another.
    by_cases huse : g.isInUse target
    · have hsecond := hg.setBreakpoint_found h huse
      exact ⟨_, _, hfirst, hsecond, iff_of_true rfl huse, iff_of_true rfl huse, hsecond⟩
    · have hafter := hg.withBreakpoint (contains_of_idOf? h)
      have hlater := isInUse_of_kind? (kind?_withBreakpoint_new g target)
      have hthird := hafter.setBreakpoint_found (hg.idOf?_withBreakpoint h) hlater
      rw [size_withBreakpoint] at hthird
      refine ⟨_, _, hfirst, hg.setBreakpoint_missed h huse, iff_of_false (fun hid => ?_) huse,
        iff_of_false (fun hgraph => ?_) huse, hthird⟩
      · exact Nat.succ_ne_self g.size (congrArg RuleId.index hid)
      · have hsize := congrArg size hgraph
        rw [size_withBreakpoint] at hsize
        exact Nat.succ_ne_self _ hsize

/-- The breakpoint on the digits of a number is found when it is set again. -/
theorem numbers_setBreakpoint_again :
    numbers.WellFormed ∧ numbers.nameOf? ⟨0⟩ = some "digit" ∧
      ∃ first second, numbers.setBreakpoint "digit" = .ok first ∧
        first.graph.setBreakpoint "digit" = .ok second ∧ second.id = first.id ∧
        second.graph = first.graph := by
  have hname : numbers.nameOf? ⟨0⟩ = some "digit" := by decide +kernel
  have huse : numbers.isInUse ⟨0⟩ := by decide +kernel
  obtain ⟨first, second, hfirst, hsecond, hid, hgraph, -⟩ := numbers_wellFormed.setBreakpoint_again hname
  exact ⟨numbers_wellFormed, hname, first, second, hfirst, hsecond, hid.mpr huse, hgraph.mpr huse⟩

/-- A letter that nothing refers to. -/
def looseLetter : Graph Char where
  rules := #[.named "a" (.ofKind (.single 'a'))]

theorem looseLetter_wellFormed : looseLetter.WellFormed where
  distinct := by decide +kernel
  edges := by decide +kernel
  root := by decide +kernel

/-- The second call does not find the breakpoint of the first one. -/
theorem looseLetter_set_twice :
    looseLetter.WellFormed ∧ looseLetter.nameOf? ⟨0⟩ = some "a" ∧
      ∃ first second, looseLetter.setBreakpoint "a" = .ok first ∧
        first.graph.setBreakpoint "a" = .ok second ∧ first.id = ⟨1⟩ ∧ second.id = ⟨2⟩ ∧
        second.graph ≠ first.graph := by
  have hname : looseLetter.idOf? "a" = some ⟨0⟩ := by decide +kernel
  have hsecond := looseLetter_wellFormed.setBreakpoint_missed hname (by decide +kernel)
  refine ⟨looseLetter_wellFormed, by decide +kernel, _, _,
    setBreakpoint_of_eq_nil hname (by decide +kernel), hsecond, rfl, rfl, by decide +kernel⟩

end RuleScript.Graph
