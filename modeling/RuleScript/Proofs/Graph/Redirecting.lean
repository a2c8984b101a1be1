import RuleScript.Proofs.Graph.Merging

/-!
# What a redirection changes

After a redirection a rule is what it was before, but for the rules it refers to
(`Graph.rule?_redirect`); `RuleId.redirected` tells which those are now.  Redirections to the same rule,
one after the other, come to one redirection (`Graph.rule?_foldl_redirect`).

Setting a breakpoint either changes nothing or puts a new rule behind all others and redirects to it
(`Graph.setBreakpoint_eq`).  For the graph that has the new rule, `Graph.withBreakpoint`, there is a
lemma for each thing that can be asked about it.
-/

namespace RuleScript

/-! ## Redirected ids -/

namespace RuleId

/-- `target` in the place of any of the `sources`. -/
def redirected (sources : List RuleId) (target id : RuleId) : RuleId :=
  if id ∈ sources then target else id

variable {sources : List RuleId} {source target id : RuleId}

theorem redirected_of_mem (h : id ∈ sources) : redirected sources target id = target := if_pos h

theorem redirected_of_not_mem (h : id ∉ sources) : redirected sources target id = id := if_neg h

theorem redirected_of_ne (h : id ≠ source) : redirected [source] target id = id :=
  redirected_of_not_mem (mt List.mem_singleton.mp h)

@[simp] theorem redirected_source (source target : RuleId) :
    redirected [source] target source = target :=
  redirected_of_mem List.mem_cons_self

@[simp] theorem redirected_target (sources : List RuleId) (target : RuleId) :
    redirected sources target target = target := by
  unfold redirected
  split <;> rfl

/-- A redirection is undone by the opposite one, where nothing was the target before. -/
theorem redirected_back (h : id ≠ target) :
    redirected [target] source (redirected [source] target id) = id := by
  by_cases hid : id = source
  · rw [hid, redirected_source, redirected_source]
  · rw [redirected_of_ne hid, redirected_of_ne h]

theorem redirected_nil (target : RuleId) : redirected [] target = fun id => id :=
  funext fun _ => redirected_of_not_mem List.not_mem_nil

theorem redirected_cons (source : RuleId) (sources : List RuleId) (target : RuleId) :
    redirected sources target ∘ redirected [source] target = redirected (source :: sources) target := by
  funext id
  rw [Function.comp_apply]
  by_cases hid : id = source
  · rw [hid, redirected_source, redirected_target, redirected_of_mem List.mem_cons_self]
  · rw [redirected_of_ne hid]
    simp only [redirected, List.mem_cons, hid, false_or]

end RuleId

open RuleId

variable {α : Type}

/-! ## Redirected rules -/

theorem Kind.mapSubs_congr {kind : Kind α} {f f' : RuleId → RuleId}
    (h : ∀ one ∈ kind.subs, f one = f' one) : kind.mapSubs f = kind.mapSubs f' := by
  cases kind with
  | sequence subs => exact congrArg sequence (List.map_congr_left h)
  | oneOf subs => exact congrArg oneOf (List.map_congr_left h)
  | evaluation subs => exact congrArg evaluation (List.map_congr_left h)
  | log level message guard =>
      exact congrArg (log level message) (Option.map_congr fun one hone => h one (by simpa [subs]))
  | reference target subject =>
      exact congrArg (reference target) (Option.map_congr fun one hone => h one (by simpa [subs]))
  | _ => simp_all [mapSubs, subs]

theorem Rule.mapSubs_congr {rule : Rule α} {f f' : RuleId → RuleId}
    (h : ∀ one ∈ rule.kind.subs, f one = f' one) : rule.mapSubs f = rule.mapSubs f' :=
  congrArg (fun kind => { rule with kind := kind }) (Kind.mapSubs_congr h)

/-- A rule is what it was only if it refers to the same rules as before. -/
theorem Rule.mapSubs_eq_self_iff {rule : Rule α} {f : RuleId → RuleId} :
    rule.mapSubs f = rule ↔ ∀ one ∈ rule.kind.subs, f one = one := by
  constructor
  · intro h one hone
    have hsubs : rule.kind.subs.map f = rule.kind.subs.map id := by
      rw [List.map_id, ← Kind.subs_mapSubs]
      exact congrArg (fun rule => rule.kind.subs) h
    exact List.map_inj_left.mp hsubs one hone
  · intro h
    calc rule.mapSubs f = rule.mapSubs fun one => one := mapSubs_congr h
      _ = rule := mapSubs_id rule

theorem Kind.exists_of_map_mapSubs_eq_breakpoint {kind : Option (Kind α)} {f : RuleId → RuleId}
    {id : RuleId} (h : kind.map (·.mapSubs f) = some (.breakpoint id)) :
    ∃ sub, kind = some (.breakpoint sub) ∧ id = f sub := by
  obtain ⟨kind, rfl, hmapped⟩ := Option.map_eq_some_iff.mp h
  cases kind with
  | breakpoint sub =>
      cases hmapped
      exact ⟨sub, rfl, rfl⟩
  | _ => cases hmapped

theorem Kind.exists_of_mapSubs_eq_evaluation {kind : Kind α} {f : RuleId → RuleId}
    {alternatives : List RuleId} (h : kind.mapSubs f = .evaluation alternatives) :
    ∃ olds, kind = .evaluation olds ∧ alternatives = olds.map f := by
  cases kind with
  | evaluation olds =>
      cases h
      exact ⟨olds, rfl, rfl⟩
  | _ => cases h

namespace Graph

variable {g : Graph α} {id target : RuleId} {name : String}

theorem rule?_redirect (g : Graph α) (source target id : RuleId) :
    (g.redirect source target).rule? id = (g.rule? id).map fun rule =>
      if id = target then rule else rule.mapSubs (redirected [source] target) := by
  have hmoved : (fun id => if id = source then target else id) = redirected [source] target := by
    funext id
    simp [redirected]
  have hsame : id.index = target.index ↔ id = target :=
    ⟨fun heq => Element.code_injective heq, congrArg RuleId.index⟩
  rw [rule?, redirect, Array.getElem?_mapIdx, hmoved]
  simp only [hsame]
  rfl

theorem root_redirect (g : Graph α) (source target : RuleId) :
    (g.redirect source target).root = g.root.map (redirected [source] target) := by
  unfold redirect redirected
  simp

/-- Several redirections to the same rule come to one. -/
theorem rule?_foldl_redirect (g : Graph α) (sources : List RuleId) (target id : RuleId) :
    (sources.foldl (fun g source => g.redirect source target) g).rule? id =
      (g.rule? id).map fun rule =>
        if id = target then rule else rule.mapSubs (redirected sources target) := by
  induction sources generalizing g with
  | nil => simp [redirected_nil]
  | cons source sources ih =>
      rw [List.foldl_cons, ih, rule?_redirect, Option.map_map]
      refine congrArg (Option.map · (g.rule? id)) (funext fun rule => ?_)
      rw [Function.comp_apply]
      split
      · rfl
      · rw [Rule.mapSubs_mapSubs, redirected_cons]

theorem root_foldl_redirect (g : Graph α) (sources : List RuleId) (target : RuleId) :
    (sources.foldl (fun g source => g.redirect source target) g).root =
      g.root.map (redirected sources target) := by
  induction sources generalizing g with
  | nil => simp [redirected_nil]
  | cons source sources ih =>
      rw [List.foldl_cons, ih, root_redirect, Option.map_map, redirected_cons]

/-! ## Breakpoints -/

theorem isInUse_iff : g.isInUse id ↔ (∃ other, id ∈ g.subs other) ∨ g.root = some id := by
  have hsubs : (∃ other, id ∈ g.subs other) ↔ ∃ rule ∈ g.rules, id ∈ rule.kind.subs := by
    constructor
    · rintro ⟨other, hid⟩
      unfold subs at hid
      split at hid
      · rename_i rule hrule
        exact ⟨rule, Array.mem_of_getElem? hrule, hid⟩
      · exact (List.not_mem_nil hid).elim
    · rintro ⟨rule, hrule, hid⟩
      obtain ⟨index, hlt, rfl⟩ := Array.mem_iff_getElem.mp hrule
      have hfound : g.rule? ⟨index⟩ = some g.rules[index] := Array.getElem?_eq_getElem hlt
      exact ⟨⟨index⟩, by simpa only [subs, hfound] using hid⟩
  rw [hsubs, isInUse, Bool.or_eq_true, Array.any_eq_true']
  simp

theorem mem_breakpointsOn_iff :
    id ∈ g.breakpointsOn target ↔ g.kind? id = some (.breakpoint target) ∧ g.isInUse id := by
  rw [breakpointsOn, List.mem_filter, mem_ids]
  constructor
  · rintro ⟨-, hid⟩
    split at hid
    · rename_i sub hkind
      simp only [Bool.and_eq_true, decide_eq_true_iff] at hid
      exact ⟨by rw [hkind, hid.1], hid.2⟩
    · cases hid
  · rintro ⟨hkind, huse⟩
    obtain ⟨rule, hrule, -⟩ := Option.map_eq_some_iff.mp hkind
    refine ⟨contains_iff.mp (contains_of_rule? hrule), ?_⟩
    simp [hkind, huse]

/-- The graph with a new breakpoint on a rule. -/
def withBreakpoint (g : Graph α) (target : RuleId) : Graph α :=
  redirect { g with rules := g.rules.push (.ofKind (.breakpoint target)) } target ⟨g.size⟩

/-- The new breakpoint in the place of the rule that it is on. -/
def watched (g : Graph α) (target : RuleId) : RuleId → RuleId := redirected [target] ⟨g.size⟩

/-- The rule in the place of the new breakpoint on it. -/
def unwatched (g : Graph α) (target : RuleId) : RuleId → RuleId := redirected [⟨g.size⟩] target

theorem ne_new_of_contains (h : g.contains id) : id ≠ ⟨g.size⟩ := by
  intro heq
  have hlt := contains_iff.mp h
  rw [heq] at hlt
  exact Nat.lt_irrefl _ hlt

theorem watched_target (g : Graph α) (target : RuleId) : g.watched target target = ⟨g.size⟩ :=
  redirected_source _ _

theorem watched_of_ne (h : id ≠ target) : g.watched target id = id := redirected_of_ne h

theorem unwatched_of_contains (h : g.contains id) : g.unwatched target id = id :=
  redirected_of_ne (ne_new_of_contains h)

theorem unwatched_new (g : Graph α) (target : RuleId) : g.unwatched target ⟨g.size⟩ = target :=
  redirected_source _ _

theorem unwatched_watched (h : g.contains id) : g.unwatched target (g.watched target id) = id :=
  redirected_back (ne_new_of_contains h)

/-- Setting a breakpoint on a name that some rule has always succeeds. -/
theorem setBreakpoint_eq (h : g.idOf? name = some target) :
    g.setBreakpoint name = .ok (match g.breakpointsOn target with
      | id :: _ => ⟨id, g, false⟩
      | [] => ⟨⟨g.size⟩, g.withBreakpoint target, true⟩) := by
  have hregister : g.register (.ofKind (.breakpoint target)) =
      .ok (⟨g.size⟩, { g with rules := g.rules.push (.ofKind (.breakpoint target)) }) := by
    simp [register, Rule.ofKind, Kind.subs, contains_of_idOf? h]
  rw [setBreakpoint, h]
  dsimp only
  cases g.breakpointsOn target with
  | nil =>
      dsimp only
      rw [hregister]
      rfl
  | cons id rest => rfl

theorem size_withBreakpoint (g : Graph α) (target : RuleId) :
    (g.withBreakpoint target).size = g.size + 1 := by
  rw [withBreakpoint, size_redirect, size, Array.size_push]
  rfl

theorem contains_withBreakpoint_iff :
    (g.withBreakpoint target).contains id ↔ g.contains id ∨ id = ⟨g.size⟩ := by
  rw [contains_iff, contains_iff, size_withBreakpoint, Nat.lt_succ_iff_lt_or_eq]
  exact or_congr_right ⟨fun heq => Element.code_injective heq, congrArg RuleId.index⟩

theorem not_contains_withBreakpoint (hid : ¬ g.contains id) (hnew : id ≠ ⟨g.size⟩)
    (target : RuleId) : ¬ (g.withBreakpoint target).contains id := by
  rw [contains_withBreakpoint_iff]
  exact not_or.mpr ⟨hid, hnew⟩

theorem contains_unwatched (htarget : g.contains target)
    (h : (g.withBreakpoint target).contains id) : g.contains (g.unwatched target id) := by
  rcases contains_withBreakpoint_iff.mp h with hid | rfl
  · rwa [unwatched_of_contains hid]
  · rwa [unwatched_new]

theorem contains_watched (h : g.contains id) :
    (g.withBreakpoint target).contains (g.watched target id) := by
  rw [contains_withBreakpoint_iff]
  by_cases hid : id = target
  · right
    rw [hid, watched_target]
  · left
    rwa [watched_of_ne hid]

theorem rule?_withBreakpoint {rule : Rule α} (h : g.rule? id = some rule) (target : RuleId) :
    (g.withBreakpoint target).rule? id = some (rule.mapSubs (g.watched target)) := by
  have hcontains := contains_of_rule? h
  have hlt := contains_iff.mp hcontains
  have hpushed : rule? { g with rules := g.rules.push (.ofKind (.breakpoint target)) } id =
      some rule := by
    rw [← h, rule?, rule?, Array.getElem?_push_lt hlt, Array.getElem?_eq_getElem hlt]
  rw [withBreakpoint, rule?_redirect, hpushed, Option.map_some,
    if_neg (ne_new_of_contains hcontains), watched]

theorem rule?_withBreakpoint_new (g : Graph α) (target : RuleId) :
    (g.withBreakpoint target).rule? ⟨g.size⟩ = some (.ofKind (.breakpoint target)) := by
  have hpushed : rule? { g with rules := g.rules.push (.ofKind (.breakpoint target)) } ⟨g.size⟩ =
      some (.ofKind (.breakpoint target)) := Array.getElem?_push_size
  rw [withBreakpoint, rule?_redirect, hpushed, Option.map_some, if_pos rfl]

theorem nameOf?_withBreakpoint (h : g.contains id) :
    (g.withBreakpoint target).nameOf? id = g.nameOf? id := by
  obtain ⟨rule, hrule⟩ := exists_rule?_of_contains h
  rw [nameOf?, nameOf?, rule?_withBreakpoint hrule, hrule]
  rfl

theorem WellFormed.withBreakpoint (hg : g.WellFormed) (htarget : g.contains target) :
    (g.withBreakpoint target).WellFormed := by
  refine (hg.push ?_ ?_).redirect target ?_
  · intro name hname
    cases hname
  · intro sub hsub
    rwa [List.mem_singleton.mp hsub]
  · simp [contains, size]

theorem root_withBreakpoint (g : Graph α) (target : RuleId) :
    (g.withBreakpoint target).root = g.root.map (g.watched target) :=
  root_redirect _ _ _

theorem kind?_withBreakpoint (h : g.contains id) :
    (g.withBreakpoint target).kind? id = (g.kind? id).map (·.mapSubs (g.watched target)) := by
  obtain ⟨rule, hrule⟩ := exists_rule?_of_contains h
  rw [kind?_eq_some (rule?_withBreakpoint hrule target), kind?_eq_some hrule]
  rfl

theorem kind?_withBreakpoint_new (g : Graph α) (target : RuleId) :
    (g.withBreakpoint target).kind? ⟨g.size⟩ = some (.breakpoint target) :=
  kind?_eq_some (rule?_withBreakpoint_new g target)

end Graph

end RuleScript
