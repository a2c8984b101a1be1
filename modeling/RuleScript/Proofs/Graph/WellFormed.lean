import Mathlib.Data.List.Nodup
import RuleScript.Graph.Breakpoint
import RuleScript.Graph.Merge
import RuleScript.Proofs.Graph.Nullable

/-!
# Well-formed graphs

In a well-formed graph no two rules share a name, and rules and root refer to rules that are there.
Whatever changes a graph keeps this up.  Most changes either add a rule at the end or let rules
refer to others than before (`Graph.WellFormed.push`, `Graph.WellFormed.mapRules`); merging does
both, for all the rules of a second graph at once.
-/

namespace RuleScript

namespace Graph

variable {α : Type} {g : Graph α} {id : RuleId} {name : String}

/-- No name is taken twice, and all ids in use are ids of rules. -/
structure WellFormed (g : Graph α) : Prop where
  distinct : g.names.Nodup
  edges : ∀ rule ∈ g.rules, ∀ sub ∈ rule.kind.subs, g.contains sub
  root : ∀ id ∈ g.root, g.contains id

/-! ## Names -/

theorem contains_iff : g.contains id ↔ id.index < g.size := decide_eq_true_iff

theorem contains_of_rule? {rule : Rule α} (h : g.rule? id = some rule) : g.contains id :=
  contains_iff.mpr (Array.getElem?_eq_some_iff.mp h).1

theorem exists_rule?_of_contains (h : g.contains id) : ∃ rule, g.rule? id = some rule :=
  ⟨_, Array.getElem?_eq_getElem (contains_iff.mp h)⟩

theorem rule?_eq_none (h : ¬ g.contains id) : g.rule? id = none :=
  Array.getElem?_eq_none (Nat.not_lt.mp (mt contains_iff.mpr h))

theorem nameOf?_eq_some_iff :
    g.nameOf? id = some name ↔ ∃ rule, g.rule? id = some rule ∧ rule.name = some name :=
  Option.bind_eq_some_iff

theorem names_eq (g : Graph α) : g.names = g.rules.toList.filterMap (·.name) := by
  have hnames : g.names = g.ids.filterMap g.nameOf? := by
    rw [names, named, List.map_filterMap]
    exact List.filterMap_congr fun id _ => by cases g.nameOf? id <;> rfl
  have hids : g.ids.map g.rule? = g.rules.toList.map some := by
    refine List.ext_getElem (by simp [ids, size]) fun index h h' => ?_
    simp only [ids, List.length_map, List.length_range] at h
    simp [ids, rule?, size] at h ⊢
  calc g.names = (g.ids.map g.rule?).filterMap (Option.bind · (·.name)) := by
        rw [hnames, List.filterMap_map]
        rfl
    _ = g.rules.toList.filterMap (·.name) := by
        rw [hids, List.filterMap_map]
        rfl

theorem mem_names_iff : name ∈ g.names ↔ ∃ id, g.nameOf? id = some name := by
  rw [names_eq, List.mem_filterMap]
  constructor
  · rintro ⟨rule, hrule, hname⟩
    obtain ⟨index, hlt, hget⟩ := List.getElem_of_mem hrule
    refine ⟨⟨index⟩, nameOf?_eq_some_iff.mpr ⟨rule, ?_, hname⟩⟩
    rw [← hget]
    exact Array.getElem?_eq_getElem hlt
  · rintro ⟨id, hid⟩
    obtain ⟨rule, hrule, hname⟩ := nameOf?_eq_some_iff.mp hid
    exact ⟨rule, Array.mem_toList_iff.mpr (Array.mem_of_getElem? hrule), hname⟩

theorem nameOf?_of_idOf? (h : g.idOf? name = some id) : g.nameOf? id = some name := by
  obtain ⟨index, hindex, rfl⟩ := Option.map_eq_some_iff.mp h
  obtain ⟨hlt, hname, -⟩ := List.findIdx?_eq_some_iff_getElem.mp hindex
  refine nameOf?_eq_some_iff.mpr ⟨g.rules.toList[index], ?_, by simpa using hname⟩
  exact Array.getElem?_eq_getElem hlt

theorem contains_of_nameOf? (h : g.nameOf? id = some name) : g.contains id := by
  obtain ⟨rule, hrule, -⟩ := nameOf?_eq_some_iff.mp h
  exact contains_of_rule? hrule

theorem contains_of_idOf? (h : g.idOf? name = some id) : g.contains id :=
  contains_of_nameOf? (nameOf?_of_idOf? h)

theorem hasName_iff : g.hasName name ↔ name ∈ g.names := by
  rw [mem_names_iff, hasName]
  constructor
  · intro h
    obtain ⟨id, hid⟩ := Option.isSome_iff_exists.mp h
    exact ⟨id, nameOf?_of_idOf? hid⟩
  · rintro ⟨id, hid⟩
    obtain ⟨rule, hrule, hname⟩ := nameOf?_eq_some_iff.mp hid
    rw [idOf?, Option.isSome_map, List.findIdx?_isSome, List.any_eq_true]
    exact ⟨rule, Array.mem_toList_iff.mpr (Array.mem_of_getElem? hrule), by simp [hname]⟩

theorem hasName_eq_false_iff : g.hasName name = false ↔ name ∉ g.names := by
  rw [← hasName_iff, Bool.not_eq_true]

theorem idOf?_eq_none_iff : g.idOf? name = none ↔ name ∉ g.names := by
  rw [← hasName_eq_false_iff, hasName, Option.isSome_eq_false_iff, Option.isNone_iff_eq_none]

/-- Where no name is taken twice, a name tells its rule. -/
theorem eq_of_nameOf? (h : g.names.Nodup) {id' : RuleId} (hid : g.nameOf? id = some name)
    (hid' : g.nameOf? id' = some name) : id = id' := by
  obtain ⟨rule, hrule, hname⟩ := nameOf?_eq_some_iff.mp hid
  obtain ⟨rule', hrule', hname'⟩ := nameOf?_eq_some_iff.mp hid'
  obtain ⟨hlt, rfl⟩ := Array.getElem?_eq_some_iff.mp hrule
  obtain ⟨hlt', rfl⟩ := Array.getElem?_eq_some_iff.mp hrule'
  rw [names_eq, List.Nodup, List.pairwise_filterMap, List.pairwise_iff_getElem] at h
  have hapart {i j : Nat} (hi : i < g.rules.size) (hj : j < g.rules.size) (hlt : i < j)
      (hname : g.rules[i].name = some name) (hname' : g.rules[j].name = some name) : False :=
    h i j hi hj hlt name hname name hname' rfl
  rcases Nat.lt_trichotomy id.index id'.index with hless | heq | hgreater
  · exact (hapart hlt hlt' hless hname hname').elim
  · exact Element.code_injective heq
  · exact (hapart hlt' hlt hgreater hname' hname).elim

theorem idOf?_eq_some_iff (h : g.names.Nodup) : g.idOf? name = some id ↔ g.nameOf? id = some name := by
  refine ⟨nameOf?_of_idOf?, fun hid => ?_⟩
  cases hfound : g.idOf? name with
  | none => exact absurd (mem_names_iff.mpr ⟨id, hid⟩) (idOf?_eq_none_iff.mp hfound)
  | some found => rw [eq_of_nameOf? h hid (nameOf?_of_idOf? hfound)]

/-! ## Changes -/

theorem empty_wellFormed : (empty : Graph α).WellFormed where
  distinct := List.nodup_nil
  edges _ h := nomatch h
  root _ h := nomatch h

/-- A rule is registered unless its name is taken or it refers to what is not there. -/
theorem register_eq_ok {rule : Rule α} {registered : RuleId × Graph α}
    (h : g.register rule = .ok registered) :
    (∀ name ∈ rule.name, name ∉ g.names) ∧ (∀ sub ∈ rule.kind.subs, g.contains sub) ∧
      registered = (⟨g.size⟩, { g with rules := g.rules.push rule }) := by
  rw [register] at h
  split at h
  · cases h
  · cases h
  · rename_i hname hsubs
    refine ⟨fun name hmem => ?_, fun sub hsub => ?_, (Except.ok.inj h).symm⟩
    · rw [Option.mem_def.mp hmem, Option.filter_eq_none_iff] at hname
      exact fun hnames => hname name rfl (hasName_iff.mpr hnames)
    · simpa using List.find?_eq_none.mp hsubs sub hsub

theorem setRoot_eq_ok {rooted : Graph α} (h : g.setRoot id = .ok rooted) :
    g.contains id ∧ rooted = { g with root := some id } := by
  rw [setRoot] at h
  split at h
  · rename_i hid
    exact ⟨hid, (Except.ok.inj h).symm⟩
  · cases h

theorem names_of_map {changed : Graph α}
    (h : changed.rules.toList.map (·.name) = g.rules.toList.map (·.name)) :
    changed.names = g.names := by
  have hnames (g : Graph α) : g.names = (g.rules.toList.map (·.name)).filterMap id := by
    rw [names_eq, List.filterMap_map]
    rfl
  rw [hnames, hnames, h]

theorem replace_eq_ok {source target : RuleId} {replaced : Graph α}
    (h : g.replace source target = .ok replaced) :
    g.contains target ∧ replaced = g.redirect source target := by
  rw [replace] at h
  split at h
  · cases h
  · rename_i hfind
    exact ⟨by simpa using List.find?_eq_none.mp hfind target (by simp), (Except.ok.inj h).symm⟩

theorem names_push (g : Graph α) (rule : Rule α) :
    names { g with rules := g.rules.push rule } = g.names ++ rule.name.toList := by
  rw [names_eq, names_eq, Array.toList_push, List.filterMap_append]
  cases hrule : rule.name <;> simp [hrule]

@[simp] theorem name_linkRule (g : Graph α) (rule : Rule α) : (g.linkRule rule).name = rule.name := by
  rw [linkRule]
  split <;> rfl

theorem names_link (g : Graph α) : g.link.names = g.names :=
  names_of_map (by simp [link, Function.comp_def])

theorem snd_resolve (g : Graph α) : g.resolve.2 = g.link := by
  rw [resolve]
  cases g.link.missing <;> rfl

theorem names_redirect (g : Graph α) (source target : RuleId) :
    (g.redirect source target).names = g.names := by
  refine names_of_map (List.ext_getElem (by simp [redirect]) fun index h h' => ?_)
  simp only [redirect, Array.toList_mapIdx, List.getElem_map, List.getElem_mapIdx]
  split <;> rfl

@[simp] theorem size_link (g : Graph α) : g.link.size = g.size := Array.size_map

@[simp] theorem size_redirect (g : Graph α) (source target : RuleId) :
    (g.redirect source target).size = g.size := Array.size_mapIdx

namespace WellFormed

/-- Rules may come to refer to other rules that are there. -/
theorem mapRules (h : g.WellFormed) {changed : Graph α} (hnames : changed.names = g.names)
    (hsize : changed.size = g.size)
    (hedges : ∀ rule ∈ changed.rules, ∀ sub ∈ rule.kind.subs, g.contains sub)
    (hroot : ∀ id ∈ changed.root, g.contains id) : changed.WellFormed where
  distinct := hnames ▸ h.distinct
  edges rule hrule sub hsub := by
    rw [contains, hsize]
    exact hedges rule hrule sub hsub
  root id hid := by
    rw [contains, hsize]
    exact hroot id hid

theorem push (h : g.WellFormed) {rule : Rule α} (hname : ∀ name ∈ rule.name, name ∉ g.names)
    (hsubs : ∀ sub ∈ rule.kind.subs, g.contains sub) :
    WellFormed { g with rules := g.rules.push rule } where
  distinct := by
    rw [names_push]
    cases hrule : rule.name with
    | none => simpa using h.distinct
    | some name =>
        exact List.nodup_append.mpr ⟨h.distinct, List.nodup_singleton name, fun a ha b hb heq =>
          hname name hrule (List.mem_singleton.mp hb ▸ heq ▸ ha)⟩
  edges other hother sub hsub := by
    rw [contains_iff, size, Array.size_push]
    refine Nat.lt_succ_of_lt (contains_iff.mp ?_)
    rcases Array.mem_push.mp hother with hother | rfl
    · exact h.edges other hother sub hsub
    · exact hsubs sub hsub
  root id hid := by
    rw [contains_iff, size, Array.size_push]
    exact Nat.lt_succ_of_lt (contains_iff.mp (h.root id hid))

theorem register (h : g.WellFormed) {rule : Rule α} {registered : RuleId × Graph α}
    (hregister : g.register rule = .ok registered) : registered.2.WellFormed := by
  obtain ⟨hname, hsubs, rfl⟩ := register_eq_ok hregister
  exact h.push hname hsubs

theorem setRoot (h : g.WellFormed) {rooted : Graph α} (hroot : g.setRoot id = .ok rooted) :
    rooted.WellFormed := by
  obtain ⟨hid, rfl⟩ := setRoot_eq_ok hroot
  exact ⟨h.distinct, h.edges, fun other hother => Option.mem_some_iff.mp hother ▸ hid⟩

theorem link (h : g.WellFormed) : g.link.WellFormed := by
  refine h.mapRules (names_link g) (size_link g) (fun rule hrule sub hsub => ?_) h.root
  obtain ⟨origin, horigin, rfl⟩ := Array.mem_map.mp hrule
  rw [linkRule] at hsub
  split at hsub
  · exact contains_of_idOf? (Option.mem_toList.mp hsub)
  · exact h.edges origin horigin sub hsub

theorem redirect (h : g.WellFormed) (source : RuleId) {target : RuleId}
    (htarget : g.contains target) : (g.redirect source target).WellFormed := by
  have hmoved (id : RuleId) (hid : g.contains id) :
      g.contains (if id = source then target else id) := by
    split
    · exact htarget
    · exact hid
  refine h.mapRules (names_redirect g source target) (size_redirect g source target) ?_ ?_
  · intro rule hrule sub hsub
    obtain ⟨index, hlt, rfl⟩ := Array.mem_mapIdx.mp hrule
    split at hsub
    · exact h.edges _ (Array.getElem_mem hlt) sub hsub
    · rw [Rule.mapSubs, Kind.subs_mapSubs] at hsub
      obtain ⟨origin, horigin, rfl⟩ := List.mem_map.mp hsub
      exact hmoved origin (h.edges _ (Array.getElem_mem hlt) origin horigin)
  · intro id hid
    obtain ⟨origin, horigin, rfl⟩ := Option.map_eq_some_iff.mp hid
    exact hmoved origin (h.root origin horigin)

theorem replace (h : g.WellFormed) {source target : RuleId} {replaced : Graph α}
    (hreplace : g.replace source target = .ok replaced) : replaced.WellFormed := by
  obtain ⟨htarget, rfl⟩ := replace_eq_ok hreplace
  exact h.redirect source htarget

theorem setBreakpoint (h : g.WellFormed) {set : BreakpointSet α}
    (hset : g.setBreakpoint name = .ok set) : set.graph.WellFormed := by
  rw [Graph.setBreakpoint] at hset
  split at hset
  · cases hset
  · rename_i target htarget
    split at hset
    · cases hset
      exact h
    · cases hregister : g.register (.ofKind (.breakpoint target)) with
      | error error =>
          rw [hregister] at hset
          cases hset
      | ok registered =>
          rw [hregister] at hset
          cases hset
          refine (h.register hregister).redirect target ?_
          obtain ⟨-, -, rfl⟩ := register_eq_ok hregister
          simp [contains, size]

/-- Redirecting to a rule again and again leaves it where it is. -/
theorem foldl_redirect (h : g.WellFormed) {target : RuleId} (htarget : g.contains target)
    (ids : List RuleId) :
    (ids.foldl (fun g id => g.redirect id target) g).WellFormed := by
  induction ids generalizing g with
  | nil => exact h
  | cons id ids ih =>
      exact ih (h.redirect id htarget) (by rwa [contains_iff, size_redirect, ← contains_iff])

theorem clearBreakpoint (h : g.WellFormed) {cleared : Graph α}
    (hclear : g.clearBreakpoint name = .ok cleared) : cleared.WellFormed := by
  rw [Graph.clearBreakpoint] at hclear
  split at hclear
  · cases hclear
  · rename_i target htarget
    cases hclear
    exact h.foldl_redirect (contains_of_idOf? htarget) _

end WellFormed

/-! ## Merging -/

section Merging

variable {other : Graph α} {rule : Rule α}

theorem shadow?_eq_none_iff : g.shadow? rule = none ↔ ∀ name ∈ rule.name, name ∉ g.names := by
  rw [shadow?, Option.bind_eq_none_iff]
  exact forall₂_congr fun name _ => idOf?_eq_none_iff

theorem contains_of_shadow? (h : g.shadow? rule = some id) : g.contains id := by
  obtain ⟨name, -, hid⟩ := Option.bind_eq_some_iff.mp h
  exact contains_of_idOf? hid

@[simp] theorem length_mergedIds (g : Graph α) (next : Nat) (rules : List (Rule α)) :
    (g.mergedIds next rules).length = rules.length := by
  induction rules generalizing next with
  | nil => rfl
  | cons rule rest ih =>
      rw [mergedIds]
      split <;> simp [ih]

/-- A rule goes to one with its name or to one of the next ids. -/
theorem index_lt_of_mem_mergedIds {next : Nat} {rules : List (Rule α)}
    (h : id ∈ g.mergedIds next rules) :
    g.contains id ∨ id.index < next + rules.countP fun rule => (g.shadow? rule).isNone := by
  induction rules generalizing next with
  | nil => cases h
  | cons rule rest ih =>
      rw [mergedIds] at h
      rw [List.countP_cons]
      split at h
      · rename_i shadow hshadow
        rcases List.mem_cons.mp h with rfl | h
        · exact .inl (contains_of_shadow? hshadow)
        · exact (ih h).imp_right fun hlt => by omega
      · rename_i hshadow
        rw [hshadow]
        rcases List.mem_cons.mp h with rfl | h
        · exact .inr (by simp)
        · exact (ih h).imp_right fun hlt => by simp; omega

/-- The rules that merging adds. -/
def copies (g other : Graph α) : Array (Rule α) :=
  (other.rules.filter fun rule => (g.shadow? rule).isNone).map
    (·.mapSubs (g.mergeReport other).mapped)

/-- The graph that merging comes to, before it is linked. -/
def joined (g other : Graph α) : Graph α where
  rules := g.rules ++ g.copies other
  root := g.root.or (other.root.bind (g.mergeReport other).mapped?)

theorem merge_eq (g other : Graph α) :
    g.merge other = (g.mergeReport other, (g.joined other).link) := rfl

theorem size_joined (g other : Graph α) :
    (g.joined other).size = g.size + (g.mergeReport other).added := by
  simp [joined, copies, size, mergeReport, Array.countP_eq_size_filter]

theorem contains_joined_of_mapped? {id' : RuleId} (h : (g.mergeReport other).mapped? id = some id') :
    (g.joined other).contains id' := by
  rw [contains_iff, size_joined]
  have hmem : id' ∈ g.mergedIds g.size other.rules.toList := by
    simpa [mergeReport] using Array.mem_of_getElem? h
  rcases index_lt_of_mem_mergedIds hmem with hold | hnew
  · exact Nat.lt_add_right _ (contains_iff.mp hold)
  · simpa [mergeReport, Array.countP_toList] using hnew

theorem contains_joined_of_mapped (h : other.contains id) :
    (g.joined other).contains ((g.mergeReport other).mapped id) := by
  have hlt : id.index < (g.mergeReport other).remap.size := by
    simpa [mergeReport, size] using contains_iff.mp h
  have hmapped : (g.mergeReport other).mapped? id = some ((g.mergeReport other).remap[id.index]) :=
    Array.getElem?_eq_getElem hlt
  rw [MergeReport.mapped, hmapped]
  exact contains_joined_of_mapped? hmapped

theorem names_joined (g other : Graph α) :
    (g.joined other).names =
      g.names ++ (other.rules.toList.filter fun rule => (g.shadow? rule).isNone).filterMap (·.name) := by
  simp [names_eq, joined, copies, List.filterMap_map, Rule.mapSubs]

theorem WellFormed.joined (h : g.WellFormed) (hother : other.WellFormed) :
    (g.joined other).WellFormed where
  distinct := by
    rw [names_joined]
    have hsub : ((other.rules.toList.filter fun rule => (g.shadow? rule).isNone).filterMap
        (·.name)).Sublist (other.rules.toList.filterMap (·.name)) :=
      List.filter_sublist.filterMap _
    refine List.nodup_append.mpr ⟨h.distinct, (names_eq other ▸ hother.distinct).sublist hsub, ?_⟩
    -- A copied rule has a name that is not taken, for otherwise it would be shadowed.
    rintro name hname _ hcopied rfl
    obtain ⟨rule, hrule, hrulename⟩ := List.mem_filterMap.mp hcopied
    have hnone := Option.isNone_iff_eq_none.mp (List.mem_filter.mp hrule).2
    exact shadow?_eq_none_iff.mp hnone name hrulename hname
  edges rule hrule sub hsub := by
    rcases Array.mem_append.mp hrule with hrule | hrule
    · rw [contains_iff, size_joined]
      exact Nat.lt_add_right _ (contains_iff.mp (h.edges rule hrule sub hsub))
    · obtain ⟨origin, horigin, rfl⟩ := Array.mem_map.mp hrule
      rw [Rule.mapSubs, Kind.subs_mapSubs] at hsub
      obtain ⟨id, hid, rfl⟩ := List.mem_map.mp hsub
      exact contains_joined_of_mapped (hother.edges origin (Array.mem_filter.mp horigin).1 id hid)
  root id hid := by
    rcases Option.or_eq_some_iff.mp hid with hid | ⟨-, hid⟩
    · rw [contains_iff, size_joined]
      exact Nat.lt_add_right _ (contains_iff.mp (h.root id hid))
    · obtain ⟨origin, -, hmapped⟩ := Option.bind_eq_some_iff.mp hid
      exact contains_joined_of_mapped? hmapped

theorem WellFormed.merge (h : g.WellFormed) (hother : other.WellFormed) :
    (g.merge other).2.WellFormed :=
  (h.joined hother).link

end Merging

end Graph

end RuleScript
