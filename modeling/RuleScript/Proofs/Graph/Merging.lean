import RuleScript.Proofs.Graph.WellFormed

/-!
# Where merged rules go

Merging gives every rule of the second graph a place in the result: a rule whose name is taken goes to
the rule that has the name, and every other rule to a copy of its own.  Ids are given out in one pass
and rules copied in another, so what has to be seen is that both passes count alike: a copy gets the
next id after all copies of rules before it (`Graph.getElem?_mergedIds`), and there the second pass
puts it (`Graph.rule?_joined_mapped`).

`Graph.Carries` says of any two graphs that the rules of the first have their places in the second.
Both sides of a merge do (`Graph.carries_merge`, `Graph.carries_merge_mapped`), and places can be
followed from graph to graph (`Graph.Carries.trans`).
-/

namespace RuleScript

variable {α : Type}

@[simp] theorem Kind.mapSubs_mapSubs (f f' : RuleId → RuleId) (kind : Kind α) :
    (kind.mapSubs f).mapSubs f' = kind.mapSubs (f' ∘ f) := by
  cases kind <;> simp [mapSubs]

@[simp] theorem Rule.mapSubs_mapSubs (f f' : RuleId → RuleId) (rule : Rule α) :
    (rule.mapSubs f).mapSubs f' = rule.mapSubs (f' ∘ f) := by
  simp [mapSubs]

@[simp] theorem Rule.mapSubs_id (rule : Rule α) : rule.mapSubs (fun one => one) = rule := by
  rw [mapSubs]
  exact congrArg (fun kind => { rule with kind := kind }) (Kind.mapSubs_id rule.kind)

@[simp] theorem Rule.name_mapSubs (f : RuleId → RuleId) (rule : Rule α) :
    (rule.mapSubs f).name = rule.name := rfl

namespace Graph

variable {g g' g'' other : Graph α} {id id' : RuleId} {rule : Rule α} {name : String}

/-! ## Linking -/

theorem rule?_link (g : Graph α) (id : RuleId) : g.link.rule? id = (g.rule? id).map g.linkRule :=
  Array.getElem?_map

@[simp] theorem nameOf?_link (g : Graph α) (id : RuleId) : g.link.nameOf? id = g.nameOf? id := by
  rw [nameOf?, nameOf?, rule?_link, Option.bind_map]
  exact congrArg _ (funext (name_linkRule g))

@[simp] theorem idOf?_link (g : Graph α) (name : String) : g.link.idOf? name = g.idOf? name := by
  rw [idOf?, idOf?, link, Array.toList_map, List.findIdx?_map]
  simp only [Function.comp_def, name_linkRule]

@[simp] theorem linkRule_link (g : Graph α) (rule : Rule α) :
    g.link.linkRule rule = g.linkRule rule := by
  simp only [linkRule, idOf?_link]

/-- A rule that has been looked up elsewhere is looked up again just as well, if the names it may
have found there are found here too. -/
theorem linkRule_mapSubs_linkRule {place : RuleId → RuleId}
    (hnamed : ∀ name id, g.idOf? name = some id → g'.idOf? name = some (place id)) (rule : Rule α) :
    g'.linkRule ((g.linkRule rule).mapSubs place) = g'.linkRule (rule.mapSubs place) := by
  obtain ⟨name, pruning, precedence, kind⟩ := rule
  cases kind with
  | reference target subject =>
      cases subject with
      | some subject => rfl
      | none =>
          cases hfound : g.idOf? target with
          | none => simp [linkRule, Rule.mapSubs, Kind.mapSubs, hfound]
          | some id => simp [linkRule, Rule.mapSubs, Kind.mapSubs, hfound, hnamed target id hfound]
  | _ => rfl

@[simp] theorem linkRule_linkRule (g : Graph α) (rule : Rule α) :
    g.linkRule (g.linkRule rule) = g.linkRule rule := by
  have hself : ∀ name id, g.idOf? name = some id → g.idOf? name = some ((fun one => one) id) :=
    fun _ _ h => h
  have hsame := linkRule_mapSubs_linkRule hself rule
  rwa [Rule.mapSubs_id, Rule.mapSubs_id] at hsame

@[simp] theorem link_link (g : Graph α) : g.link.link = g.link := by
  have hrules : g.link.rules.map g.link.linkRule = g.link.rules := by
    simp only [link, Array.map_map]
    refine Array.map_congr_left fun rule _ => ?_
    simpa [link] using (linkRule_link g (g.linkRule rule)).trans (linkRule_linkRule g rule)
  rw [link, hrules]

theorem linkRule_of_pending?_eq_none (g : Graph α) (h : rule.kind.pending? = none) :
    g.linkRule rule = rule := by
  rw [linkRule]
  split
  · rename_i target hkind
    rw [hkind] at h
    cases h
  · rfl

/-! ## Counting copies -/

section Counting

variable {β : Type} {p : β → Bool} {list : List β} {index : Nat} {a : β}

/-- What a filter keeps stands behind all that it kept before. -/
theorem getElem?_filter_countP (h : list[index]? = some a) (ha : p a) :
    (list.filter p)[(list.take index).countP p]? = some a := by
  induction list generalizing index with
  | nil => simp at h
  | cons b list ih =>
      cases index with
      | zero =>
          cases h
          simp [ha]
      | succ index =>
          rw [List.getElem?_cons_succ] at h
          cases hb : p b with
          | true => simpa [hb] using ih h
          | false => simpa [hb] using ih h

/-- What a filter kept stood somewhere in the list, behind as many that it kept. -/
theorem exists_of_getElem?_filter {kept : Nat} (h : (list.filter p)[kept]? = some a) :
    ∃ index, list[index]? = some a ∧ (list.take index).countP p = kept := by
  induction list generalizing kept with
  | nil => simp at h
  | cons b list ih =>
      cases hb : p b with
      | false =>
          rw [List.filter_cons_of_neg (by simp [hb])] at h
          obtain ⟨index, hindex, hcount⟩ := ih h
          exact ⟨index + 1, hindex, by simp [hb, hcount]⟩
      | true =>
          rw [List.filter_cons_of_pos hb] at h
          cases kept with
          | zero => exact ⟨0, h, rfl⟩
          | succ kept =>
              obtain ⟨index, hindex, hcount⟩ := ih h
              exact ⟨index + 1, hindex, by simp [hb, hcount]⟩

/-- Two that a filter keeps differ in how many it kept before them. -/
theorem countP_take_lt {index' : Nat} (h : list[index]? = some a) (ha : p a)
    (hlt : index < index') : (list.take index).countP p < (list.take index').countP p := by
  have hnext : (list.take (index + 1)).countP p = (list.take index).countP p + 1 := by
    rw [List.take_add_one, h, List.countP_append]
    simp [ha]
  have hmono : (list.take (index + 1)).countP p ≤ (list.take index').countP p :=
    (List.take_sublist_take_left hlt).countP_le
  omega

end Counting

/-! ## Places -/

/-- Whether a rule is copied when it is merged. -/
def isCopied (g : Graph α) (rule : Rule α) : Bool := (g.shadow? rule).isNone

theorem isCopied_iff : g.isCopied rule ↔ ∀ name ∈ rule.name, name ∉ g.names := by
  rw [isCopied, Option.isNone_iff_eq_none, shadow?_eq_none_iff]

/-- A rule goes to the one that has its name, or behind all that are copied before it. -/
theorem getElem?_mergedIds (g : Graph α) (next : Nat) (rules : List (Rule α)) (index : Nat) :
    (g.mergedIds next rules)[index]? = rules[index]?.map fun rule =>
      (g.shadow? rule).getD ⟨next + (rules.take index).countP g.isCopied⟩ := by
  induction rules generalizing next index with
  | nil => simp [mergedIds]
  | cons first rest ih =>
      rw [mergedIds]
      split
      · rename_i shadow hshadow
        cases index with
        | zero => simp [hshadow]
        | succ index => simp [ih, isCopied, hshadow]
      · rename_i hshadow
        cases index with
        | zero => simp [hshadow]
        | succ index => simp [ih, isCopied, hshadow, Nat.add_assoc, Nat.add_comm 1]

theorem mapped?_eq (hrule : other.rule? id = some rule) :
    (g.mergeReport other).mapped? id =
      some ((g.shadow? rule).getD ⟨g.size + (other.rules.toList.take id.index).countP g.isCopied⟩) := by
  have hlist : other.rules.toList[id.index]? = some rule := by simpa [rule?] using hrule
  simp only [MergeReport.mapped?, mergeReport, List.getElem?_toArray]
  rw [getElem?_mergedIds, hlist, Option.map_some]

theorem mapped_of_shadow? (hrule : other.rule? id = some rule) (hshadow : g.shadow? rule = some id') :
    (g.mergeReport other).mapped id = id' := by
  rw [MergeReport.mapped, mapped?_eq hrule, hshadow]
  rfl

theorem mapped_of_isCopied (hrule : other.rule? id = some rule) (hcopied : g.isCopied rule) :
    (g.mergeReport other).mapped id =
      ⟨g.size + (other.rules.toList.take id.index).countP g.isCopied⟩ := by
  rw [MergeReport.mapped, mapped?_eq hrule, Option.isNone_iff_eq_none.mp hcopied]
  rfl

theorem rule?_joined_left (hrule : g.rule? id = some rule) :
    (g.joined other).rule? id = some rule := by
  have hlt := (Array.getElem?_eq_some_iff.mp hrule).1
  rw [rule?, joined, Array.getElem?_append_left hlt]
  exact hrule

/-- The copy of a rule is where the merge says. -/
theorem rule?_joined_mapped (hrule : other.rule? id = some rule) (hcopied : g.isCopied rule) :
    (g.joined other).rule? ((g.mergeReport other).mapped id) =
      some (rule.mapSubs (g.mergeReport other).mapped) := by
  have hlist : other.rules.toList[id.index]? = some rule := by simpa [rule?] using hrule
  have hfiltered := getElem?_filter_countP (p := g.isCopied) hlist hcopied
  have hfound : (g.copies other)[(other.rules.toList.take id.index).countP g.isCopied]? =
      some (rule.mapSubs (g.mergeReport other).mapped) := by
    rw [copies, Array.getElem?_map, ← Array.getElem?_toList, Array.toList_filter]
    exact congrArg (Option.map _) hfiltered
  rw [mapped_of_isCopied hrule hcopied, ← hfound]
  show (g.rules ++ g.copies other)[g.rules.size + _]? = _
  rw [Array.getElem?_append_right (Nat.le_add_right ..), Nat.add_sub_cancel_left]

/-- A rule that was not there before is the copy of a rule. -/
theorem exists_of_contains_joined (h : (g.joined other).contains id') (hnew : ¬ g.contains id') :
    ∃ id rule, other.rule? id = some rule ∧ g.isCopied rule ∧
      (g.mergeReport other).mapped id = id' := by
  rw [contains_iff, size_joined] at h
  rw [contains_iff, Nat.not_lt] at hnew
  have hadded : (g.mergeReport other).added = (other.rules.toList.filter g.isCopied).length := by
    rw [← List.countP_eq_length_filter, Array.countP_toList]
    rfl
  obtain ⟨rule, hrule⟩ : ∃ rule, (other.rules.toList.filter g.isCopied)[id'.index - g.size]? =
      some rule := ⟨_, List.getElem?_eq_getElem (by omega)⟩
  have hcopied : g.isCopied rule := List.of_mem_filter (List.mem_of_getElem? hrule)
  obtain ⟨index, hindex, hcount⟩ := exists_of_getElem?_filter hrule
  have hfound : other.rule? ⟨index⟩ = some rule := by simpa [rule?] using hindex
  refine ⟨⟨index⟩, rule, hfound, hcopied, ?_⟩
  rw [mapped_of_isCopied hfound hcopied, hcount]
  exact Element.code_injective (show g.size + (id'.index - g.size) = id'.index by omega)

/-- Two rules that are copied do not go to the same place. -/
theorem mapped_injOn {id₁ id₂ : RuleId} {rule₁ rule₂ : Rule α} (h₁ : other.rule? id₁ = some rule₁)
    (h₂ : other.rule? id₂ = some rule₂) (hcopied₁ : g.isCopied rule₁) (hcopied₂ : g.isCopied rule₂)
    (h : (g.mergeReport other).mapped id₁ = (g.mergeReport other).mapped id₂) : id₁ = id₂ := by
  rw [mapped_of_isCopied h₁ hcopied₁, mapped_of_isCopied h₂ hcopied₂, RuleId.mk.injEq] at h
  have hlist₁ : other.rules.toList[id₁.index]? = some rule₁ := by simpa [rule?] using h₁
  have hlist₂ : other.rules.toList[id₂.index]? = some rule₂ := by simpa [rule?] using h₂
  rcases Nat.lt_trichotomy id₁.index id₂.index with hlt | heq | hgt
  · have := countP_take_lt hlist₁ hcopied₁ hlt
    omega
  · exact Element.code_injective heq
  · have := countP_take_lt hlist₂ hcopied₂ hgt
    omega

/-! ## Names after a merge -/

/-- Filtering the rules with a name that passes, and keeping the names, is filtering the names. -/
theorem filterMap_name_filter {p : String → Bool} {keep : Rule α → Bool}
    (hkeep : ∀ rule name, rule.name = some name → keep rule = p name) (rules : List (Rule α)) :
    (rules.filter keep).filterMap (·.name) = (rules.filterMap (·.name)).filter p := by
  rw [List.filterMap_filter, List.filter_filterMap]
  refine List.filterMap_congr fun rule _ => ?_
  cases hname : rule.name with
  | none => simp
  | some name => rw [hkeep rule name hname, Option.filter_some]

/-- The names after a merge: those there were, then those that were not taken. -/
theorem names_merge (g other : Graph α) :
    (g.merge other).2.names = g.names ++ other.names.filter (· ∉ g.names) := by
  have hcopied (rule : Rule α) (name : String) (hname : rule.name = some name) :
      g.isCopied rule = decide (name ∉ g.names) := by
    rw [Bool.eq_iff_iff, isCopied_iff, decide_eq_true_iff]
    simp [hname]
  rw [merge_eq, names_link, names_joined, names_eq other]
  exact congrArg _ (filterMap_name_filter hcopied other.rules.toList)

/-- The names that are reported as taken. -/
theorem shadowed_mergeReport (g other : Graph α) :
    (g.mergeReport other).shadowed = other.names.filter (· ∈ g.names) := by
  rw [names_eq other, List.filter_filterMap]
  refine List.filterMap_congr fun rule _ => ?_
  cases rule.name with
  | none => rfl
  | some name =>
      have hsame : g.hasName name = decide (name ∈ g.names) := by
        rw [Bool.eq_iff_iff, hasName_iff, decide_eq_true_iff]
      rw [Option.filter_some, Option.filter_some, hsame]

theorem idOf?_merge_left (hg : g.WellFormed) (hother : other.WellFormed)
    (h : g.idOf? name = some id) : (g.merge other).2.idOf? name = some id := by
  obtain ⟨rule, hrule, hname⟩ := nameOf?_eq_some_iff.mp (nameOf?_of_idOf? h)
  rw [merge_eq, idOf?_link, idOf?_eq_some_iff (hg.joined hother).distinct]
  exact nameOf?_eq_some_iff.mpr ⟨rule, rule?_joined_left hrule, hname⟩

theorem idOf?_merge_mapped (hg : g.WellFormed) (hother : other.WellFormed)
    (h : other.idOf? name = some id) :
    (g.merge other).2.idOf? name = some ((g.mergeReport other).mapped id) := by
  obtain ⟨rule, hrule, hname⟩ := nameOf?_eq_some_iff.mp (nameOf?_of_idOf? h)
  cases hshadow : g.shadow? rule with
  | some shadow =>
      rw [mapped_of_shadow? hrule hshadow]
      rw [shadow?, hname, Option.bind_some] at hshadow
      exact idOf?_merge_left hg hother hshadow
  | none =>
      have hcopied : g.isCopied rule := Option.isNone_iff_eq_none.mpr hshadow
      rw [merge_eq, idOf?_link, idOf?_eq_some_iff (hg.joined hother).distinct]
      exact nameOf?_eq_some_iff.mpr ⟨_, rule?_joined_mapped hrule hcopied, hname⟩

/-- Each rule of a merge is one of the graph merged into, or one of the merged graph with what it
refers to moved along; and it has been looked up in the result. -/
theorem exists_of_mem_rules_merge (h : rule ∈ (g.merge other).2.rules) :
    (∃ origin ∈ g.rules, rule = (g.merge other).2.linkRule origin) ∨
      ∃ origin ∈ other.rules,
        rule = (g.merge other).2.linkRule (origin.mapSubs (g.mergeReport other).mapped) := by
  rw [merge_eq] at h ⊢
  obtain ⟨joint, hjoint, rfl⟩ := Array.mem_map.mp h
  simp only [linkRule_link]
  rcases Array.mem_append.mp hjoint with hjoint | hjoint
  · exact .inl ⟨joint, hjoint, rfl⟩
  · obtain ⟨origin, horigin, rfl⟩ := Array.mem_map.mp hjoint
    exact .inr ⟨origin, (Array.mem_filter.mp horigin).1, rfl⟩

/-! ## Following places -/

/-- The rules of `g`, apart from those whose name is not `kept`, are found in `g'` at the places that
`place` tells, with what they refer to moved along and looked up there; and a name leads to the
place of the rule it led to. -/
structure Carries (place : RuleId → RuleId) (kept : String → Prop) (g g' : Graph α) : Prop where
  named : ∀ name id, g.idOf? name = some id → g'.idOf? name = some (place id)
  copied : ∀ id rule, g.rule? id = some rule → (∀ name ∈ rule.name, kept name) →
    g'.link.rule? (place id) = some (g'.linkRule (rule.mapSubs place))

theorem Carries.refl (g : Graph α) (kept : String → Prop) : Carries (fun one => one) kept g g where
  named _ _ h := h
  copied id rule hrule _ := by
    rw [rule?_link, hrule, Rule.mapSubs_id]
    rfl

/-- Places can be followed through a graph in between, as long as the second step keeps the names
that the first one does. -/
theorem Carries.trans {place place' : RuleId → RuleId} {kept kept' : String → Prop}
    (h : Carries place kept g g') (h' : Carries place' kept' g' g'')
    (hkept : ∀ name, kept name → kept' name) : Carries (place' ∘ place) kept g g'' where
  named name id hid := h'.named name _ (h.named name id hid)
  copied id rule hrule hname := by
    have hfirst := h.copied id rule hrule hname
    rw [rule?_link] at hfirst
    obtain ⟨rule', hrule', hsame⟩ := Option.map_eq_some_iff.mp hfirst
    -- Linking does not touch a name, so what is kept by the second step is known from the first.
    have hname' : rule'.name = rule.name := by
      rw [← name_linkRule g' rule', hsame, name_linkRule, Rule.name_mapSubs]
    have hsecond := h'.copied _ rule' hrule' fun name hmem =>
      hkept name (hname name (hname' ▸ hmem))
    rw [Function.comp_apply, hsecond]
    refine congrArg some ?_
    -- Linking in between makes no difference, since whatever it resolves stays resolved.
    calc g''.linkRule (rule'.mapSubs place')
        = g''.linkRule ((g'.linkRule rule').mapSubs place') :=
          (linkRule_mapSubs_linkRule h'.named rule').symm
      _ = g''.linkRule ((rule.mapSubs place).mapSubs place') := by
          rw [hsame, linkRule_mapSubs_linkRule h'.named]
      _ = g''.linkRule (rule.mapSubs (place' ∘ place)) := by rw [Rule.mapSubs_mapSubs]

theorem carries_merge (hg : g.WellFormed) (hother : other.WellFormed) (kept : String → Prop) :
    Carries (fun one => one) kept g (g.merge other).2 where
  named _ _ h := idOf?_merge_left hg hother h
  copied id rule hrule _ := by
    rw [merge_eq, link_link, rule?_link, rule?_joined_left hrule, Option.map_some,
      linkRule_link, Rule.mapSubs_id]

theorem carries_merge_mapped (hg : g.WellFormed) (hother : other.WellFormed) :
    Carries (g.mergeReport other).mapped (· ∉ g.names) other (g.merge other).2 where
  named _ _ h := idOf?_merge_mapped hg hother h
  copied id rule hrule hname := by
    rw [merge_eq, link_link, rule?_link, rule?_joined_mapped hrule (isCopied_iff.mpr hname),
      Option.map_some, linkRule_link]

end Graph

end RuleScript
