import RuleScript.Proofs.Graph.Merging
import RuleScript.Proofs.Match.Embedding

/-!
# Matches in a merged graph

A graph without pending references is embedded in every graph it is merged into something or something
is merged into, as long as no name of its rules is taken.  So merging changes nothing about what its
rules match (`Graph.WellFormed.merge_preserves`).

Only pending references stand in the way: they may find the rule they ask for in the other graph.
-/

namespace RuleScript

namespace Graph

variable {α : Type} {g other : Graph α}

/-- No reference is pending. -/
def Linked (g : Graph α) : Prop := ∀ rule ∈ g.rules, rule.kind.pending? = none

instance (g : Graph α) : Decidable g.Linked :=
  inferInstanceAs (Decidable (∀ rule ∈ g.rules, rule.kind.pending? = none))

theorem Linked.linkRule (h : other.Linked) {id : RuleId} {rule : Rule α}
    (hrule : other.rule? id = some rule) (f : RuleId → RuleId) (g : Graph α) :
    g.linkRule (rule.mapSubs f) = rule.mapSubs f := by
  have hpending := h rule (Array.mem_of_getElem? hrule)
  refine linkRule_of_pending?_eq_none g ?_
  rw [Rule.mapSubs]
  cases hkind : rule.kind with
  | reference target subject =>
      rw [hkind] at hpending
      cases subject with
      | none => cases hpending
      | some subject => rfl
  | _ => rfl

theorem embeds_merge (h : g.Linked) (other : Graph α) :
    Embeds (fun id => id) g (g.merge other).2 where
  rule id rule hrule := by
    rw [merge_eq, rule?_link, rule?_joined_left hrule, Option.map_some, Rule.mapSubs_id,
      linkRule_of_pending?_eq_none _ (h rule (Array.mem_of_getElem? hrule))]
  injOn _ _ _ _ hsame := hsame

theorem isCopied_of_disjoint (h : ∀ name ∈ other.names, name ∉ g.names) {id : RuleId}
    {rule : Rule α} (hrule : other.rule? id = some rule) : g.isCopied rule :=
  isCopied_iff.mpr fun name hname =>
    h name (mem_names_iff.mpr ⟨id, nameOf?_eq_some_iff.mpr ⟨rule, hrule, hname⟩⟩)

/-- The graph that is merged has its rules where the merge says, if no name is taken. -/
theorem embeds_merge_mapped (hother : other.Linked) (h : ∀ name ∈ other.names, name ∉ g.names) :
    Embeds (g.mergeReport other).mapped other (g.merge other).2 where
  rule id rule hrule := by
    rw [merge_eq, rule?_link, rule?_joined_mapped hrule (isCopied_of_disjoint h hrule),
      Option.map_some, hother.linkRule hrule]
  injOn id id' hid hid' hsame := by
    obtain ⟨rule, hrule⟩ := exists_rule?_of_contains hid
    obtain ⟨rule', hrule'⟩ := exists_rule?_of_contains hid'
    exact mapped_injOn hrule hrule' (isCopied_of_disjoint h hrule) (isCopied_of_disjoint h hrule')
      hsame

/-! ## What a merge comes to -/

/-- What there is to say about the rules and names of `merged`, if it is what merging `other` into `g`
comes to and `report` tells about it. -/
structure MergesTo (g other : Graph α) (report : MergeReport) (merged : Graph α) : Prop where
  /-- Every rule of `other` can be found. -/
  found : ∀ id, other.contains id →
    ∃ id', report.mapped? id = some id' ∧ merged.contains id'
  /-- The names that both graphs have, in the order of the ids of `other`. -/
  shadowed : report.shadowed = other.names.filter (· ∈ g.names)
  /-- Where a name was taken, the rule that had it stands for the other. -/
  taken : ∀ id name, other.nameOf? id = some name → name ∈ g.names →
    report.mapped? id = g.idOf? name
  /-- Every other rule is copied, with all it refers to moved along. -/
  copied : ∀ id rule, other.rule? id = some rule → (∀ name ∈ rule.name, name ∉ g.names) →
    merged.rule? (report.mapped id) = some (merged.linkRule (rule.mapSubs report.mapped))
  /-- There are no rules but the old ones and those copied, each of which is copied once. -/
  once : ∀ id', merged.contains id' → ¬ g.contains id' →
    ∃! id, other.contains id ∧ (∀ name ∈ other.nameOf? id, name ∉ g.names) ∧
      report.mapped? id = some id'
  /-- The place of a copy was free. -/
  fresh : ∀ id, other.contains id → (∀ name ∈ other.nameOf? id, name ∉ g.names) →
    ¬ g.contains (report.mapped id)
  kept : ∀ id rule, g.rule? id = some rule → merged.rule? id = some (merged.linkRule rule)
  names : merged.names = g.names ++ other.names.filter (· ∉ g.names)

theorem isCopied_of_nameOf? {id : RuleId} {rule : Rule α} (hrule : other.rule? id = some rule)
    (h : ∀ name ∈ other.nameOf? id, name ∉ g.names) : g.isCopied rule := by
  refine isCopied_iff.mpr fun name hname => h name ?_
  exact nameOf?_eq_some_iff.mpr ⟨rule, hrule, hname⟩

theorem mapped?_eq_some_mapped {id : RuleId} (h : other.contains id) :
    (g.mergeReport other).mapped? id = some ((g.mergeReport other).mapped id) := by
  obtain ⟨rule, hrule⟩ := exists_rule?_of_contains h
  rw [MergeReport.mapped, mapped?_eq hrule, Option.getD_some]

theorem mergesTo_merge (g other : Graph α) :
    MergesTo g other (g.mergeReport other) (g.merge other).2 where
  found id hid := by
    refine ⟨_, mapped?_eq_some_mapped hid, ?_⟩
    rw [merge_eq, contains_iff, size_link, ← contains_iff]
    exact contains_joined_of_mapped hid
  shadowed := shadowed_mergeReport g other
  taken id name hid hname := by
    obtain ⟨rule, hrule, hrulename⟩ := nameOf?_eq_some_iff.mp hid
    obtain ⟨id', hid'⟩ := Option.isSome_iff_exists.mp (hasName_iff.mpr hname)
    have hshadow : g.shadow? rule = some id' := by rw [shadow?, hrulename, Option.bind_some, hid']
    rw [mapped?_eq hrule, hshadow, hid', Option.getD_some]
  copied id rule hrule hname := by
    rw [merge_eq, rule?_link, rule?_joined_mapped hrule (isCopied_iff.mpr hname), Option.map_some,
      linkRule_link]
  -- Of every copy there is one original: two that are copied have different places.
  once id' hid' hnew := by
    rw [merge_eq, contains_iff, size_link, ← contains_iff] at hid'
    obtain ⟨id, rule, hrule, hcopied, hmapped⟩ := exists_of_contains_joined hid' hnew
    have hname : ∀ name ∈ other.nameOf? id, name ∉ g.names := by
      intro name hid
      obtain ⟨rule', hrule', hrulename⟩ := nameOf?_eq_some_iff.mp hid
      cases hrule.symm.trans hrule'
      exact isCopied_iff.mp hcopied name hrulename
    refine ⟨id, ⟨contains_of_rule? hrule, hname, ?_⟩, ?_⟩
    · rw [mapped?_eq_some_mapped (contains_of_rule? hrule), hmapped]
    · rintro id₂ ⟨hid₂, hname₂, hmapped₂⟩
      obtain ⟨rule₂, hrule₂⟩ := exists_rule?_of_contains hid₂
      rw [mapped?_eq_some_mapped hid₂, Option.some.injEq] at hmapped₂
      exact mapped_injOn hrule₂ hrule (isCopied_of_nameOf? hrule₂ hname₂) hcopied
        (hmapped₂.trans hmapped.symm)
  fresh id hid hname := by
    obtain ⟨rule, hrule⟩ := exists_rule?_of_contains hid
    rw [mapped_of_isCopied hrule (isCopied_of_nameOf? hrule hname), contains_iff]
    exact Nat.not_lt.mpr (Nat.le_add_right ..)
  kept id rule hrule := by
    rw [merge_eq, rule?_link, rule?_joined_left hrule, Option.map_some, linkRule_link]
  names := names_merge g other

end Graph

/-! ## What matches come to -/

/-- The second run misses elements at the same positions as the first, whatever the two record. -/
def Run.Comparison.sameMisses : Run.Comparison where
  traces trace trace' := trace'.farthest = trace.farthest
  aborts := Eq
  excuses _ := False

namespace Graph

variable {α : Type} [Element α] {f : RuleId → RuleId} {g g' other : Graph α} {one : RuleId}

/-- A match of a rule comes to the same where its graph is embedded, but for the names of ids, and
misses elements no farther on. -/
theorem Embeds.matchAt (h : Embeds f g g') (hg : g.WellFormed) (hone : g.contains one)
    (input : Array α) (limit start : Nat) :
    (g'.matchAt input limit (f one) start).1 =
        (g.matchAt input limit one start).1.map (·.renamed f) ∧
      (g'.matchAt input limit (f one) start).2.farthest =
        (g.matchAt input limit one start).2.farthest := by
  -- Events name rules by label, which may change, so only the farthest miss is compared.
  have hrecords (event event' : Event) : Run.Comparison.sameMisses.Records event event' :=
    fun _ _ htrace => htrace
  have hmisses (pos : Nat) : Run.Comparison.sameMisses.Misses pos pos := fun _ _ htrace =>
    congrArg (max · pos) htrace
  have hsetting : (Correspondence.embedding .sameMisses f g).Setting g g' input input :=
    .unrecorded rfl hrecords hmisses fun _ => rfl
  have hagree := Correspondence.runWithin_agree_of_aborts (h.graphs hg hsetting) limit limit
    (fun _ => rfl) limit one (f one) ⟨hone, rfl⟩ start
  have hrenamed (outcome outcome' : Outcome)
      (houtcome : (Correspondence.embedding .sameMisses f g).Outcomes outcome outcome') :
      outcome.renamed f = id outcome' := by
    cases houtcome with
    | failure => rfl
    | success len hfound => exact congrArg _ hfound.2.symm
  have hstart : Run.Comparison.sameMisses.traces {} {} := rfl
  obtain ⟨hresult, htrace⟩ :=
    hagree.map_result_eq hstart (fun _ _ hcause => hcause) (fun _ _ h => h) hrenamed
  rw [Except.map_id] at hresult
  exact ⟨hresult, htrace⟩

/-- Where a graph is embedded under the same ids, matches of a rule agree in all that they leave. -/
theorem Embeds.agree_exact (h : Embeds (fun id => id) g g') (hg : g.WellFormed) (hone : g.contains one)
    (input : Array α) (limit start : Nat) :
    (Correspondence.embedding .exact (fun id => id) g).Agree (g.run input limit one start)
      (g'.run input limit one start) := by
  have hlabel : ∀ id id', (Correspondence.embedding .exact (fun id => id) g).ids id id' →
      g'.label id' = g.label id := by
    rintro id _ ⟨hid, rfl⟩
    obtain ⟨rule, hrule, hrule'⟩ := h.exists_rule hid
    rw [label, label, hrule, hrule', Rule.mapSubs_id]
  have hsetting : (Correspondence.embedding .exact (fun id => id) g).Setting g g' input input := by
    refine .inPlace (fun _ _ hid => hid.2) rfl hlabel ?_ ?_ fun _ => rfl
    · rintro event trace _ rfl
      rfl
    · rintro pos trace _ rfl
      rfl
  exact Correspondence.runWithin_agree_of_aborts (h.graphs hg hsetting) limit limit (fun _ => rfl) limit
    one one ⟨hone, rfl⟩ start

/-- Where a graph is embedded under the same ids, a match of a rule is the same to the last detail. -/
theorem Embeds.matchAt_eq (h : Embeds (fun id => id) g g') (hg : g.WellFormed) (hone : g.contains one)
    (input : Array α) (limit start : Nat) :
    g'.matchAt input limit one start = g.matchAt input limit one start := by
  have hagree := h.agree_exact hg hone input limit start
  have hsame (outcome outcome' : Outcome)
      (houtcome : (Correspondence.embedding .exact (fun id => id) g).Outcomes outcome outcome') :
      id outcome = id outcome' := by
    cases houtcome with
    | failure => rfl
    | success len hfound => rw [hfound.2, Node.forestRenamed_self]
  have hstart : Run.Comparison.exact.traces {} {} := rfl
  obtain ⟨hresult, htrace⟩ := hagree.map_result_eq hstart
    (fun _ _ hcause => hcause) (fun _ _ h => h) hsame
  rw [Except.map_id] at hresult
  exact Prod.ext hresult htrace.symm

/-- **Merging preserves both graphs.**  Every rule of the second graph has its place in the result,
one that was there before if its name was taken and else a copy of its own.  If nothing is pending in
the first graph, its rules match as before.  If nothing is pending in the second and no name was
taken, its rules match as before at their places, with their ids in the trees changed to the new
ones. -/
theorem WellFormed.merge_preserves (hg : g.WellFormed) (hother : other.WellFormed) :
    MergesTo g other (g.merge other).1 (g.merge other).2 ∧
      (g.Linked → ∀ id, g.contains id → ∀ (input : Array α) (limit start : Nat),
        (g.merge other).2.matchAt input limit id start = g.matchAt input limit id start) ∧
      (other.Linked → (∀ name ∈ other.names, name ∉ g.names) →
        ∀ id, other.contains id → ∀ (input : Array α) (limit start : Nat),
          ((g.merge other).2.matchAt input limit ((g.merge other).1.mapped id) start).1 =
              (other.matchAt input limit id start).1.map (·.renamed (g.merge other).1.mapped) ∧
            ((g.merge other).2.matchAt input limit ((g.merge other).1.mapped id) start).2.farthest =
              (other.matchAt input limit id start).2.farthest) := by
  refine ⟨mergesTo_merge g other, fun hlinked id hid => ?_, fun hlinked hdisjoint id hid => ?_⟩
  · exact (embeds_merge hlinked other).matchAt_eq hg hid
  · exact (embeds_merge_mapped hlinked hdisjoint).matchAt hother hid

/-- Digits, and numbers made of them. -/
def digits : Graph Char where
  rules := #[.named "digit" (.ofKind (.range '0' '9')), .named "number" (.ofKind (.count ⟨0⟩ 1 0))]
  root := some ⟨1⟩

/-- Sums of ones. -/
def sumsOfOnes : Graph Char where
  rules := #[.ofKind (.single '1'), .named "plus" (.ofKind (.single '+')),
    .ofKind (.reference "plus" (some ⟨1⟩)), .ofKind (.sequence [⟨0⟩, ⟨2⟩, ⟨0⟩]),
    .named "sum" (.ofKind (.evaluation [⟨3⟩]))]
  root := some ⟨4⟩

theorem digits_wellFormed : digits.WellFormed where
  distinct := by decide +kernel
  edges := by decide +kernel
  root := by decide +kernel

theorem sumsOfOnes_wellFormed : sumsOfOnes.WellFormed where
  distinct := by decide +kernel
  edges := by decide +kernel
  root := by decide +kernel

/-- Sums of ones are put behind the digits; both match as before. -/
theorem digits_sumsOfOnes_merge_preserves :
    digits.WellFormed ∧ sumsOfOnes.WellFormed ∧ digits.Linked ∧ sumsOfOnes.Linked ∧
      MergesTo digits sumsOfOnes (digits.merge sumsOfOnes).1 (digits.merge sumsOfOnes).2 ∧
      (digits.merge sumsOfOnes).2.matchAt #['1', '1'] 2 ⟨1⟩ 0 =
        digits.matchAt #['1', '1'] 2 ⟨1⟩ 0 ∧
      (digits.merge sumsOfOnes).1.mapped ⟨4⟩ = ⟨6⟩ ∧
      (sumsOfOnes.matchAt #['1', '+', '1'] 3 ⟨4⟩ 0).1 =
        .ok (.success 3 [⟨⟨3⟩, ⟨0, 3⟩, [.leaf ⟨0⟩ ⟨0, 1⟩, .leaf ⟨1⟩ ⟨1, 1⟩, .leaf ⟨0⟩ ⟨2, 1⟩]⟩]) ∧
      ((digits.merge sumsOfOnes).2.matchAt #['1', '+', '1'] 3 ⟨6⟩ 0).1 =
        .ok (.success 3 [⟨⟨5⟩, ⟨0, 3⟩, [.leaf ⟨2⟩ ⟨0, 1⟩, .leaf ⟨3⟩ ⟨1, 1⟩, .leaf ⟨2⟩ ⟨2, 1⟩]⟩]) := by
  obtain ⟨hmerges, hkept, hcopied⟩ := digits_wellFormed.merge_preserves sumsOfOnes_wellFormed
  have hdigits : digits.Linked := by decide +kernel
  have hsums : sumsOfOnes.Linked := by decide +kernel
  have hmapped : (digits.merge sumsOfOnes).1.mapped ⟨4⟩ = ⟨6⟩ := by decide +kernel
  have hmatch : (sumsOfOnes.matchAt #['1', '+', '1'] 3 ⟨4⟩ 0).1 =
      .ok (.success 3 [⟨⟨3⟩, ⟨0, 3⟩, [.leaf ⟨0⟩ ⟨0, 1⟩, .leaf ⟨1⟩ ⟨1, 1⟩, .leaf ⟨0⟩ ⟨2, 1⟩]⟩]) := by
    decide +kernel
  have hmerged := (hcopied hsums (by decide +kernel) ⟨4⟩ rfl #['1', '+', '1'] 3 0).1
  rw [hmapped, hmatch] at hmerged
  exact ⟨digits_wellFormed, sumsOfOnes_wellFormed, hdigits, hsums, hmerges,
    hkept hdigits ⟨1⟩ rfl #['1', '1'] 2 0, hmapped, hmatch, hmerged.trans (by decide +kernel)⟩

end Graph

end RuleScript
