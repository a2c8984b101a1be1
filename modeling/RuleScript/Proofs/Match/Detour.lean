import RuleScript.Proofs.Graph.Redirecting
import RuleScript.Proofs.Match.Way

/-!
# Ways through a breakpoint

An evaluation looks where its alternatives lead, along references and breakpoints.  A breakpoint that
is new in between makes such a way longer and changes nothing else about it: what lay on the way still
does (`Graph.WellFormed.leadsTo_withBreakpoint`), and since a breakpoint has no name it is never taken
for the identity of an operator.  So an alternative contributes what it did before
(`Graph.WellFormed.classify_withBreakpoint`), and the chains of an evaluation are made of the same
rules, or of the breakpoint where it is on one of them.

The searches along ways are bounded by the number of rules, and the graph has one rule more now; that
any higher bound finds the same is in `RuleScript.Proofs.Match.Way`.
-/

namespace RuleScript

/-! ## Ways with a detour -/

/-- The same operator over other rules. -/
def BinaryOperator.rewired (f : RuleId → RuleId) (operator : BinaryOperator) : BinaryOperator :=
  { operator with
    left := f operator.left
    operator := f operator.operator
    right := f operator.right }

/-- What an alternative contributes, over other rules. -/
def Alternative.rewired (f : RuleId → RuleId) : Alternative → Alternative
  | binary operator => binary (operator.rewired f)
  | operand id => operand (f id)

namespace Graph

variable {α : Type} {g : Graph α} {target id : RuleId}

theorem subject?_withBreakpoint (h : g.contains id) :
    (g.withBreakpoint target).subject? id = (g.subject? id).map (g.watched target) := by
  rw [subject?, subject?, kind?_withBreakpoint h]
  cases g.kind? id with
  | none => rfl
  | some kind => cases kind <;> rfl

theorem subject?_withBreakpoint_new (g : Graph α) (target : RuleId) :
    (g.withBreakpoint target).subject? ⟨g.size⟩ = some target := by
  rw [subject?, kind?_withBreakpoint_new]
  rfl

theorem isNamed_withBreakpoint (h : g.contains id) :
    (g.withBreakpoint target).isNamed id = g.isNamed id := by
  rw [isNamed, isNamed, nameOf?_withBreakpoint h]

theorem isNamed_withBreakpoint_new (g : Graph α) (target : RuleId) :
    (g.withBreakpoint target).isNamed ⟨g.size⟩ = false := by
  rw [isNamed, nameOf?, rule?_withBreakpoint_new]
  rfl

theorem isLog_withBreakpoint (g : Graph α) (target : RuleId) :
    (g.withBreakpoint target).isLog = g.isLog := by
  funext id
  by_cases hid : g.contains id
  · obtain ⟨rule, hrule⟩ := exists_rule?_of_contains hid
    rw [isLog_of_kind? (kind?_eq_some (rule?_withBreakpoint hrule target)),
      isLog_of_kind? (kind?_eq_some hrule), Rule.mapSubs]
    cases rule.kind <;> rfl
  · -- The new rule is no log rule, and neither is one that is not there.
    have hold : g.isLog id = false := by rw [isLog, rule?_eq_none hid]
    by_cases hnew : id = ⟨g.size⟩
    · rw [hold, hnew, isLog_of_kind? (kind?_withBreakpoint_new g target)]
      rfl
    · have hnone := not_contains_withBreakpoint hid hnew target
      rw [hold, isLog, rule?_eq_none hnone]

theorem exists_way_of_subject? {next goal : RuleId} (h : g.subject? id = some next)
    (hnext : ∃ steps, g.way steps next = some goal) : ∃ steps, g.way steps id = some goal := by
  obtain ⟨steps, hway⟩ := hnext
  exact ⟨steps + 1, by rw [way, h, Option.bind_some, hway]⟩

/-- From any rule there is a way to the old rule that it stands for. -/
theorem exists_way_of_unwatched {goal : RuleId} (h : (g.withBreakpoint target).contains id)
    (hway : ∃ steps, (g.withBreakpoint target).way steps (g.unwatched target id) = some goal) :
    ∃ steps, (g.withBreakpoint target).way steps id = some goal := by
  rcases contains_withBreakpoint_iff.mp h with hid | rfl
  · rwa [unwatched_of_contains hid] at hway
  · rw [unwatched_new] at hway
    exact exists_way_of_subject? (subject?_withBreakpoint_new g target) hway

/-- A breakpoint in between leads nobody astray. -/
theorem WellFormed.exists_way_withBreakpoint_iff (hg : g.WellFormed) (htarget : g.contains target)
    (h : (g.withBreakpoint target).contains id) {goal : RuleId} (hgoal : g.contains goal) :
    (∃ steps, (g.withBreakpoint target).way steps id = some goal) ↔
      ∃ steps, g.way steps (g.unwatched target id) = some goal := by
  constructor
  · rintro ⟨steps, hway⟩
    induction steps generalizing id with
    | zero =>
        cases hway
        exact ⟨0, by rw [unwatched_of_contains hgoal, way]⟩
    | succ steps ih =>
        obtain ⟨next, hnext, hrest⟩ := Option.bind_eq_some_iff.mp hway
        -- A step of the way is one that the graph had before, or leads from the breakpoint to its
        -- target.
        rcases contains_withBreakpoint_iff.mp h with hid | rfl
        · rw [subject?_withBreakpoint hid] at hnext
          obtain ⟨old, hold, rfl⟩ := Option.map_eq_some_iff.mp hnext
          have hcontains := hg.contains_of_mem_subs (mem_subs_of_subject? hold)
          have hmore := ih (contains_watched hcontains) hrest
          rw [unwatched_watched hcontains] at hmore
          rw [unwatched_of_contains hid]
          exact exists_way_of_subject? hold hmore
        · rw [subject?_withBreakpoint_new] at hnext
          cases hnext
          have hmore := ih (contains_withBreakpoint_iff.mpr (.inl htarget)) hrest
          rw [unwatched_of_contains htarget] at hmore
          rwa [unwatched_new]
  · rintro ⟨steps, hway⟩
    induction steps generalizing id with
    | zero =>
        refine exists_way_of_unwatched h ⟨0, ?_⟩
        rw [way]
        exact hway
    | succ steps ih =>
        obtain ⟨next, hnext, hrest⟩ := Option.bind_eq_some_iff.mp hway
        have hcontains := hg.contains_of_mem_subs (mem_subs_of_subject? hnext)
        have hmore := ih (contains_watched hcontains) (by rwa [unwatched_watched hcontains])
        refine exists_way_of_unwatched h (exists_way_of_subject? ?_ hmore)
        rw [subject?_withBreakpoint (contains_unwatched htarget h), hnext, Option.map_some]

theorem WellFormed.leadsTo_withBreakpoint (hg : g.WellFormed) (htarget : g.contains target)
    {goal : RuleId} (hid : g.contains id) (hgoal : g.contains goal) :
    (g.withBreakpoint target).leadsTo (g.watched target id) goal = g.leadsTo id goal := by
  rw [Bool.eq_iff_iff, leadsTo_iff, leadsTo_iff,
    hg.exists_way_withBreakpoint_iff htarget (contains_watched hid) hgoal, unwatched_watched hid]

/-! ## Operators -/

theorem identityAt_withBreakpoint (identity : Option RuleId) (hid : g.contains id) :
    (g.withBreakpoint target).identityAt identity id = g.identityAt identity id := by
  rw [identityAt, identityAt, isNamed_withBreakpoint hid]

theorem identityAt_withBreakpoint_new (g : Graph α) (target : RuleId) (identity : Option RuleId) :
    (g.withBreakpoint target).identityAt identity ⟨g.size⟩ = identity := by
  simp [identityAt, isNamed_withBreakpoint_new]

theorem operatorOf_withBreakpoint {identity : RuleId} (h : g.contains identity)
    (left operator right : RuleId) :
    (g.withBreakpoint target).operatorOf identity (g.watched target left)
        (g.watched target operator) (g.watched target right) =
      (g.operatorOf identity left operator right).rewired (g.watched target) := by
  obtain ⟨rule, hrule⟩ := exists_rule?_of_contains h
  simp only [operatorOf, rule?_withBreakpoint hrule, hrule]
  rfl

theorem operatorAt?_withBreakpoint {identity : Option RuleId}
    (hidentity : ∀ one ∈ identity, g.contains one) (hid : g.contains id) :
    (g.withBreakpoint target).operatorAt? identity id =
      (g.operatorAt? identity id).map (·.rewired (g.watched target)) := by
  have hchosen := contains_getD hidentity hid
  rw [operatorAt?, operatorAt?, kind?_withBreakpoint hid]
  cases g.kind? id with
  | none => rfl
  | some kind =>
      cases kind with
      | sequence subs =>
          rcases subs with _ | ⟨left, _ | ⟨operator, _ | ⟨right, _ | ⟨more, rest⟩⟩⟩⟩
          case cons.cons.cons.nil => exact congrArg some (operatorOf_withBreakpoint hchosen ..)
          all_goals rfl
      | _ => rfl

/-- What is found from the old rule that a rule stands for is found from the rule itself. -/
theorem exists_operatorFrom?_of_unwatched {identity : Option RuleId} {operator : BinaryOperator}
    (h : (g.withBreakpoint target).contains id)
    (hfound : ∃ steps, (g.withBreakpoint target).operatorFrom? steps identity
      (g.unwatched target id) = some operator) :
    ∃ steps, (g.withBreakpoint target).operatorFrom? steps identity id = some operator := by
  rcases contains_withBreakpoint_iff.mp h with hid | rfl
  · rwa [unwatched_of_contains hid] at hfound
  · rw [unwatched_new] at hfound
    obtain ⟨steps, hfound⟩ := hfound
    refine ⟨steps + 1, ?_⟩
    rw [operatorFrom?_of_subject? (subject?_withBreakpoint_new g target),
      identityAt_withBreakpoint_new, hfound]

theorem WellFormed.exists_operatorFrom?_withBreakpoint (hg : g.WellFormed)
    (htarget : g.contains target) {steps : Nat} {identity : Option RuleId}
    {operator : BinaryOperator} (hidentity : ∀ one ∈ identity, g.contains one)
    (h : (g.withBreakpoint target).contains id)
    (hfound : g.operatorFrom? steps identity (g.unwatched target id) = some operator) :
    ∃ more, (g.withBreakpoint target).operatorFrom? more identity id =
      some (operator.rewired (g.watched target)) := by
  induction steps generalizing identity id with
  | zero => cases hfound
  | succ steps ih =>
      have hold := contains_unwatched htarget h
      refine exists_operatorFrom?_of_unwatched h ?_
      -- The search goes on at the subject of a wrapper, and reads its operator off any other rule.
      cases hnext : g.subject? (g.unwatched target id) with
      | some next =>
          rw [operatorFrom?_of_subject? hnext] at hfound
          have hcontains := hg.contains_of_mem_subs (mem_subs_of_subject? hnext)
          have hsame : g.unwatched target (g.watched target next) = next :=
            unwatched_watched hcontains
          rw [← hsame] at hfound
          obtain ⟨more, hmore⟩ := ih (contains_of_mem_identityAt hidentity hold)
            (contains_watched hcontains) hfound
          have hstep : (g.withBreakpoint target).subject? (g.unwatched target id) =
              some (g.watched target next) := by
            rw [subject?_withBreakpoint hold, hnext, Option.map_some]
          refine ⟨more + 1, ?_⟩
          rw [operatorFrom?_of_subject? hstep, identityAt_withBreakpoint identity hold, hmore]
      | none =>
          rw [operatorFrom?_of_subject?_eq_none hnext] at hfound
          have hstop : (g.withBreakpoint target).subject? (g.unwatched target id) = none := by
            rw [subject?_withBreakpoint hold, hnext, Option.map_none]
          refine ⟨1, ?_⟩
          rw [operatorFrom?_of_subject?_eq_none hstop, identityAt_withBreakpoint identity hold,
            operatorAt?_withBreakpoint (contains_of_mem_identityAt hidentity hold) hold, hfound,
            Option.map_some]

theorem WellFormed.exists_operatorFrom?_of_withBreakpoint (hg : g.WellFormed)
    (htarget : g.contains target) {steps : Nat} {identity : Option RuleId}
    {operator : BinaryOperator} (hidentity : ∀ one ∈ identity, g.contains one)
    (h : (g.withBreakpoint target).contains id)
    (hfound : (g.withBreakpoint target).operatorFrom? steps identity id = some operator) :
    ∃ more old, g.operatorFrom? more identity (g.unwatched target id) = some old := by
  induction steps generalizing identity id with
  | zero => cases hfound
  | succ steps ih =>
      rcases contains_withBreakpoint_iff.mp h with hid | rfl
      · rw [unwatched_of_contains hid]
        cases hnext : g.subject? id with
        | some next =>
            have hstep : (g.withBreakpoint target).subject? id = some (g.watched target next) := by
              rw [subject?_withBreakpoint hid, hnext, Option.map_some]
            rw [operatorFrom?_of_subject? hstep, identityAt_withBreakpoint identity hid] at hfound
            have hcontains := hg.contains_of_mem_subs (mem_subs_of_subject? hnext)
            obtain ⟨more, old, hmore⟩ := ih (contains_of_mem_identityAt hidentity hid)
              (contains_watched hcontains) hfound
            rw [unwatched_watched hcontains] at hmore
            exact ⟨more + 1, old, by rw [operatorFrom?_of_subject? hnext, hmore]⟩
        | none =>
            have hstop : (g.withBreakpoint target).subject? id = none := by
              rw [subject?_withBreakpoint hid, hnext, Option.map_none]
            rw [operatorFrom?_of_subject?_eq_none hstop, identityAt_withBreakpoint identity hid,
              operatorAt?_withBreakpoint (contains_of_mem_identityAt hidentity hid) hid] at hfound
            obtain ⟨old, hold, -⟩ := Option.map_eq_some_iff.mp hfound
            exact ⟨1, old, by rw [operatorFrom?_of_subject?_eq_none hnext, hold]⟩
      · -- From the new breakpoint the search goes on at the target.
        rw [operatorFrom?_of_subject? (subject?_withBreakpoint_new g target),
          identityAt_withBreakpoint_new] at hfound
        have hmore := ih hidentity (contains_withBreakpoint_iff.mpr (.inl htarget)) hfound
        rw [unwatched_of_contains htarget] at hmore
        rwa [unwatched_new]

/-- An alternative contributes the same as before, over the same rules or breakpoints on them. -/
theorem WellFormed.classify_withBreakpoint (hg : g.WellFormed) (htarget : g.contains target)
    (hid : g.contains id) :
    (g.withBreakpoint target).classify (g.watched target id) =
      (g.classify id).rewired (g.watched target) := by
  have hnobody : ∀ one ∈ (none : Option RuleId), g.contains one := fun _ hone => nomatch hone
  have hwatched : (g.withBreakpoint target).contains (g.watched target id) := contains_watched hid
  rw [classify, classify]
  cases hold : g.operatorFrom? (g.size + 1) none id with
  | some operator =>
      have hfound := hg.exists_operatorFrom?_withBreakpoint htarget hnobody hwatched
        (by rw [unwatched_watched hid, hold])
      -- The search need not take as many steps as the size allows for; more do not change what it
      -- finds.
      obtain ⟨more, hmore⟩ := hfound
      rw [operatorFrom?_of_eq_some hmore (Nat.lt_succ_self _)]
      rfl
  | none =>
      cases hnew : (g.withBreakpoint target).operatorFrom? ((g.withBreakpoint target).size + 1) none
          (g.watched target id) with
      | none => rfl
      | some operator =>
          obtain ⟨more, old, hmore⟩ :=
            hg.exists_operatorFrom?_of_withBreakpoint htarget hnobody hwatched hnew
          rw [unwatched_watched hid] at hmore
          rw [operatorFrom?_of_eq_some hmore (Nat.lt_succ_self _)] at hold
          cases hold

/-! ## Operator chains -/

section Chains

open Match

variable {evaluation : RuleId} {alternatives : List RuleId}

theorem WellFormed.operands_withBreakpoint (hg : g.WellFormed) (htarget : g.contains target)
    (hevaluation : g.contains evaluation) (halternatives : ∀ one ∈ alternatives, g.contains one) :
    (ChainForm.ofEvaluation (g.withBreakpoint target) evaluation
        (alternatives.map (g.watched target))).operands =
      (ChainForm.ofEvaluation g evaluation alternatives).operands.map (g.watched target) := by
  have hmap : ((alternatives.map (g.watched target)).map (g.withBreakpoint target).classify).map
        (·.operandRule) =
      ((alternatives.map g.classify).map (·.operandRule)).map (g.watched target) := by
    simp only [List.map_map]
    refine List.map_congr_left fun one hone => ?_
    simp only [Function.comp_apply]
    rw [hg.classify_withBreakpoint htarget (halternatives one hone)]
    cases g.classify one <;> rfl
  simp only [ChainForm.ofEvaluation]
  rw [hmap, List.filter_map]
  -- An operand is left out if it leads back, which the breakpoint does not change.
  refine congrArg (List.map _) (List.filter_congr fun one hone => ?_)
  obtain ⟨_, halternative, rfl⟩ := List.mem_map.mp hone
  obtain ⟨alternative, hmem, rfl⟩ := List.mem_map.mp halternative
  have hcontains := hg.contains_operandRule (halternatives alternative hmem)
  rw [Function.comp_apply, hg.leadsTo_withBreakpoint htarget hcontains hevaluation]

theorem WellFormed.operators_withBreakpoint (hg : g.WellFormed) (htarget : g.contains target)
    (halternatives : ∀ one ∈ alternatives, g.contains one) :
    (ChainForm.ofEvaluation (g.withBreakpoint target) evaluation
        (alternatives.map (g.watched target))).operators =
      (ChainForm.ofEvaluation g evaluation alternatives).operators.map
        (·.rewired (g.watched target)) := by
  simp only [ChainForm.ofEvaluation, List.filterMap_map, List.map_filterMap]
  refine List.filterMap_congr fun one hone => ?_
  simp only [Function.comp_apply]
  rw [hg.classify_withBreakpoint htarget (halternatives one hone)]
  cases g.classify one <;> rfl

end Chains

end Graph

end RuleScript
