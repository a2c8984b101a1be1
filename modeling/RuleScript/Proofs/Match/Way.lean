import Mathlib.Data.Finset.Card
import Mathlib.Data.Finset.Range
import RuleScript.Match.Alternative
import RuleScript.Proofs.Graph.Reachability

/-!
# Where references and breakpoints lead

References and breakpoints lead from each rule to one rule at most.  So there is one way on from a
rule (`Graph.way`), and what lies on it at all lies on it within as many steps as there are rules: a
way that goes on from a rule twice goes in circles, and can be cut short
(`Graph.exists_le_size_of_way`).

Both searches along a way have one step more than that, so any further steps change nothing
(`Graph.leadsWithin_of_size_lt`, `Graph.operatorFrom?_of_size_lt`).
-/

namespace RuleScript

theorem Kind.mem_subs_of_subject? {α : Type} {kind : Kind α} {next : RuleId}
    (h : kind.subject? = some next) : next ∈ kind.subs := by
  cases kind with
  | breakpoint sub =>
      rw [subject?, Option.some.injEq] at h
      exact List.mem_singleton.mpr h.symm
  | reference target subject => exact Option.mem_toList.mpr h
  | _ => cases h

namespace Graph

variable {α : Type} {g : Graph α} {current target : RuleId} {steps : Nat}

/-- The rule that a reference or a breakpoint stands for; none for other rules. -/
def subject? (g : Graph α) (id : RuleId) : Option RuleId := (g.kind? id).bind (·.subject?)

/-- The rule that is so many steps away, if references and breakpoints lead that far. -/
def way (g : Graph α) : (steps : Nat) → (current : RuleId) → Option RuleId
  | 0, current => some current
  | steps + 1, current => (g.subject? current).bind (g.way steps)

theorem mem_subs_of_subject? {id next : RuleId} (h : g.subject? id = some next) :
    next ∈ g.subs id := by
  obtain ⟨kind, hkind, hnext⟩ := Option.bind_eq_some_iff.mp h
  obtain ⟨rule, hrule, rfl⟩ := Option.map_eq_some_iff.mp hkind
  rw [subs, hrule]
  exact Kind.mem_subs_of_subject? hnext

theorem contains_of_subject? {id next : RuleId} (h : g.subject? id = some next) : g.contains id := by
  obtain ⟨kind, hkind, -⟩ := Option.bind_eq_some_iff.mp h
  obtain ⟨rule, hrule, -⟩ := Option.map_eq_some_iff.mp hkind
  exact contains_of_rule? hrule

theorem way_add (first second : Nat) (current : RuleId) :
    g.way (first + second) current = (g.way first current).bind (g.way second) := by
  induction first generalizing current with
  | zero =>
      rw [Nat.zero_add]
      rfl
  | succ first ih =>
      rw [Nat.succ_add, way, way, Option.bind_assoc]
      exact congrArg _ (funext ih)

/-- What a way goes on from is a rule. -/
theorem exists_visited_of_way (h : g.way steps current = some target) {step : Nat}
    (hstep : step < steps) : ∃ id, g.way step current = some id ∧ g.contains id := by
  obtain ⟨more, rfl⟩ := Nat.exists_eq_add_of_lt hstep
  rw [Nat.add_assoc, way_add] at h
  obtain ⟨id, hid, hrest⟩ := Option.bind_eq_some_iff.mp h
  obtain ⟨next, hnext, -⟩ := Option.bind_eq_some_iff.mp hrest
  exact ⟨id, hid, contains_of_subject? hnext⟩

/-- What lies on a way lies on it after no more steps than there are rules. -/
theorem exists_le_size_of_way (h : g.way steps current = some target) :
    ∃ few, few ≤ g.size ∧ few ≤ steps ∧ g.way few current = some target := by
  induction steps using Nat.strong_induction_on with
  | h steps ih =>
      by_cases hfew : steps ≤ g.size
      · exact ⟨steps, hfew, le_rfl, h⟩
      -- The way goes on from more rules than there are, so from one of them twice.
      have hmaps : Set.MapsTo (fun step => ((g.way step current).getD target).index)
          (Finset.range steps) (Finset.range g.size) := by
        intro step hstep
        rw [Finset.coe_range, Set.mem_Iio] at hstep
        obtain ⟨id, hid, hcontains⟩ := exists_visited_of_way h hstep
        simp only [Finset.coe_range, Set.mem_Iio, hid, Option.getD_some]
        exact contains_iff.mp hcontains
      have hcard : (Finset.range g.size).card < (Finset.range steps).card := by
        rw [Finset.card_range, Finset.card_range]
        omega
      obtain ⟨first, hfirst, second, hsecond, hne, hsame⟩ :=
        Finset.exists_ne_map_eq_of_card_lt_of_maps_to hcard hmaps
      wlog hlt : first < second generalizing first second
      · exact this second hsecond first hfirst hne.symm hsame.symm (by omega)
      rw [Finset.mem_range] at hfirst hsecond
      obtain ⟨id, hid, -⟩ := exists_visited_of_way h hfirst
      obtain ⟨id', hid', -⟩ := exists_visited_of_way h hsecond
      simp only [hid, hid', Option.getD_some] at hsame
      obtain rfl : id = id' := Element.code_injective hsame
      -- The circle between the two visits is left out.
      have hcut : g.way (first + (steps - second)) current = some target := by
        rw [way_add, hid, ← hid', ← way_add, Nat.add_sub_cancel' (by omega), h]
      obtain ⟨few, hsize, hle, hway⟩ := ih (first + (steps - second)) (by omega) hcut
      exact ⟨few, hsize, by omega, hway⟩

/-! ## Whether a way leads to a rule -/

theorem leadsWithin_succ : g.leadsWithin target (steps + 1) current =
    (current = target || (g.subject? current).any (g.leadsWithin target steps)) := by
  rw [leadsWithin, subject?]
  cases (g.kind? current).bind (·.subject?) <;> rfl

theorem leadsWithin_iff :
    g.leadsWithin target steps current ↔ ∃ few < steps, g.way few current = some target := by
  induction steps generalizing current with
  | zero => simp [leadsWithin]
  | succ steps ih =>
      rw [leadsWithin_succ, Bool.or_eq_true, decide_eq_true_iff, Option.any_eq_true]
      constructor
      · rintro (rfl | ⟨next, hnext, hleads⟩)
        · exact ⟨0, Nat.succ_pos _, rfl⟩
        · obtain ⟨few, hfew, hway⟩ := ih.mp hleads
          exact ⟨few + 1, Nat.succ_lt_succ hfew, by rw [way, hnext, Option.bind_some, hway]⟩
      · rintro ⟨few, hfew, hway⟩
        cases few with
        | zero => exact .inl (Option.some.inj hway)
        | succ few =>
            obtain ⟨next, hnext, hrest⟩ := Option.bind_eq_some_iff.mp hway
            exact .inr ⟨next, hnext, ih.mpr ⟨few, Nat.lt_of_succ_lt_succ hfew, hrest⟩⟩

theorem leadsWithin_of_size_lt (hsteps : g.size < steps) :
    g.leadsWithin target steps current = g.leadsTo current target := by
  rw [leadsTo, Bool.eq_iff_iff, leadsWithin_iff, leadsWithin_iff]
  constructor
  · rintro ⟨_, -, hway⟩
    obtain ⟨few, hfew, -, hway⟩ := exists_le_size_of_way hway
    exact ⟨few, Nat.lt_succ_of_le hfew, hway⟩
  · rintro ⟨few, hfew, hway⟩
    exact ⟨few, by omega, hway⟩

theorem leadsTo_iff : g.leadsTo current target ↔ ∃ steps, g.way steps current = some target := by
  rw [leadsTo, leadsWithin_iff]
  constructor
  · rintro ⟨steps, -, hway⟩
    exact ⟨steps, hway⟩
  · rintro ⟨steps, hway⟩
    obtain ⟨few, hfew, -, hway⟩ := exists_le_size_of_way hway
    exact ⟨few, Nat.lt_succ_of_le hfew, hway⟩

/-! ## The operator that a way ends at -/

/-- The identity of a way that has come to `current`, if it had the given one before. -/
def identityAt (g : Graph α) (identity : Option RuleId) (current : RuleId) : Option RuleId :=
  identity.or (if g.isNamed current then some current else none)

/-- The operator of a sequence of three rules, if the way that ends there has the given identity. -/
def operatorAt? (g : Graph α) (identity : Option RuleId) (current : RuleId) :
    Option BinaryOperator :=
  match g.kind? current with
  | some (.sequence [left, operator, right]) =>
    some (g.operatorOf (identity.getD current) left operator right)
  | _ => none

theorem operatorFrom?_of_subject? {next : RuleId} (h : g.subject? current = some next)
    (steps : Nat) (identity : Option RuleId) :
    g.operatorFrom? (steps + 1) identity current =
      g.operatorFrom? steps (g.identityAt identity current) next := by
  obtain ⟨kind, hkind, hnext⟩ := Option.bind_eq_some_iff.mp h
  cases kind with
  | breakpoint sub =>
      cases hnext
      rw [operatorFrom?, hkind, identityAt]
  | reference name subject =>
      cases hnext
      rw [operatorFrom?, hkind, identityAt]
  | _ => cases hnext

theorem operatorFrom?_of_subject?_eq_none (h : g.subject? current = none) (steps : Nat)
    (identity : Option RuleId) :
    g.operatorFrom? (steps + 1) identity current =
      g.operatorAt? (g.identityAt identity current) current := by
  rw [operatorFrom?, operatorAt?, identityAt]
  split
  · rename_i name next hkind
    simp [subject?, hkind, Kind.subject?] at h
  · rename_i next hkind
    simp [subject?, hkind, Kind.subject?] at h
  · rename_i left operator right hkind
    rw [hkind]
  · rename_i hother
    split
    · rename_i left operator right hkind
      exact (hother left operator right hkind).elim
    · rfl

/-- The identity of a way is a rule of the graph. -/
theorem contains_of_mem_identityAt {identity : Option RuleId}
    (hidentity : ∀ one ∈ identity, g.contains one) (hcurrent : g.contains current) :
    ∀ one ∈ g.identityAt identity current, g.contains one := by
  intro one hone
  rcases Option.or_eq_some_iff.mp hone with hone | ⟨-, hone⟩
  · exact hidentity one hone
  · split at hone
    · cases hone
      exact hcurrent
    · cases hone

theorem contains_getD {identity : Option RuleId} (hidentity : ∀ one ∈ identity, g.contains one)
    (hcurrent : g.contains current) : g.contains (identity.getD current) := by
  cases identity with
  | none => exact hcurrent
  | some one => exact hidentity one rfl

/-- A way that comes to an operator ends there, with any number of steps left. -/
theorem operatorFrom?_of_way {few : Nat} {identity : Option RuleId} {left operator right : RuleId}
    (hway : g.way few current = some target)
    (htarget : g.kind? target = some (.sequence [left, operator, right])) (hfew : few < steps) :
    g.operatorFrom? steps identity current = g.operatorFrom? (few + 1) identity current := by
  induction few generalizing current identity steps with
  | zero =>
      cases hway
      obtain ⟨steps, rfl⟩ := Nat.exists_eq_succ_of_ne_zero (Nat.ne_zero_of_lt hfew)
      rw [operatorFrom?, operatorFrom?, htarget]
  | succ few ih =>
      obtain ⟨steps, rfl⟩ := Nat.exists_eq_succ_of_ne_zero (Nat.ne_zero_of_lt hfew)
      obtain ⟨next, hnext, hrest⟩ := Option.bind_eq_some_iff.mp hway
      rw [operatorFrom?_of_subject? hnext, operatorFrom?_of_subject? hnext]
      exact ih hrest (Nat.lt_of_succ_lt_succ hfew)

theorem exists_way_of_operatorFrom? {identity : Option RuleId} {operator : BinaryOperator}
    (h : g.operatorFrom? steps identity current = some operator) :
    ∃ few target left symbol right, few < steps ∧ g.way few current = some target ∧
      g.kind? target = some (.sequence [left, symbol, right]) := by
  induction steps generalizing identity current with
  | zero => cases h
  | succ steps ih =>
      cases hnext : g.subject? current with
      | some next =>
          rw [operatorFrom?_of_subject? hnext] at h
          obtain ⟨few, target, left, symbol, right, hfew, hway, htarget⟩ := ih h
          refine ⟨few + 1, target, left, symbol, right, Nat.succ_lt_succ hfew, ?_, htarget⟩
          rw [way, hnext, Option.bind_some, hway]
      | none =>
          rw [operatorFrom?_of_subject?_eq_none hnext, operatorAt?] at h
          split at h
          · rename_i left symbol right hkind
            exact ⟨0, current, left, symbol, right, Nat.succ_pos _, rfl, hkind⟩
          · cases h

/-- An operator that is found at all is found within as many steps as there are rules and one more,
as with any higher number of steps. -/
theorem operatorFrom?_of_eq_some {enough : Nat} {identity : Option RuleId} {operator : BinaryOperator}
    (h : g.operatorFrom? enough identity current = some operator) (hsteps : g.size < steps) :
    g.operatorFrom? steps identity current = some operator := by
  obtain ⟨many, target, left, symbol, right, hmany, hway, htarget⟩ := exists_way_of_operatorFrom? h
  obtain ⟨few, hfew, hle, hway⟩ := exists_le_size_of_way hway
  calc g.operatorFrom? steps identity current
      = g.operatorFrom? (few + 1) identity current := operatorFrom?_of_way hway htarget (by omega)
    _ = g.operatorFrom? enough identity current :=
        (operatorFrom?_of_way hway htarget (by omega)).symm
    _ = some operator := h

theorem operatorFrom?_of_size_lt (hsteps : g.size < steps) (identity : Option RuleId) :
    g.operatorFrom? steps identity current = g.operatorFrom? (g.size + 1) identity current := by
  cases hmore : g.operatorFrom? steps identity current with
  | some operator => exact (operatorFrom?_of_eq_some hmore (Nat.lt_succ_self _)).symm
  | none =>
      cases hless : g.operatorFrom? (g.size + 1) identity current with
      | none => rfl
      | some operator => rw [← hmore, operatorFrom?_of_eq_some hless hsteps]

theorem WellFormed.contains_operandRule (hg : g.WellFormed) (hcurrent : g.contains current) :
    g.contains (g.classify current).operandRule := by
  rw [classify]
  split
  · rename_i operator hoperator
    exact hg.contains_of_reaches hcurrent (reaches_of_operatorFrom? hoperator).1
  · exact hcurrent

end Graph

end RuleScript
