import RuleScript.Proofs.Match.Way

/-!
# Trails of references and breakpoints

A trail lists the rules that resolved references and breakpoints lead over, the first and the last
included (`Graph.Trail`).  It may go round in circles.  The searches along a way count their steps
instead of remembering where they were, but their count is high enough for every trail: what any trail
leads to they find (`Graph.searches_complete`).

What a search for an operator comes to can be read off the trail it goes along
(`Graph.Trail.operatorFrom?_eq`).  Trails to the same operator that go round a different number of
times show the same, as a higher number of steps changes nothing.
-/

namespace RuleScript.Graph

variable {α : Type} {g : Graph α} {id start goal left operator right : RuleId}
variable {trail : List RuleId}

/-- References that are resolved and breakpoints lead along a list of rules from `start` to `goal`. -/
inductive Trail (g : Graph α) : List RuleId → RuleId → RuleId → Prop
  | stay (goal : RuleId) : Trail g [goal] goal goal
  | step {trail : List RuleId} {start next goal : RuleId} (hnext : g.subject? start = some next)
      (hrest : Trail g trail next goal) : Trail g (start :: trail) start goal

/-! ## Trails and steps -/

theorem Trail.exists_way (h : g.Trail trail start goal) :
    ∃ steps, g.way steps start = some goal := by
  induction h with
  | stay goal => exact ⟨0, rfl⟩
  | step hnext _ ih =>
      obtain ⟨steps, hway⟩ := ih
      exact ⟨steps + 1, by rw [way, hnext, Option.bind_some, hway]⟩

theorem exists_trail_of_way {steps : Nat} (h : g.way steps start = some goal) :
    ∃ trail, g.Trail trail start goal := by
  induction steps generalizing start with
  | zero =>
      cases h
      exact ⟨_, .stay _⟩
  | succ steps ih =>
      obtain ⟨next, hnext, hrest⟩ := Option.bind_eq_some_iff.mp h
      obtain ⟨trail, htrail⟩ := ih hrest
      exact ⟨_, .step hnext htrail⟩

theorem leadsTo_iff_trail : g.leadsTo id goal ↔ ∃ trail, g.Trail trail id goal := by
  rw [leadsTo_iff]
  constructor
  · rintro ⟨steps, hway⟩
    exact exists_trail_of_way hway
  · rintro ⟨trail, htrail⟩
    exact htrail.exists_way

/-! ## The operator at the end of a trail -/

/-- The first named rule on a trail, if the trail goes on from a way with the given identity. -/
theorem identityAt_or_find? (identity : Option RuleId) (start : RuleId) (trail : List RuleId) :
    (g.identityAt identity start).or (trail.find? g.isNamed) =
      identity.or ((start :: trail).find? g.isNamed) := by
  rw [identityAt, Option.or_assoc, List.find?_cons]
  cases g.isNamed start <;> rfl

/-- A search along a trail to a sequence of three comes to an operator whose identity is the first
named rule on the trail, or the sequence itself. -/
theorem Trail.operatorFrom?_eq (h : g.Trail trail start goal)
    (hgoal : g.kind? goal = some (.sequence [left, operator, right])) (identity : Option RuleId) :
    g.operatorFrom? trail.length identity start =
      some (g.operatorOf ((identity.or (trail.find? g.isNamed)).getD goal) left operator right) := by
  induction h generalizing identity with
  | stay goal =>
      have hstop : g.subject? goal = none := by
        rw [subject?, hgoal]
        rfl
      -- The last rule is the one with three parts.
      calc g.operatorFrom? 1 identity goal
          = g.operatorAt? (g.identityAt identity goal) goal :=
            operatorFrom?_of_subject?_eq_none hstop 0 identity
        _ = some (g.operatorOf ((g.identityAt identity goal).getD goal) left operator right) := by
            rw [operatorAt?, hgoal]
        _ = some (g.operatorOf ((identity.or ([goal].find? g.isNamed)).getD goal) left operator
              right) := by
            rw [← identityAt_or_find?, List.find?_nil, Option.or_none]
  | @step trail start next goal hnext _ ih =>
      -- Any other rule only contributes its name, if none was found before.
      calc g.operatorFrom? (trail.length + 1) identity start
          = g.operatorFrom? trail.length (g.identityAt identity start) next :=
            operatorFrom?_of_subject? hnext trail.length identity
        _ = some (g.operatorOf (((g.identityAt identity start).or (trail.find? g.isNamed)).getD goal)
              left operator right) := ih hgoal _
        _ = some (g.operatorOf ((identity.or ((start :: trail).find? g.isNamed)).getD goal) left
              operator right) := by
            rw [identityAt_or_find?]

/-- The first named rule on a trail is a rule, and so is the end of the trail. -/
theorem exists_identity_rule (trail : List RuleId) {kind : Kind α} (hgoal : g.kind? goal = some kind) :
    ∃ rule, g.rule? ((trail.find? g.isNamed).getD goal) = some rule := by
  cases hfound : trail.find? g.isNamed with
  | none =>
      obtain ⟨rule, hrule, -⟩ := Option.map_eq_some_iff.mp hgoal
      exact ⟨rule, hrule⟩
  | some one =>
      have hnamed : g.isNamed one := List.find?_some hfound
      obtain ⟨name, hname⟩ := Option.isSome_iff_exists.mp hnamed
      exact exists_rule?_of_contains (contains_of_nameOf? hname)

theorem operatorOf_eq {identity : RuleId} {rule : Rule α} (h : g.rule? identity = some rule) :
    g.operatorOf identity left operator right =
      ⟨identity, left, operator, right, rule.precedence, rule.pruning⟩ := by
  rw [operatorOf, h]
  rfl

theorem classify_eq_binary_iff {binary : BinaryOperator} :
    g.classify id = .binary binary ↔ g.operatorFrom? (g.size + 1) none id = some binary := by
  rw [classify]
  cases g.operatorFrom? (g.size + 1) none id <;> simp

/-- A trail leads to a sequence of three rules. -/
def LeadsToTriple (g : Graph α) (id : RuleId) : Prop :=
  ∃ trail goal left operator right, g.Trail trail id goal ∧
    g.kind? goal = some (.sequence [left, operator, right])

theorem leadsToTriple_of_operatorFrom? {steps : Nat} {identity : Option RuleId}
    {binary : BinaryOperator} (h : g.operatorFrom? steps identity id = some binary) :
    g.LeadsToTriple id := by
  obtain ⟨few, goal, left, operator, right, -, hway, hgoal⟩ := exists_way_of_operatorFrom? h
  obtain ⟨trail, htrail⟩ := exists_trail_of_way hway
  exact ⟨trail, goal, left, operator, right, htrail, hgoal⟩

/-- The operator at the end of a trail is found, however long the trail is. -/
theorem operatorFrom?_of_trail (h : g.Trail trail id goal)
    (hgoal : g.kind? goal = some (.sequence [left, operator, right])) :
    g.operatorFrom? (g.size + 1) none id =
      some (g.operatorOf ((trail.find? g.isNamed).getD goal) left operator right) :=
  operatorFrom?_of_eq_some (h.operatorFrom?_eq hgoal none) (Nat.lt_succ_self _)

theorem classify_eq_binary_iff_trail {binary : BinaryOperator} :
    g.classify id = .binary binary ↔
      ∃ trail goal left operator right identity rule, g.Trail trail id goal ∧
        g.kind? goal = some (.sequence [left, operator, right]) ∧
        identity = (trail.find? g.isNamed).getD goal ∧ g.rule? identity = some rule ∧
        binary = ⟨identity, left, operator, right, rule.precedence, rule.pruning⟩ := by
  rw [classify_eq_binary_iff]
  constructor
  · intro h
    obtain ⟨trail, goal, left, operator, right, htrail, hgoal⟩ := leadsToTriple_of_operatorFrom? h
    obtain ⟨rule, hrule⟩ := exists_identity_rule trail hgoal
    refine ⟨trail, goal, left, operator, right, _, rule, htrail, hgoal, rfl, hrule, ?_⟩
    rw [← operatorOf_eq hrule]
    exact Option.some.inj (h.symm.trans (operatorFrom?_of_trail htrail hgoal))
  · rintro ⟨trail, goal, left, operator, right, _, rule, htrail, hgoal, rfl, hrule, rfl⟩
    rw [operatorFrom?_of_trail htrail hgoal, operatorOf_eq hrule]

theorem classify_eq_operand_iff : g.classify id = .operand id ↔ ¬ g.LeadsToTriple id := by
  rw [classify]
  constructor
  · rintro h ⟨trail, goal, left, operator, right, htrail, hgoal⟩
    rw [operatorFrom?_of_trail htrail hgoal] at h
    cases h
  · intro hnone
    cases h : g.operatorFrom? (g.size + 1) none id with
    | none => rfl
    | some binary => exact (hnone (leadsToTriple_of_operatorFrom? h)).elim

/-- **The searches along references and breakpoints miss nothing.**  A rule leads to another just if
some trail does.  An alternative is binary just if some trail leads from it to a sequence of exactly
three rules: these are the operands and the operator, and the first named rule on the trail, or else
the sequence, is the identity, which gives precedence and pruning.  Any other alternative is an
operand. -/
theorem searches_complete (g : Graph α) (id : RuleId) :
    (∀ goal, g.leadsTo id goal ↔ ∃ trail, g.Trail trail id goal) ∧
    (∀ binary, g.classify id = .binary binary ↔
      ∃ trail goal left operator right identity rule, g.Trail trail id goal ∧
        g.kind? goal = some (.sequence [left, operator, right]) ∧
        identity = (trail.find? g.isNamed).getD goal ∧ g.rule? identity = some rule ∧
        binary = ⟨identity, left, operator, right, rule.precedence, rule.pruning⟩) ∧
    (g.classify id = .operand id ↔ ¬ g.LeadsToTriple id) :=
  ⟨fun _ => leadsTo_iff_trail, fun _ => classify_eq_binary_iff_trail, classify_eq_operand_iff⟩

/-- A sum is an operator that a reference and a breakpoint lead to; another reference leads to
itself. -/
def watchedSums : Graph Char where
  rules := #[
    .named "n" (.ofKind (.single 'n')),
    .ofKind (.single '+'),
    .ofKind (.sequence [⟨0⟩, ⟨1⟩, ⟨0⟩]),
    .ofKind (.breakpoint ⟨2⟩),
    .named "add" (.withPrecedence ⟨3, by decide, by decide⟩ (.ofKind (.reference "sum" (some ⟨3⟩)))),
    .ofKind (.reference "add" (some ⟨4⟩)),
    .named "loop" (.ofKind (.reference "loop" (some ⟨6⟩)))]
  root := some ⟨5⟩

theorem watchedSums_wellFormed : watchedSums.WellFormed where
  distinct := by decide +kernel
  edges := by decide +kernel
  root := by decide +kernel

/-- The first name on the trail is that of the reference in the middle. -/
theorem watchedSums_searches_complete :
    watchedSums.WellFormed ∧ watchedSums.contains ⟨5⟩ ∧ watchedSums.leadsTo ⟨5⟩ ⟨2⟩ ∧
      watchedSums.classify ⟨5⟩ =
        .binary ⟨⟨4⟩, ⟨0⟩, ⟨1⟩, ⟨0⟩, ⟨3, by decide, by decide⟩, .none⟩ := by
  have htrail : watchedSums.Trail [⟨5⟩, ⟨4⟩, ⟨3⟩, ⟨2⟩] ⟨5⟩ ⟨2⟩ := .step rfl (.step rfl (.step rfl (.stay _)))
  have hid : watchedSums.contains ⟨5⟩ := by decide
  obtain ⟨hleads, hbinary, -⟩ := searches_complete watchedSums ⟨5⟩
  exact ⟨watchedSums_wellFormed, hid, (hleads ⟨2⟩).mpr ⟨_, htrail⟩,
    (hbinary _).mpr ⟨_, ⟨2⟩, ⟨0⟩, ⟨1⟩, ⟨0⟩, ⟨4⟩, _, htrail, rfl, by decide +kernel, rfl, rfl⟩⟩

end RuleScript.Graph
