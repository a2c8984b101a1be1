import RuleScript.Match.Session
import RuleScript.Proofs.Run

/-!
# What goes through nested matches

A matcher goes through all the matches inside of a rule, one after the other, with its depth and its
trace.  The rules are combined in the same way whether a bare trace is handed on or a whole matcher, so
the two can be compared combination by combination (`Session.Mirrors`): at a given depth a matcher does to
its trace what is done to a bare one, and is at that depth again in the end, aborted or not.

What is shown of the matches inside is needed at their own depth, one further down; it is a matter of
`Graph.enter` alone that the way down and the way up cancel out (`Graph.enter_mirrors`).
-/

namespace RuleScript

/-! ## Step by step -/

namespace Session

variable {β γ : Type} {depth : Nat}

/-- From matchers at a depth, a computation does to the trace what a run does to it, and it leaves the
matcher at that depth. -/
def Mirrors (depth : Nat) (session : Session β) (run : Run β) : Prop :=
  ∀ trace, session.result ⟨depth, trace⟩ =
    ((run.result trace).1, ⟨depth, (run.result trace).2⟩)

namespace Mirrors

protected theorem pure (value : β) : Mirrors depth (pure value) (pure value) := fun _ => rfl

protected theorem throw (cause : Abort) : Mirrors (β := β) depth (throw cause) (throw cause) :=
  fun _ => rfl

protected theorem record (event : Event) :
    Mirrors depth (Traced.record event) (Traced.record event) := fun _ => rfl

protected theorem miss (pos : Nat) : Mirrors depth (Traced.miss pos) (Traced.miss pos) := fun _ => rfl

/-- The next step starts at the depth that the one before it left, which is where that one started. -/
theorem bind {session : Session β} {run : Run β} {next : β → Session γ} {next' : β → Run γ}
    (h : session.Mirrors depth run) (hnext : ∀ value, (next value).Mirrors depth (next' value)) :
    (session >>= next).Mirrors depth (run >>= next') := by
  intro trace
  have hfirst := h trace
  unfold result at hfirst ⊢
  rcases hrun : run.result trace with ⟨cause | value, after⟩
  · rw [Run.result_bind_error hrun]
    rw [hrun] at hfirst
    simp only [ExceptT.run_bind, StateT.run_bind, hfirst]
    rfl
  · rw [Run.result_bind_ok hrun, ← hnext value after]
    rw [hrun] at hfirst
    simp only [ExceptT.run_bind, StateT.run_bind, hfirst]
    rfl

theorem map {session : Session β} {run : Run β} (f : β → γ) (h : session.Mirrors depth run) :
    (f <$> session).Mirrors depth (f <$> run) := by
  rw [map_eq_pure_bind, map_eq_pure_bind]
  exact h.bind fun value => .pure (f value)

end Mirrors

end Session

/-! ## Combination by combination -/

namespace Match

variable {sub : RuleId → Nat → Session Outcome} {sub' : RuleId → Nat → Run Outcome} {depth : Nat}
variable {start : Nat}

section Combinations

variable (hsub : ∀ id pos, (sub id pos).Mirrors depth (sub' id pos))
include hsub

theorem inSequence_mirrors (ids : List RuleId) (len : Nat) (nodes : Array Node) :
    (inSequence sub start ids len nodes).Mirrors depth (inSequence sub' start ids len nodes) := by
  induction ids generalizing len nodes with
  | nil => exact .pure _
  | cons id ids ih =>
      refine (hsub id (start + len)).bind fun outcome => ?_
      cases outcome with
      | failure => exact .pure _
      | success more found => exact ih _ _

theorem firstOf_mirrors (ids : List RuleId) :
    (firstOf sub start ids).Mirrors depth (firstOf sub' start ids) := by
  induction ids with
  | nil => exact .pure _
  | cons id ids ih =>
      refine (hsub id start).bind fun outcome => ?_
      cases outcome with
      | failure => exact ih
      | success len nodes => exact .pure _

theorem repetition_mirrors {label : String} {id : RuleId} {min max : Nat}
    {again : Nat → Nat → Array Node → Session Outcome} {again' : Nat → Nat → Array Node → Run Outcome}
    (hagain : ∀ reps len nodes, (again reps len nodes).Mirrors depth (again' reps len nodes))
    (reps len : Nat) (nodes : Array Node) :
    (repetition sub label id min max start again reps len nodes).Mirrors depth
      (repetition sub' label id min max start again' reps len nodes) := by
  rw [repetition, repetition]
  split
  · exact .pure _
  · refine (hsub id (start + len)).bind fun outcome => ?_
    cases outcome with
    | failure => exact .pure _
    | success more found =>
        cases more with
        | zero =>
            -- A match of nothing ends the repetition; without a bound there is a record of it.
            show Session.Mirrors depth (if max = 0 then _ else _) (if max = 0 then _ else _)
            split
            · exact (Session.Mirrors.record _).bind fun _ => .pure _
            · exact .pure _
        | succ more => exact hagain _ _ _

theorem repeated_mirrors {label : String} {id : RuleId} {min max : Nat} (room reps len : Nat)
    (nodes : Array Node) :
    (repeated sub label id min max start room reps len nodes).Mirrors depth
      (repeated sub' label id min max start room reps len nodes) := by
  induction room generalizing reps len nodes with
  | zero => exact repetition_mirrors hsub (fun _ _ _ => .pure _) reps len nodes
  | succ room ih => exact repetition_mirrors hsub ih reps len nodes

theorem stopOr_mirrors {stop : RuleId} {stopBefore : Bool} {passed : Nat} {beyond : Session Outcome}
    {beyond' : Run Outcome} (hbeyond : beyond.Mirrors depth beyond') :
    (stopOr sub stop stopBefore start passed beyond).Mirrors depth
      (stopOr sub' stop stopBefore start passed beyond') := by
  refine (hsub stop (start + passed)).bind fun outcome => ?_
  cases outcome with
  | failure => exact hbeyond
  | success len nodes => exact .pure _

theorem skipTo_mirrors {stop : RuleId} {stopBefore failOnEnd : Bool} (room passed : Nat) :
    (skipTo sub stop stopBefore failOnEnd start room passed).Mirrors depth
      (skipTo sub' stop stopBefore failOnEnd start room passed) := by
  induction room generalizing passed with
  | zero => exact stopOr_mirrors hsub (.pure _)
  | succ room ih => exact stopOr_mirrors hsub (ih (passed + 1))

end Combinations

section Chains

variable {form : ChainForm} (hsub : ∀ id pos, (sub id pos).Mirrors depth (sub' id pos))
include hsub

theorem rightOperand_mirrors (operator : BinaryOperator) (pos : Nat) :
    (rightOperand sub form operator pos).Mirrors depth (rightOperand sub' form operator pos) := by
  rw [rightOperand, rightOperand]
  split
  · exact firstOf_mirrors hsub _
  · exact hsub _ _

theorem nextLink_mirrors (operators : List BinaryOperator) :
    (nextLink sub form start operators).Mirrors depth (nextLink sub' form start operators) := by
  induction operators with
  | nil => exact .pure _
  | cons operator rest ih =>
      refine (hsub operator.operator start).bind fun outcome => ?_
      cases outcome with
      | failure => exact ih
      | success len nodes =>
          refine (rightOperand_mirrors hsub operator (start + len)).bind fun right => ?_
          cases right with
          | failure => exact ih
          | success len' nodes' =>
              dsimp only
              split
              · exact ih
              · exact .pure _

theorem extend_mirrors (room pos : Nat) (links : Array Link) :
    (extend sub form room pos links).Mirrors depth (extend sub' form room pos links) := by
  induction room generalizing pos links with
  | zero =>
      rw [extend, extend]
      refine (nextLink_mirrors hsub form.operators).bind fun link => ?_
      cases link <;> exact .pure _
  | succ room ih =>
      rw [extend, extend]
      refine (nextLink_mirrors hsub form.operators).bind fun link => ?_
      cases link with
      | none => exact .pure _
      | some link => exact ih _ _

theorem chain_mirrors {α : Type} (g : Graph α) (size : Nat) :
    (chain sub form g size start).Mirrors depth (chain sub' form g size start) := by
  refine (firstOf_mirrors hsub form.operands).bind fun outcome => ?_
  cases outcome with
  | failure => exact .pure _
  | success len nodes =>
      exact (extend_mirrors hsub (size - start) (start + len) #[]).bind fun _ => .pure _

end Chains

section Rules

variable {α : Type} {g : Graph α} {input : Array α} {id : RuleId}

theorem element_mirrors (test : α → Bool) :
    (element input id test start : Session Outcome).Mirrors depth (element input id test start) := by
  rw [element, element]
  split
  · exact .pure _
  · exact .miss _

theorem anyOf_mirrors (min max : Nat) :
    (anyOf input id min max start : Session Outcome).Mirrors depth (anyOf input id min max start) := by
  simp only [anyOf]
  split
  · exact .miss _
  · exact .pure _

theorem entryOver_mirrors (severity : Severity) (message : String) (guarded : Outcome) :
    (entryOver g id severity message start guarded : Session Outcome).Mirrors depth
      (entryOver g id severity message start guarded) := by
  cases guarded with
  | failure => exact .pure _
  | success len nodes =>
      simp only [entryOver]
      split
      · exact .throw _
      · exact (Session.Mirrors.record _).bind fun _ => .pure _

variable [Element α]

theorem allOf_mirrors (values : List α) :
    (allOf input id values start : Session Outcome).Mirrors depth (allOf input id values start) := by
  simp only [allOf]
  split
  · exact .pure _
  · exact .miss _

variable (hsub : ∀ id pos, (sub id pos).Mirrors depth (sub' id pos))
include hsub

theorem kind_mirrors (k : Kind α) :
    (kind g input sub id k start).Mirrors depth (kind g input sub' id k start) := by
  cases k with
  | any min max => exact anyOf_mirrors min max
  | single value => exact element_mirrors _
  | set values => exact element_mirrors _
  | range lo hi => exact element_mirrors _
  | literal values => exact allOf_mirrors values
  | sequence subs => exact (inSequence_mirrors hsub subs 0 #[]).map _
  | oneOf subs => exact (firstOf_mirrors hsub subs).map _
  | count one min max => exact (repeated_mirrors hsub _ 0 0 #[]).map _
  | not one =>
      refine (hsub one start).bind fun outcome => ?_
      cases outcome <;> exact .pure _
  | condition one =>
      refine (hsub one start).bind fun outcome => ?_
      cases outcome <;> exact .pure _
  | skip stop stopBefore failOnEnd => exact (skipTo_mirrors hsub _ 0).map _
  | log severity message guard =>
      cases guard with
      | none => exact entryOver_mirrors severity message (.success 0 [])
      | some guard => exact (hsub guard start).bind (entryOver_mirrors severity message)
  | breakpoint subject =>
      refine (Session.Mirrors.record _).bind fun _ => (hsub subject start).bind fun outcome => ?_
      exact (Session.Mirrors.record _).bind fun _ => .pure outcome
  | evaluation alternatives => exact chain_mirrors hsub g input.size
  | reference target subject? =>
      cases subject? with
      | none => exact .throw _
      | some subject => exact hsub subject start

theorem rule_mirrors (rule : Rule α) :
    (Match.rule g input sub id rule start).Mirrors depth (Match.rule g input sub' id rule start) :=
  (kind_mirrors hsub rule.kind).map _

end Rules

end Match

/-! ## Down and up again -/

namespace Graph

variable {α : Type} [Element α] {g : Graph α} {input : Array α} {limit depth : Nat}
variable {inside : RuleId → Nat → Session Outcome}

/-- Matching a rule by a matcher is matching it with the levels that the depth leaves, if that is so of
the rules inside, one level further down. -/
theorem enter_mirrors (hinside : depth < limit → ∀ id start,
      (inside id start).Mirrors (depth + 1) (g.runWithin input limit (limit - (depth + 1)) id start))
    (id : RuleId) (start : Nat) :
    (g.enter input limit inside id start).Mirrors depth
      (g.runWithin input limit (limit - depth) id start) := by
  intro trace
  cases hrule : g.rule? id with
  | none =>
      rw [runWithin_unknown hrule]
      simp only [enter, hrule]
      rfl
  | some rule =>
      simp only [enter, hrule]
      -- A level is left exactly if the depth is below the limit.
      by_cases hroom : depth < limit
      · have hlevels : limit - depth = limit - (depth + 1) + 1 := by omega
        have hrun : (Match.rule g input inside id rule start).Mirrors (depth + 1)
            (Match.rule g input (g.runWithin input limit (limit - (depth + 1))) id rule start) :=
          Match.rule_mirrors (hinside hroom) rule
        rw [hlevels, runWithin_succ hrule]
        show (ite (depth < limit) _ _ : Except Abort Outcome × Matcher) = _
        rw [if_pos hroom]
        -- The rule runs one level down, and the level is given back however it ends.
        simp only [Matcher.deeper, hrun trace, Matcher.shallower, Nat.add_sub_cancel]
      · have hlevels : limit - depth = 0 := by omega
        rw [hlevels, runWithin_zero hrule]
        show (ite (depth < limit) _ _ : Except Abort Outcome × Matcher) = _
        rw [if_neg hroom]
        rfl

end Graph

end RuleScript
