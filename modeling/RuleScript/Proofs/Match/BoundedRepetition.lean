import RuleScript.Proofs.Match.Derivation
import RuleScript.Proofs.Match.Termination

/-!
# Repetitions with a bound

A repetition with a bound stops at the first match that consumes nothing and takes the count for full.
`Match.repeatedInFull` does not: it matches the rule again at the same place until the count is full.
Both come to the same success, length or abort, and miss elements at the same places
(`Graph.repeated_eq_inFull`).

A rule that consumed nothing does so again at the same place, since the trace has no influence on a
match (`Graph.runWithin_uniform`), and what it missed on the way is on the trace already.  So all that
comes after the first such match only adds to the count, up to the bound, which is no less than what
is asked for at least.
-/

namespace RuleScript

namespace Match

/-- A rule matched until it fails or has matched `left` times more, given the repetitions so far.  A
match that consumes nothing is like any other. -/
def repeatedInFull (sub : RuleId → Nat → Run Outcome) (id : RuleId) (min start : Nat) :
    (left reps len : Nat) → (nodes : Array Node) → Run Outcome
  | 0, reps, len, nodes => pure (enough min reps len nodes)
  | left + 1, reps, len, nodes => do
    match ← sub id (start + len) with
    | .failure => pure (enough min reps len nodes)
    | .success more found =>
      repeatedInFull sub id min start left (reps + 1) (len + more) (nodes ++ found)

/-- Two matches come to the same success and length or to the same abort, and came as far. -/
def EndAlike (result result' : Except Abort Outcome × Trace) : Prop :=
  result'.1.map Outcome.verdict = result.1.map Outcome.verdict ∧
    result'.2.farthest = result.2.farthest

/-- Rules that do the same from every trace, and only add to it. -/
def Uniform (sub : RuleId → Nat → Run Outcome) : Prop :=
  ∀ id pos, ∃ result more, ∀ trace, (sub id pos).result trace = (result, trace.append more)

variable {sub : RuleId → Nat → Run Outcome} {label : String} {id : RuleId} {min max start : Nat}

theorem enough_endAlike (reps len : Nat) (nodes nodes' : Array Node) {trace trace' : Trace}
    (htrace : trace'.farthest = trace.farthest) :
    EndAlike ((pure (enough min reps len nodes) : Run Outcome).result trace)
      ((pure (enough min reps len nodes') : Run Outcome).result trace') := by
  refine ⟨?_, htrace⟩
  rw [Run.result_pure, Run.result_pure]
  simp only [Except.map, verdict_enough]

/-- Where the rule matches nothing, going on fills the count up and does nothing else. -/
theorem repeatedInFull_of_empty {len : Nat} {found : List Node} {more : Trace}
    (hempty : ∀ trace, (sub id (start + len)).result trace =
      (.ok (.success 0 found), trace.append more))
    (left reps : Nat) (nodes : Array Node) (hmin : min ≤ reps + left) (trace : Trace)
    (htrace : more.farthest ≤ trace.farthest) :
    let result := (repeatedInFull sub id min start left reps len nodes).result trace
    result.1.map Outcome.verdict = .ok (some len) ∧ result.2.farthest = trace.farthest := by
  -- What matches empty once does so in every round, and each round only repeats the trace.
  induction left generalizing reps nodes trace with
  | zero =>
      have henough : ¬ reps < min := by omega
      refine ⟨?_, rfl⟩
      rw [repeatedInFull, Run.result_pure]
      simp only [Except.map, verdict_enough, if_neg henough]
  | succ left ih =>
      have hfarthest : (trace.append more).farthest = trace.farthest := Nat.max_eq_left htrace
      rw [repeatedInFull, Run.result_bind_ok (hempty trace)]
      have hleft : min ≤ reps + 1 + left := by omega
      obtain ⟨hverdict, hreach⟩ := ih (reps + 1) (nodes ++ found) hleft (trace.append more)
        (Nat.le_max_right _ _)
      exact ⟨hverdict, hreach.trans hfarthest⟩

/-- One repetition more, if those after it end alike. -/
theorem repetition_endAlike (hsub : Uniform sub) {size : Nat} (hconsumes : Consumes size sub)
    {again : Nat → Nat → Array Node → Run Outcome} {left reps len : Nat} (nodes nodes' : Array Node)
    (hleft : reps + left = max) (hmin : min ≤ max) (hmax : max ≠ 0)
    (hagain : ∀ less more (found : List Node), left = less + 1 → more ≠ 0 →
      more ≤ size - (start + len) → ∀ trace trace' : Trace, trace'.farthest = trace.farthest →
        EndAlike ((again (reps + 1) (len + more) (nodes ++ found)).result trace)
          ((repeatedInFull sub id min start less (reps + 1) (len + more)
            (nodes' ++ found)).result trace'))
    {trace trace' : Trace} (htrace : trace'.farthest = trace.farthest) :
    EndAlike ((repetition sub label id min max start again reps len nodes).result trace)
      ((repeatedInFull sub id min start left reps len nodes').result trace') := by
  cases left with
  | zero =>
      rw [repetition, if_pos ⟨hmax, by omega⟩, repeatedInFull]
      exact enough_endAlike reps len nodes nodes' htrace
  | succ less =>
      obtain ⟨result, more, huniform⟩ := hsub id (start + len)
      have hafter : (trace'.append more).farthest = (trace.append more).farthest :=
        congrArg (Nat.max · more.farthest) htrace
      rw [repetition, if_neg (by omega), repeatedInFull]
      rcases result with cause | _ | ⟨_ | more', found⟩
      · -- An abort of the round is the abort of both loops.
        rw [Run.result_bind_error (huniform trace), Run.result_bind_error (huniform trace')]
        exact ⟨rfl, hafter⟩
      · rw [Run.result_bind_ok (huniform trace), Run.result_bind_ok (huniform trace')]
        exact enough_endAlike reps len nodes nodes' hafter
      · -- The count is full for the one, and filled up one by one for the other.
        rw [Run.result_bind_ok (huniform trace), Run.result_bind_ok (huniform trace')]
        have hfilled : ¬ Nat.max (reps + 1) min < min := Nat.not_lt.mpr (Nat.le_max_right _ _)
        have hrest : min ≤ reps + 1 + less := by omega
        obtain ⟨hverdict, hreach⟩ := repeatedInFull_of_empty huniform less (reps + 1)
          (nodes' ++ found) hrest (trace'.append more) (Nat.le_max_right _ _)
        refine ⟨hverdict.trans ?_, hreach.trans ?_⟩
        · simp only [if_neg hmax, Run.result_pure, Except.map, verdict_enough, if_neg hfilled]
        · simp only [if_neg hmax, Run.result_pure]
          exact hafter
      · rw [Run.result_bind_ok (huniform trace), Run.result_bind_ok (huniform trace')]
        -- A round that consumes leaves both loops in the same place.
        have hle : more' + 1 ≤ size - (start + len) := (hconsumes id _).of_result (huniform trace)
        exact hagain less (more' + 1) found rfl (Nat.succ_ne_zero _) hle _ _ hafter

theorem repeated_endAlike (hsub : Uniform sub) {size : Nat} (hconsumes : Consumes size sub)
    (room left reps len : Nat) (nodes nodes' : Array Node) (hroom : size - (start + len) ≤ room)
    (hleft : reps + left = max) (hmin : min ≤ max) (hmax : max ≠ 0) {trace trace' : Trace}
    (htrace : trace'.farthest = trace.farthest) :
    EndAlike ((repeated sub label id min max start room reps len nodes).result trace)
      ((repeatedInFull sub id min start left reps len nodes').result trace') := by
  induction room generalizing left reps len nodes nodes' trace trace' with
  | zero =>
      refine repetition_endAlike hsub hconsumes nodes nodes' hleft hmin hmax ?_ htrace
      intro less more found _ hne hle
      omega
  | succ room ih =>
      refine repetition_endAlike hsub hconsumes nodes nodes' hleft hmin hmax ?_ htrace
      intro less more found hless hne hle trace trace' htrace
      exact ih less _ _ _ _ (by omega) (by omega) htrace

end Match

namespace Graph

open Match

variable {α : Type} [Element α]

/-- **A bounded repetition that takes the count for full** at a match of nothing comes to what it comes
to if it goes on until the count is full: the same success and length or the same abort, with elements
missed as far on. -/
theorem repeated_eq_inFull (g : Graph α) (input : Array α) (limit depth : Nat) (label : String)
    (id : RuleId) {min max : Nat} (hmax : 0 < max) (hmin : min ≤ max) (start : Nat) (trace : Trace) :
    EndAlike
      ((repeated (g.runWithin input limit depth) label id min max start (input.size - start) 0 0
        #[]).result trace)
      ((repeatedInFull (g.runWithin input limit depth) id min start max 0 0 #[]).result trace) :=
  repeated_endAlike (g.runWithin_uniform input limit depth) (g.runWithin_consumes input limit depth)
    _ max 0 0 #[] #[] (Nat.le_refl _) (Nat.zero_add max) hmin (Nat.ne_of_gt hmax) rfl

/-- A letter that may be missing. -/
def optionalLetter : Graph Char where
  rules := #[.ofKind (.single 'a'), .ofKind (.optional ⟨0⟩)]
  root := some ⟨1⟩

/-- The one letter is followed by a match of nothing, which fills up the count to three in one step
or in four. -/
theorem optionalLetter_repeated_eq_inFull :
    let sub := optionalLetter.runWithin #['a', 'b'] 2 2
    let result := (repeated sub "letters" ⟨1⟩ 3 5 0 2 0 0 #[]).result {}
    let result' := (repeatedInFull sub ⟨1⟩ 3 0 5 0 0 #[]).result {}
    0 < 5 ∧ 3 ≤ 5 ∧ EndAlike result result' ∧
      result.1.map Outcome.verdict = .ok (some 1) ∧ result.2.farthest = 1 := by
  intro sub result result'
  have hmax : 0 < 5 := by decide
  have hmin : 3 ≤ 5 := by decide
  exact ⟨hmax, hmin, repeated_eq_inFull optionalLetter #['a', 'b'] 2 2 "letters" ⟨1⟩ hmax hmin 0 {},
    by decide +kernel, by decide +kernel⟩

end Graph

end RuleScript
