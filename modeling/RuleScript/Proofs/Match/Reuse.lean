import RuleScript.Proofs.Match.Adequacy
import RuleScript.Proofs.Match.Threading
import RuleScript.Proofs.Match.Transparency

/-!
# Using a matcher again

What a matcher comes to depends neither on how deep it might have gone nor on what it was used for
before.  A match that is not cut off for its depth comes to the same under any higher limit
(`Graph.matchAt_of_le`).  A match leaves the depth of its matcher as it found it, aborted or not
(`Graph.parse_depth`), and what it adds to the trace is what it leaves on an empty one
(`Graph.parse_eq`); so a matcher that was used before does what a fresh one does (`Graph.parseAll_eq`).
-/

namespace RuleScript

namespace Graph

variable {α : Type} [Element α] {g : Graph α} {input : Array α} {id : RuleId} {start limit : Nat}

/-! ## Limits -/

/-- A match that was not cut off comes to the same under a higher limit, to the last detail. -/
theorem matchAt_of_le (hcut : ¬ CutOff (g.matchAt input limit id start)) {limit' : Nat}
    (hle : limit ≤ limit') : g.matchAt input limit' id start = g.matchAt input limit id start := by
  obtain ⟨extra, rfl⟩ := Nat.exists_eq_add_of_le hle
  exact runWithin_deeper (fun reached pos heq => hcut ⟨reached, pos, heq⟩) (limit + extra) extra

/-! ## Matchers -/

/-- With a level for each rule that may still be entered, the levels never run out before the limit is
reached. -/
theorem parseWithin_mirrors (g : Graph α) (input : Array α) (limit levels : Nat) {depth : Nat}
    (hlevels : limit ≤ depth + levels) (id : RuleId) (start : Nat) :
    (g.parseWithin input limit levels id start).Mirrors depth
      (g.runWithin input limit (limit - depth) id start) := by
  induction levels generalizing depth id start with
  | zero =>
      -- The limit is reached, so nothing inside is asked for.
      exact enter_mirrors (fun hroom => absurd hroom (by omega)) id start
  | succ levels ih => exact enter_mirrors (fun _ => ih (by omega)) id start

/-- What becomes of a match by a matcher: the matcher is as deep in the end as it was before, and does to
its trace what a run does with as many levels as are left. -/
theorem parse_eq (g : Graph α) (input : Array α) (limit : Nat) (m : Matcher) (id : RuleId)
    (start : Nat) :
    g.parse input limit m id start =
      (((g.runWithin input limit (limit - m.depth) id start).result m.trace).1,
        m.withTrace ((g.runWithin input limit (limit - m.depth) id start).result m.trace).2) :=
  g.parseWithin_mirrors input limit (limit - m.depth) (by omega) id start m.trace

/-- A matcher is as deep after a match as before it, whether or not the match was aborted. -/
theorem parse_depth (g : Graph α) (input : Array α) (limit : Nat) (m : Matcher) (id : RuleId)
    (start : Nat) : (g.parse input limit m id start).2.depth = m.depth := by
  rw [parse_eq]
  rfl

/-- Matching a rule is entering it and matching the rules inside with the very matcher that comes to
them, from whatever depth and trace it has there. -/
theorem parse_eq_enter (g : Graph α) (input : Array α) (limit : Nat) (m : Matcher) (id : RuleId)
    (start : Nat) :
    g.parse input limit m id start =
      (g.enter input limit (fun id start m => g.parse input limit m id start) id start).result m := by
  rw [parse_eq]
  refine (enter_mirrors (fun _ id start trace => ?_) id start m.trace).symm
  exact g.parse_eq input limit ⟨m.depth + 1, trace⟩ id start

/-- A match by a matcher that is inside of no rule is a fresh match, but for what it finds on the
trace. -/
theorem parse_eq_append (g : Graph α) (input : Array α) (limit : Nat) (trace : Trace) (id : RuleId)
    (start : Nat) :
    g.parse input limit ⟨0, trace⟩ id start =
      ((g.matchAt input limit id start).1, ⟨0, trace.append (g.matchAt input limit id start).2⟩) := by
  obtain ⟨result, more, huniform⟩ := g.runWithin_uniform input limit limit id start
  have hfresh : g.matchAt input limit id start = (result, Trace.append {} more) := huniform {}
  have hmore : trace.append (Trace.append {} more) = trace.append more := by
    simp [Trace.append]
  rw [parse_eq, Nat.sub_zero, huniform, hfresh, hmore]
  rfl

/-- One match after the other adds up what the fresh matches leave. -/
theorem parseAll_eq (g : Graph α) (input : Array α) (limit : Nat) (trace : Trace)
    (calls : List (RuleId × Nat)) :
    let fresh := calls.map fun call => g.matchAt input limit call.1 call.2
    g.parseAll input limit ⟨0, trace⟩ calls =
      (fresh.map (·.1), ⟨0, (fresh.map (·.2.farthest)).foldl max trace.farthest,
        (fresh.map (·.2.journal)).foldl (· ++ ·) trace.journal⟩) := by
  induction calls generalizing trace with
  | nil => rfl
  | cons call calls ih =>
      rw [parseAll, parse_eq_append]
      simp only [ih, List.map_cons, List.foldl_cons, Trace.append]

/-- **The limit only cuts off, and a matcher can be used again.**  A match that is not cut off for its
depth comes to the same under any higher limit, farthest position and all.  And however often a matcher
was used, whether or not its matches were aborted, each match comes to what it comes to on a fresh
matcher; in the end the matcher is out of all rules, came as far as the fresh ones did that came
farthest, and has all of their records. -/
theorem matcher_reusable (g : Graph α) (input : Array α) :
    (∀ id start limit limit', limit ≤ limit' → ¬ CutOff (g.matchAt input limit id start) →
      g.matchAt input limit' id start = g.matchAt input limit id start) ∧
    ∀ limit (calls : List (RuleId × Nat)),
      let fresh := calls.map fun call => g.matchAt input limit call.1 call.2
      let used := g.parseAll input limit {} calls
      used.1 = fresh.map (·.1) ∧ used.2.depth = 0 ∧
        used.2.trace.farthest = (fresh.map (·.2.farthest)).foldl max 0 ∧
        used.2.trace.journal = (fresh.map (·.2.journal)).foldl (· ++ ·) #[] := by
  refine ⟨fun id start limit limit' hle hcut => matchAt_of_le hcut hle, fun limit calls => ?_⟩
  intro fresh used
  have hused := g.parseAll_eq input limit {} calls
  exact ⟨congrArg (·.1) hused, congrArg (·.2.depth) hused, congrArg (·.2.trace.farthest) hused,
    congrArg (·.2.trace.journal) hused⟩

/-- A match that is cut off stands between two that are not. -/
theorem nestedParens_reusable :
    let input := #['(', '(', ')', '?']
    4 ≤ 9 ∧ ¬ CutOff (nestedParens.matchAt input 4 ⟨3⟩ 1) ∧
      nestedParens.matchAt input 9 ⟨3⟩ 1 = nestedParens.matchAt input 4 ⟨3⟩ 1 ∧
      (nestedParens.parseAll input 4 {} [(⟨3⟩, 1), (⟨3⟩, 0), (⟨3⟩, 1)]).1 =
        [.ok (.success 2 []), .error (.depthExceeded 4 2), .ok (.success 2 [])] ∧
      (nestedParens.parseAll input 4 {} [(⟨3⟩, 1), (⟨3⟩, 0), (⟨3⟩, 1)]).2.depth = 0 := by
  intro input
  have hshallow : nestedParens.matchAt input 4 ⟨3⟩ 1 = (.ok (.success 2 []), { farthest := 2 }) := by
    decide +kernel
  have hdeep : (nestedParens.matchAt input 4 ⟨3⟩ 0).1 = .error (.depthExceeded 4 2) := by
    decide +kernel
  have hcut : ¬ CutOff (nestedParens.matchAt input 4 ⟨3⟩ 1) := by
    rintro ⟨limit, pos, heq⟩
    rw [hshallow] at heq
    cases heq
  obtain ⟨hlimits, hcalls⟩ := matcher_reusable nestedParens input
  obtain ⟨hresults, hdepth, -⟩ := hcalls 4 [(⟨3⟩, 1), (⟨3⟩, 0), (⟨3⟩, 1)]
  refine ⟨by decide, hcut, hlimits ⟨3⟩ 1 4 9 (by decide) hcut, ?_, hdepth⟩
  -- The call that is cut off has no effect on the next one.
  rw [hresults]
  simp only [List.map_cons, List.map_nil, hshallow, hdeep]

end Graph

end RuleScript
