import RuleScript.Proofs.Match.Derivation
import RuleScript.Proofs.Match.EmptyMatch
import RuleScript.Proofs.Match.Merged
import RuleScript.Proofs.Match.Transparency

/-!
# What the table of nullable rules tells

The table of nullable rules is computed from the rules alone, and is right about their matches in two
ways (`Graph.nullableTable_exact`).

* A rule that it does not mark consumes something whenever it matches.  This holds of any graph
  without evaluations, whatever it repeats and however its rules refer to each other.
* At the end of the input, where there is nothing to consume, a rule matches just if it is marked.
  This takes a valid graph whose rules go straight on (`Kind.isStraight`).  A lookahead or a skip
  may fail there although it is marked, and a repetition without bound would fail because of a rule
  that matches nothing.

The first is an induction on the match that never needs more of the table than that it is closed.
For the second the table has to be a solution of what the kinds of rules say.  Recursion allows for
several solutions, but they all agree on rules whose matches come to an end.
-/

namespace RuleScript

/-! ## Kinds of rules -/

namespace Kind

variable {α : Type}

def isEvaluation : Kind α → Bool
  | evaluation _ => true
  | _ => false

/-- Whether rules of a kind go straight on: they look at nothing that they do not consume, pass over
nothing, log nothing and fold nothing. -/
def isStraight : Kind α → Bool
  | not _ | condition _ | skip .. | log .. | evaluation _ => false
  | _ => true

end Kind

namespace Graph

variable {α : Type}

/-- A graph without evaluations. -/
def EvaluationFree (g : Graph α) : Prop := ∀ rule ∈ g.rules, rule.kind.isEvaluation = false

instance (g : Graph α) : Decidable g.EvaluationFree :=
  inferInstanceAs (Decidable (∀ rule ∈ g.rules, _))

/-- A graph all of whose rules go straight on. -/
def Straight (g : Graph α) : Prop := ∀ rule ∈ g.rules, rule.kind.isStraight

instance (g : Graph α) : Decidable g.Straight :=
  inferInstanceAs (Decidable (∀ rule ∈ g.rules, _))

theorem EvaluationFree.operandsOf_eq_nil {g : Graph α} (h : g.EvaluationFree) (id : RuleId) :
    g.operandsOf id = [] := by
  rw [operandsOf]
  split
  · rename_i alternatives hkind
    obtain ⟨rule, hrule, heq⟩ := Option.map_eq_some_iff.mp hkind
    have hrule := h rule (Array.mem_of_getElem? hrule)
    rw [heq] at hrule
    cases hrule
  · rfl

end Graph

/-! ## At the end of the input -/

/-- What a rule comes to where nothing is left to consume: it matches nothing if `p` holds, and fails
otherwise. -/
def Outcome.EmptyIff (p : Prop) : Outcome → Prop
  | .failure => ¬ p
  | .success len _ => len = 0 ∧ p

namespace Outcome.EmptyIff

variable {p q : Prop} {outcome : Outcome}

theorem congr (h : outcome.EmptyIff p) (hpq : p ↔ q) : outcome.EmptyIff q := by
  cases outcome with
  | failure => exact fun hq => h (hpq.mpr hq)
  | success len nodes => exact ⟨h.1, hpq.mp h.2⟩

theorem under (h : outcome.EmptyIff p) (id : RuleId) (start : Nat) :
    (outcome.under id start).EmptyIff p := by
  cases outcome with
  | failure => exact h
  | success len nodes => exact h

theorem mapNodes (h : outcome.EmptyIff p) (f : List Node → List Node) :
    (outcome.mapNodes f).EmptyIff p := by
  cases outcome with
  | failure => exact h
  | success len nodes => exact h

end Outcome.EmptyIff

/-- A run that matches nothing if `p` holds and fails if not, unless it is cut off for its depth. -/
def Run.MatchesEmptyIff (run : Run Outcome) (p : Prop) : Prop :=
  run.Meets (fun _ => True) (fun cause => ∃ limit pos, cause = .depthExceeded limit pos)
    (·.EmptyIff p)

namespace Run.MatchesEmptyIff

variable {p q : Prop}

theorem congr {run : Run Outcome} (h : run.MatchesEmptyIff p) (hpq : p ↔ q) :
    run.MatchesEmptyIff q :=
  h.mono (fun _ h => h) fun _ hempty => hempty.congr hpq

theorem record_bind {event : Event} {next : Unit → Run Outcome}
    (h : (next ()).MatchesEmptyIff p) : (record event >>= next).MatchesEmptyIff p := by
  have hrecord : (record event).Meets (fun _ => True)
      (fun cause => ∃ limit pos, cause = .depthExceeded limit pos) fun _ => True :=
    .record trivial fun _ _ => trivial
  exact hrecord.bind fun _ _ => h

end Run.MatchesEmptyIff

namespace Match

section Combinations

variable {sub : RuleId → Nat → Run Outcome} {N : RuleId → Bool} {start : Nat}

theorem inSequence_matchesEmptyIff {ids : List RuleId}
    (hsub : ∀ id ∈ ids, (sub id start).MatchesEmptyIff (N id)) (nodes : Array Node) :
    (inSequence sub start ids 0 nodes).MatchesEmptyIff (ids.all N) := by
  induction ids generalizing nodes with
  | nil => exact .pure ⟨rfl, rfl⟩
  | cons id ids ih =>
      refine inSequence_cons_meets (hsub id List.mem_cons_self) (fun hid hall => hid ?_)
        fun len found hempty => ?_
      · exact List.all_eq_true.mp hall id List.mem_cons_self
      · obtain ⟨rfl, hid⟩ := hempty
        have hrest := ih (fun id hid => hsub id (List.mem_cons_of_mem _ hid)) (nodes ++ found)
        exact hrest.congr (by rw [List.all_cons, hid, Bool.true_and])

theorem firstOf_matchesEmptyIff {ids : List RuleId}
    (hsub : ∀ id ∈ ids, (sub id start).MatchesEmptyIff (N id)) :
    (firstOf sub start ids).MatchesEmptyIff (ids.any N) := by
  induction ids with
  | nil => exact .pure (by simp [Outcome.EmptyIff])
  | cons id ids ih =>
      refine (hsub id List.mem_cons_self).bind fun outcome houtcome => ?_
      cases outcome with
      | failure =>
          have hid : N id = false := Bool.eq_false_iff.mpr houtcome
          have hrest := ih fun id hid => hsub id (List.mem_cons_of_mem _ hid)
          exact hrest.congr (by rw [List.any_cons, hid, Bool.false_or])
      | success len nodes =>
          refine .pure ⟨houtcome.1, ?_⟩
          exact List.any_eq_true.mpr ⟨id, List.mem_cons_self, houtcome.2⟩

/-- A repetition is over after one try: the rule fails, or it matches nothing and fills the count. -/
theorem repeated_matchesEmptyIff {label : String} {id : RuleId} {min max : Nat}
    (hsub : (sub id start).MatchesEmptyIff (N id)) (hmax : max = 0 → N id = false) (room : Nat) :
    (repeated sub label id min max start room 0 0 #[]).MatchesEmptyIff (min = 0 ∨ N id) := by
  have hround (again : Nat → Nat → Array Node → Run Outcome) :
      (repetition sub label id min max start again 0 0 #[]).MatchesEmptyIff (min = 0 ∨ N id) := by
    refine repetition_meets hsub ?_ ?_ ?_ ?_ ?_
    · intro hne hle
      omega
    · intro _ hfailure
      rw [enough]
      split
      · rename_i hmin
        exact fun h => h.elim (fun hzero => by omega) hfailure
      · exact ⟨rfl, .inl (by omega)⟩
    · -- An unbounded repetition of a rule that can be empty is excluded.
      intro found hzero hempty
      exact absurd hempty.2 (by simp [hmax hzero])
    · intro found _ _ hempty
      -- An empty round fills up the count.
      have hfilled : ¬ Nat.max (0 + 1) min < min := Nat.not_lt.mpr (Nat.le_max_right _ _)
      rw [enough, if_neg hfilled]
      exact ⟨rfl, .inr hempty.2⟩
    · intro more found _ hmore hempty
      exact absurd hempty.1 hmore
  cases room with
  | zero => exact hround _
  | succ room => exact hround _

end Combinations

variable {α : Type} {g : Graph α} {input : Array α}
variable {sub : RuleId → Nat → Run Outcome} {N : RuleId → Bool}

theorem element_at_end (id : RuleId) (test : α → Bool) {p : Prop} (hp : ¬ p) :
    (element input id test input.size : Run Outcome).MatchesEmptyIff p := by
  rw [element, Array.getElem?_eq_none (Nat.le_refl _)]
  exact .miss hp fun _ _ => trivial

variable [Element α]

/-- A rule that goes straight on matches at the end of the input if its kind says so. -/
theorem kind_matchesEmptyIff (id : RuleId) {kind : Kind α} (hstraight : kind.isStraight)
    (hpending : kind.pending? = none)
    (hsub : ∀ one ∈ kind.subs, (sub one input.size).MatchesEmptyIff (N one))
    (hrepeat : ∀ one min, kind = .count one min 0 → N one = false) :
    (Match.kind g input sub id kind input.size).MatchesEmptyIff (kind.isNullable N) := by
  -- At the end of the input each kind matches empty under the very condition that the table tests.
  cases kind with
  | any min max =>
      simp only [Match.kind, anyOf, Nat.sub_self]
      split
      · rename_i hmin
        refine .miss (fun hzero => ?_) fun _ _ => trivial
        have : min = 0 := beq_iff_eq.mp hzero
        omega
      · refine .pure ⟨?_, beq_iff_eq.mpr (by omega)⟩
        split
        · rfl
        · exact Nat.zero_min max
  | single value => exact element_at_end id _ Bool.false_ne_true
  | set values => exact element_at_end id _ Bool.false_ne_true
  | range lo hi => exact element_at_end id _ Bool.false_ne_true
  | literal values =>
      have hnone : agreeing input values input.size = 0 := by
        cases values with
        | nil => rfl
        | cons value values => simp [agreeing]
      simp only [Match.kind, allOf, hnone]
      split
      · rename_i hlength
        exact .pure ⟨rfl, List.isEmpty_iff_length_eq_zero.mpr hlength.symm⟩
      · rename_i hlength
        refine .miss (fun hempty => hlength ?_) fun _ _ => trivial
        exact (List.isEmpty_iff_length_eq_zero.mp hempty).symm
  | sequence subs =>
      exact (inSequence_matchesEmptyIff hsub #[]).map fun _ hempty => hempty.under id _
  | oneOf subs =>
      exact (firstOf_matchesEmptyIff hsub).map fun _ hempty => hempty.under id _
  | count one min max =>
      have hmax : max = 0 → N one = false := by
        rintro rfl
        exact hrepeat one min rfl
      refine (repeated_matchesEmptyIff (hsub one (by simp [Kind.subs])) hmax _).map
        fun _ hempty => (hempty.congr ?_).under id _
      simp [Kind.isNullable]
  | breakpoint subject =>
      refine .record_bind ((hsub subject (by simp [Kind.subs])).bind fun outcome hempty => ?_)
      exact Run.MatchesEmptyIff.record_bind (.pure hempty)
  | reference target subject =>
      cases subject with
      | none => cases hpending
      | some subject =>
          refine (hsub subject (by simp [Kind.subs])).congr ?_
          simp [Kind.isNullable]
  | _ => cases hstraight

end Match

/-! ## The table and matches -/

namespace Graph

variable {α : Type} [Element α] {g : Graph α}

/-- Only rules that the table marks consume nothing, if there are no evaluations. -/
theorem runWithin_marks (hfree : g.EvaluationFree) (input : Array α) (limit depth : Nat) (id : RuleId)
    (start : Nat) :
    (g.runWithin input limit depth id start).Yields
      (·.EmptyOnlyIf (marks g.nullableTable id)) := by
  have hlasting : Trace.Lasting fun _ => True := ⟨fun _ _ => trivial, fun _ => trivial⟩
  refine runWithin_emptyOnlyIf hlasting (fun _ => True) (fun _ _ _ _ => trivial) ?_ ?_ trivial
  · exact fun _ _ _ _ _ _ _ _ _ _ => trivial
  · rintro id kind - hkind (hnullable | hoperand) -
    · obtain ⟨rule, hrule, rfl⟩ := Option.map_eq_some_iff.mp hkind
      exact marks_of_isNullable hrule hnullable
    · rw [hfree.operandsOf_eq_nil] at hoperand
      cases hoperand

/-- At the end of the input the marked rules match nothing and the others fail. -/
theorem runWithin_at_end (hstraight : g.Straight) (hlinked : g.Linked) (hvalid : g.validate = .ok ())
    (input : Array α) (limit depth : Nat) (id : RuleId) :
    (g.runWithin input limit depth id input.size).MatchesEmptyIff (marks g.nullableTable id) := by
  refine runWithin_induction (P := fun id start run => start = input.size →
    run.MatchesEmptyIff (marks g.nullableTable id)) ?_ ?_ ?_ depth id input.size rfl
  · intro id start hrule _
    refine .record_bind (.pure ?_)
    simp [Outcome.EmptyIff, marks_eq_false_of_rule?_eq_none hrule]
  · intro id start _
    exact .throw ⟨limit, start, rfl⟩
  · rintro depth ih id rule hrule start rfl
    have hmem := Array.mem_of_getElem? hrule
    have hkind : (Match.kind g input (g.runWithin input limit depth) id rule.kind
        input.size).MatchesEmptyIff (rule.kind.isNullable (marks g.nullableTable)) := by
      refine Match.kind_matchesEmptyIff id (hstraight rule hmem) (hlinked rule hmem)
        (fun one _ => ih one _ rfl) fun one min hcount => ?_
      exact not_marks_of_validate hvalid ((kind?_eq_some hrule).trans (by rw [hcount]))
    exact hkind.map fun _ hempty =>
      (hempty.congr (marks_iff_isNullable hrule).symm).mapNodes _

theorem not_cutOff_of_verdict {result : Except Abort Outcome × Trace} {verdict : Option Nat}
    (h : result.1.map Outcome.verdict = .ok verdict) : ¬ CutOff result := by
  rintro ⟨limit, pos, hcut⟩
  rw [hcut] at h
  cases h

/-- **The table of nullable rules is sound, and exact where rules go straight on.**  In a graph without
evaluations, a rule that it does not mark consumes something in every match of it.  In a valid graph
without pending references whose rules all go straight on, it tells what becomes of each rule at the
end of the input, where the match is not cut off: a marked rule matches nothing, and any other fails. -/
theorem nullableTable_exact (g : Graph α) :
    (g.EvaluationFree → ∀ id, marks g.nullableTable id = false →
      ∀ (input : Array α) (limit start len : Nat),
        (g.matchAt input limit id start).1.map Outcome.verdict = .ok (some len) → 0 < len) ∧
    (g.Straight → g.Linked → g.validate = .ok () → ∀ (id : RuleId) (input : Array α) (limit : Nat),
      ¬ CutOff (g.matchAt input limit id input.size) →
        (g.matchAt input limit id input.size).1.map Outcome.verdict =
          .ok (if marks g.nullableTable id then some 0 else none)) := by
  constructor
  · -- A match of no length would be marked.
    intro hfree id hmarks input limit start len hmatch
    have hend := (runWithin_marks hfree input limit limit id start {} trivial).2
    rw [matchAt, run] at hmatch
    rcases hresult : ((g.runWithin input limit limit id start).result {}).1 with _ | _ | ⟨_, nodes⟩
    · rw [hresult] at hmatch
      cases hmatch
    · rw [hresult] at hmatch
      cases hmatch
    · rw [hresult] at hmatch hend
      cases hmatch
      refine Nat.pos_of_ne_zero fun hzero => ?_
      rw [hend hzero] at hmarks
      cases hmarks
  · -- At the end an abort can only be a cut-off; failure and success are told apart by the mark.
    intro hstraight hlinked hvalid id input limit hcut
    have hend := (runWithin_at_end hstraight hlinked hvalid input limit limit id {} trivial).2
    rw [← run] at hend
    rw [CutOff] at hcut
    rw [matchAt] at hcut ⊢
    rcases hresult : ((g.run input limit id input.size).result {}).1 with cause | _ | ⟨len, nodes⟩
    · rw [hresult] at hend hcut
      obtain ⟨limit', pos, rfl⟩ := hend
      exact absurd ⟨limit', pos, rfl⟩ hcut
    · rw [hresult] at hend
      rw [if_neg hend]
      rfl
    · rw [hresult] at hend
      obtain ⟨rfl, hmarks⟩ := hend
      rw [if_pos hmarks]
      rfl

/-- A letter in front of all that may come after it, or two or three pairs of letters, each of which
may be missing. -/
def letterRuns : Graph Char where
  rules := #[
    .ofKind (.single 'a'),
    .ofKind (.optional ⟨0⟩),
    .ofKind (.sequence [⟨1⟩, ⟨1⟩]),
    .ofKind (.count ⟨2⟩ 2 3),
    (Rule.ofKind (.oneOf [⟨5⟩, ⟨3⟩])).named "run",
    .ofKind (.sequence [⟨0⟩, ⟨6⟩]),
    .ofKind (.reference "run" (some ⟨4⟩)),
    .ofKind (.breakpoint ⟨5⟩),
    .ofKind (.count ⟨7⟩ 0 0)]
  root := some ⟨8⟩

/-- The breakpoint consumes letters and fails where there are none, while the run at the end of it
goes on matching nothing. -/
theorem letterRuns_nullableTable_exact :
    letterRuns.EvaluationFree ∧ marks letterRuns.nullableTable ⟨7⟩ = false ∧
      (letterRuns.matchAt #['a', 'a'] 12 ⟨7⟩ 0).1.map Outcome.verdict = .ok (some 2) ∧ 0 < 2 ∧
      letterRuns.Straight ∧ letterRuns.Linked ∧ letterRuns.validate = .ok () ∧
      ¬ CutOff (letterRuns.matchAt #['a', 'a'] 12 ⟨7⟩ 2) ∧
      (letterRuns.matchAt #['a', 'a'] 12 ⟨7⟩ 2).1.map Outcome.verdict = .ok none ∧
      ¬ CutOff (letterRuns.matchAt #['a', 'a'] 12 ⟨4⟩ 2) ∧
      (letterRuns.matchAt #['a', 'a'] 12 ⟨4⟩ 2).1.map Outcome.verdict = .ok (some 0) := by
  have hfree : letterRuns.EvaluationFree := by decide
  have hstraight : letterRuns.Straight := by decide
  have hlinked : letterRuns.Linked := by decide
  have hvalid : letterRuns.validate = .ok () := by decide +kernel
  have hunmarked : marks letterRuns.nullableTable ⟨7⟩ = false := by decide +kernel
  have hmarked : marks letterRuns.nullableTable ⟨4⟩ = true := by decide +kernel
  have hmatch : (letterRuns.matchAt #['a', 'a'] 12 ⟨7⟩ 0).1.map Outcome.verdict = .ok (some 2) := by
    decide +kernel
  have hfails : (letterRuns.matchAt #['a', 'a'] 12 ⟨7⟩ 2).1.map Outcome.verdict = .ok none := by
    decide +kernel
  have hgoesOn : (letterRuns.matchAt #['a', 'a'] 12 ⟨4⟩ 2).1.map Outcome.verdict =
      .ok (some 0) := by decide +kernel
  -- A verdict is there, so neither run was cut off.
  have hcut := not_cutOff_of_verdict hfails
  have hcut' := not_cutOff_of_verdict hgoesOn
  obtain ⟨hsound, hexact⟩ := nullableTable_exact letterRuns
  have hend := hexact hstraight hlinked hvalid ⟨7⟩ #['a', 'a'] 12 hcut
  have hend' := hexact hstraight hlinked hvalid ⟨4⟩ #['a', 'a'] 12 hcut'
  rw [hunmarked] at hend
  rw [hmarked] at hend'
  exact ⟨hfree, hunmarked, hmatch, hsound hfree ⟨7⟩ hunmarked _ _ _ _ hmatch, hstraight, hlinked,
    hvalid, hcut, hend, hcut', hend'⟩

end Graph

end RuleScript
