import Mathlib.Data.Finset.Range
import Mathlib.Order.Filter.AtTopBot.Basic
import Mathlib.Order.Filter.Finite
import RuleScript.Proofs.Match.Derivation
import RuleScript.Proofs.Match.Loops

/-!
# Matching and derivations agree

In a primitive graph a match comes to just what `Derives` says.

* Soundness: what a run comes to has a derivation.  By induction on the depth left; a loop carries
  along the derivation of what it has done so far.
* Completeness: what has a derivation is what every run comes to that has enough depth left.  By
  induction on the derivation; "enough depth" is "all depths from some depth on", so several of
  them are put together by the filter `atTop`.

A loop of the matcher has as much room as the input has elements left.  `Derives.len_le` is the
reason that it never runs out of it.  That there is at most one derivation follows from
completeness: two derivations are about one run.

All of this but its conclusion only takes an ordinary graph: a reference that points nowhere has no
derivation, and no run that comes to it has an outcome.
-/

namespace RuleScript

variable {α : Type} {g : Graph α} {input : Array α}

/-! ## Soundness -/

section Soundness

variable [Element α]

namespace Match

theorem verdict_enough (min reps len : Nat) (nodes : Array Node) :
    (enough min reps len nodes).verdict = if reps < min then none else some len := by
  rw [enough]
  split
  · rfl
  · rfl

/-- The values agree to the end just if the rest of the input starts with them. -/
theorem agreeing_eq_length_iff (values : List α) (start : Nat) :
    agreeing input values start = values.length ↔ values <+: input.toList.drop start := by
  induction values generalizing start with
  | nil => simp [agreeing]
  | cons value values ih =>
      by_cases hstart : start < input.size
      · rw [List.drop_eq_getElem_cons (by simpa using hstart), List.cons_prefix_cons, agreeing,
          Array.getElem?_eq_getElem hstart]
        by_cases hvalue : input[start] = value
        · simp [hvalue, ih]
        · simp [hvalue, Ne.symm hvalue]
      · rw [List.drop_eq_nil_of_le (by simpa using Nat.not_lt.mp hstart), agreeing,
          Array.getElem?_eq_none (Nat.not_lt.mp hstart)]
        simp

theorem element_yields {id : RuleId} {test : α → Bool} {start : Nat} {p : Prop} [Decidable p]
    (hp : input[start]?.any test ↔ p)
    (h : Derives g input id start (if p then some 1 else none)) :
    (element input id test start : Run Outcome).Yields fun outcome =>
      Derives g input id start outcome.verdict := by
  rw [element]
  split
  · rename_i helement
    rw [if_pos (hp.mp helement)] at h
    exact .pure h
  · rename_i helement
    rw [if_neg fun hpos => helement (hp.mpr hpos)] at h
    exact .miss h fun _ _ => trivial

section Combinations

variable {sub : RuleId → Nat → Run Outcome} {start : Nat}
variable (hsub : ∀ id pos, (sub id pos).Yields fun outcome =>
  Derives g input id pos outcome.verdict)

include hsub

theorem inSequence_yields (ids : List RuleId) (len : Nat) (nodes : Array Node) :
    (inSequence sub start ids len nodes).Yields fun outcome =>
      ∃ verdict, InOrder g input ids (start + len) verdict ∧
        outcome.verdict = verdict.map (len + ·) := by
  induction ids generalizing len nodes with
  | nil => exact .pure ⟨some 0, .nil, rfl⟩
  | cons id ids ih =>
      refine inSequence_cons_meets (hsub id _) (fun hid => ⟨none, .failure hid, rfl⟩)
        fun more found hid => ?_
      refine (ih (len + more) (nodes ++ found)).mono (fun _ h => h) fun outcome h => ?_
      obtain ⟨verdict, hrest, heq⟩ := h
      rw [← Nat.add_assoc] at hrest
      refine ⟨verdict.map (more + ·), .success hid hrest, ?_⟩
      rw [heq, Option.map_map]
      exact Option.map_congr fun rest _ => Nat.add_assoc len more rest

theorem firstOf_yields (ids : List RuleId) :
    (firstOf sub start ids).Yields fun outcome => FirstOf g input ids start outcome.verdict := by
  induction ids with
  | nil => exact .pure .nil
  | cons id ids ih =>
      refine (hsub id start).bind fun outcome houtcome => ?_
      cases outcome with
      | failure => exact ih.mono (fun _ h => h) fun outcome h => .failure houtcome h
      | success len nodes => exact .pure (.success houtcome)

theorem repeated_yields {label : String} {id one : RuleId} {min max : Nat}
    (hkind : g.kind? id = some (.count one min max)) (room reps len : Nat) (nodes : Array Node)
    (hreps : Repeats g input one reps start len) (hmax : max = 0 ∨ reps ≤ max)
    (hroom : input.size - start ≤ room + len) :
    (repeated sub label one min max start room reps len nodes).Yields fun outcome =>
      Derives g input id start outcome.verdict := by
  -- One round, whatever comes after it: with room left that is the loop, else it is the end.
  have hround (again : Nat → Nat → Array Node → Run Outcome) (reps len : Nat)
      (nodes : Array Node) (hreps : Repeats g input one reps start len)
      (hmax : max = 0 ∨ reps ≤ max)
      (hagain : ∀ more (found : List Node), Repeats g input one (reps + 1) start (len + more) →
        (max = 0 ∨ reps + 1 ≤ max) → more ≠ 0 → more ≤ input.size - (start + len) →
        (again (reps + 1) (len + more) (nodes ++ found)).Yields fun outcome =>
          Derives g input id start outcome.verdict) :
      (repetition sub label one min max start again reps len nodes).Yields fun outcome =>
        Derives g input id start outcome.verdict := by
    refine repetition_meets (hsub one _) ?_ ?_ ?_ ?_ ?_
    · intro hne hle
      have hfull : reps = max := by omega
      subst hfull
      rw [verdict_enough]
      exact .countFull hkind hne hreps
    · intro hmore hfail
      rw [verdict_enough]
      exact .countOver hkind hmore hreps hfail
    · rintro found rfl hempty
      exact (Run.Yields.record _).bind fun _ _ =>
        .pure (.countEndless hkind hreps hempty)
    · intro found _ hmore hempty
      rw [verdict_enough, if_neg (Nat.not_lt.mpr (Nat.le_max_right (reps + 1) min))]
      exact .countFilled hkind hmore hreps hempty
    · intro more found hmore hne hone
      exact hagain more found (.succ hreps hone hne) (by omega) hne (hone.len_le more rfl)
  induction room generalizing reps len nodes with
  | zero =>
      refine hround _ reps len nodes hreps hmax fun more found _ _ hne hle => ?_
      -- All of the input is consumed by now, so that nothing more can be.
      omega
  | succ room ih =>
      refine hround _ reps len nodes hreps hmax fun more found hreps hmax hne _ => ?_
      exact ih _ _ _ hreps hmax (by omega)

theorem skipTo_yields {id stop : RuleId} {stopBefore failOnEnd : Bool}
    (hkind : g.kind? id = some (.skip stop stopBefore failOnEnd)) (room passed : Nat)
    (hbefore : ∀ before < passed, Derives g input stop (start + before) none)
    (hroom : passed + room = input.size - start) :
    (skipTo sub stop stopBefore failOnEnd start room passed).Yields fun outcome =>
      Derives g input id start outcome.verdict := by
  have hround (passed : Nat) (beyond : Run Outcome) (hpassed : passed ≤ input.size - start)
      (hbefore : ∀ before < passed, Derives g input stop (start + before) none)
      (hbeyond : (∀ before < passed + 1, Derives g input stop (start + before) none) →
        beyond.Yields fun outcome => Derives g input id start outcome.verdict) :
      (stopOr sub stop stopBefore start passed beyond).Yields fun outcome =>
        Derives g input id start outcome.verdict := by
    refine stopOr_meets (hsub stop _) (fun len nodes hstop => ?_) fun hfail => hbeyond ?_
    · have hfound : Derives g input id start (some (if stopBefore then passed else passed + len)) :=
        .skipFound hkind hpassed hbefore hstop
      cases stopBefore with
      | true => exact hfound
      | false => exact hfound
    · intro before hlt
      rcases Nat.lt_succ_iff_lt_or_eq.mp hlt with hlt | rfl
      · exact hbefore before hlt
      · exact hfail
  induction room generalizing passed with
  | zero =>
      -- The last position that was tried is the end of the input.
      refine hround passed _ (by omega) hbefore fun hnowhere => .pure ?_
      have hend : Derives g input id start
          (if failOnEnd then none else some (input.size - start)) :=
        .skipEnd hkind fun before hle => hnowhere before (by omega)
      rw [← hroom, Nat.add_zero] at hend
      cases failOnEnd with
      | true => exact hend
      | false => exact hend
  | succ room ih =>
      exact hround passed _ (by omega) hbefore fun hnowhere => ih (passed + 1) hnowhere (by omega)

/-- What an ordinary rule comes to has a derivation, if what the rules inside come to has one. -/
theorem kind_yields {id : RuleId} {kind : Kind α} (hkind : g.kind? id = some kind)
    (hordinary : kind.isOrdinary) :
    (Match.kind g input sub id kind start).Yields fun outcome =>
      Derives g input id start outcome.verdict := by
  cases kind with
  | any min max =>
      -- The rules that match elements miss or succeed in one step.
      have hany : Derives g input id start _ := .any hkind
      simp only [Match.kind, anyOf]
      split
      · rename_i hmin
        rw [if_pos hmin] at hany
        exact .miss hany fun _ _ => trivial
      · rename_i hmin
        rw [if_neg hmin] at hany
        exact .pure hany
  | single value => exact element_yields (by simp [Option.any_eq_true]) (.single hkind)
  | set values => exact element_yields (by simp [Option.any_eq_true]) (.set hkind)
  | range lo hi => exact element_yields (by simp [Option.any_eq_true]) (.range hkind)
  | literal values =>
      have hliteral : Derives g input id start _ := .literal hkind
      simp only [Match.kind, allOf]
      split
      · rename_i hall
        rw [if_pos ((agreeing_eq_length_iff values start).mp hall)] at hliteral
        rw [hall]
        exact .pure hliteral
      · rename_i hall
        rw [if_neg fun hvalues => hall ((agreeing_eq_length_iff values start).mpr hvalues)]
          at hliteral
        exact .miss hliteral fun _ _ => trivial
  | sequence subs =>
      -- The others hand what their loop derives to the rule of the kind.
      refine (inSequence_yields hsub subs 0 #[]).map fun outcome h => ?_
      obtain ⟨verdict, horder, heq⟩ := h
      rw [Outcome.verdict_under, heq]
      simpa using Derives.sequence hkind horder
  | oneOf subs =>
      refine (firstOf_yields hsub subs).map fun outcome h => ?_
      rw [Outcome.verdict_under]
      exact .oneOf hkind h
  | count one min max =>
      refine (repeated_yields hsub hkind _ 0 0 #[] .zero (.inr (Nat.zero_le max))
        (Nat.le_refl _)).map fun outcome h => ?_
      rw [Outcome.verdict_under]
      exact h
  | not one =>
      refine (hsub one start).bind fun outcome h => ?_
      cases outcome with
      | failure => exact .pure (.not hkind h)
      | success len nodes => exact .pure (.not hkind h)
  | condition one =>
      refine (hsub one start).bind fun outcome h => ?_
      cases outcome with
      | failure => exact .pure (.condition hkind h)
      | success len nodes => exact .pure (.condition hkind h)
  | skip stop stopBefore failOnEnd =>
      refine (skipTo_yields hsub hkind _ 0 (fun _ h => absurd h (Nat.not_lt_zero _))
        (Nat.zero_add _)).map fun outcome h => ?_
      rw [Outcome.verdict_under]
      exact h
  | log severity message guard =>
      have hentry (guarded : Outcome) (h : Derives g input id start (some 0)) :
          (entryOver g id severity message start guarded : Run Outcome).Yields fun outcome =>
            Derives g input id start outcome.verdict := by
        cases guarded with
        | failure => exact .pure h
        | success len nodes =>
            rw [entryOver]
            split
            · exact .throw trivial
            · exact (Run.Yields.record _).bind fun _ _ => .pure h
      cases guard with
      | none => exact hentry _ (.log hkind)
      | some guard => exact (hsub guard start).bind fun guarded h => hentry _ (.guardedLog hkind h)
  | breakpoint subject =>
      refine (Run.Yields.record _).bind fun _ _ =>
        (hsub subject start).bind fun outcome h => ?_
      exact (Run.Yields.record _).bind fun _ _ =>
        .pure (.breakpoint hkind h)
  | evaluation alternatives => cases hordinary
  | reference target subject =>
      cases subject with
      | none => exact .throw trivial
      | some subject => exact (hsub subject start).mono (fun _ h => h) fun _ h => .reference hkind h

end Combinations

end Match

namespace Graph

/-- What a run comes to has a derivation. -/
theorem runWithin_yields (hordinary : g.Ordinary) (limit depth : Nat) (id : RuleId)
    (start : Nat) :
    (g.runWithin input limit depth id start).Yields fun outcome =>
      Derives g input id start outcome.verdict := by
  refine runWithin_induction (P := fun id start run =>
    run.Yields fun outcome => Derives g input id start outcome.verdict) ?_ ?_ ?_ depth id start
  · intro id start hrule
    exact (Run.Yields.record _).bind fun _ _ => .pure (.unknown (kind?_eq_none hrule))
  · intro id start
    exact .throw trivial
  · intro depth ih id rule hrule start
    have hkind := kind?_eq_some hrule
    refine (Match.kind_yields ih hkind (hordinary.kind_isOrdinary hkind)).map fun outcome h => ?_
    rw [Outcome.verdict_mapNodes]
    exact h

end Graph

end Soundness

/-! ## Completeness -/

namespace Match

section Combinations

variable {sub : RuleId → Nat → Run Outcome} {start : Nat} {ok : Outcome → Prop}

theorem inSequence_cons_returns {id : RuleId} {ids : List RuleId} {len more : Nat}
    (hid : (sub id (start + len)).Returns (·.verdict = some more))
    (hrest : ∀ nodes, (inSequence sub start ids (len + more) nodes).Returns ok)
    (nodes : Array Node) : (inSequence sub start (id :: ids) len nodes).Returns ok := by
  refine hid.bind fun outcome houtcome => ?_
  cases outcome with
  | failure => cases houtcome
  | success len nodes =>
      cases houtcome
      exact hrest _

/-! ### Repetitions -/

section Repetition

variable {label : String} {id : RuleId} {min max reps len : Nat} {nodes : Array Node}
variable {again : Nat → Nat → Array Node → Run Outcome}

theorem repetition_full_returns (hmax : max ≠ 0) (hreps : max ≤ reps) :
    (repetition sub label id min max start again reps len nodes).Returns
      (·.verdict = if reps < min then none else some len) := by
  rw [repetition, if_pos ⟨hmax, hreps⟩]
  exact .pure (verdict_enough ..)

theorem repetition_over_returns (hroom : max = 0 ∨ reps < max)
    (hover : (sub id (start + len)).Returns (·.verdict = none)) :
    (repetition sub label id min max start again reps len nodes).Returns
      (·.verdict = if reps < min then none else some len) := by
  rw [repetition, if_neg (by omega)]
  refine hover.bind fun outcome houtcome => ?_
  cases outcome with
  | failure => exact .pure (verdict_enough ..)
  | success more found => cases houtcome

theorem repetition_endless_returns
    (hempty : (sub id (start + len)).Returns (·.verdict = some 0)) :
    (repetition sub label id min 0 start again reps len nodes).Returns (·.verdict = none) := by
  rw [repetition, if_neg (by omega)]
  refine hempty.bind fun outcome houtcome => ?_
  cases outcome with
  | failure => cases houtcome
  | success more found =>
      cases houtcome
      exact (Run.Returns.record _).bind fun _ _ => .pure rfl

theorem repetition_filled_returns (hroom : reps < max)
    (hempty : (sub id (start + len)).Returns (·.verdict = some 0)) :
    (repetition sub label id min max start again reps len nodes).Returns
      (·.verdict = some len) := by
  have hmax : max ≠ 0 := by omega
  rw [repetition, if_neg (by omega)]
  refine hempty.bind fun outcome houtcome => ?_
  cases outcome with
  | failure => cases houtcome
  | success more found =>
      cases houtcome
      show Run.Returns (if max = 0 then _ else _) _
      rw [if_neg hmax]
      refine .pure ?_
      rw [verdict_enough, if_neg (Nat.not_lt.mpr (Nat.le_max_right (reps + 1) min))]

theorem repetition_more_returns {more : Nat} (hroom : max = 0 ∨ reps < max) (hmore : more ≠ 0)
    (hone : (sub id (start + len)).Returns (·.verdict = some more))
    (hagain : ∀ nodes, (again (reps + 1) (len + more) nodes).Returns ok) :
    (repetition sub label id min max start again reps len nodes).Returns ok := by
  rw [repetition, if_neg (by omega)]
  refine hone.bind fun outcome houtcome => ?_
  cases outcome with
  | failure => cases houtcome
  | success len nodes =>
      cases houtcome
      cases more with
      | zero => exact absurd rfl hmore
      | succ more => exact hagain _

end Repetition

/-! ### Skips -/

section Skip

variable {stop : RuleId} {stopBefore failOnEnd : Bool} {passed : Nat} {beyond : Run Outcome}

theorem stopOr_found_returns {len : Nat}
    (hstop : (sub stop (start + passed)).Returns (·.verdict = some len)) :
    (stopOr sub stop stopBefore start passed beyond).Returns
      (·.verdict = some (if stopBefore then passed else passed + len)) := by
  refine hstop.bind fun outcome houtcome => ?_
  cases outcome with
  | failure => cases houtcome
  | success len nodes =>
      cases houtcome
      cases stopBefore with
      | true => exact .pure rfl
      | false => exact .pure rfl

theorem stopOr_beyond_returns (hstop : (sub stop (start + passed)).Returns (·.verdict = none))
    (hbeyond : beyond.Returns ok) :
    (stopOr sub stop stopBefore start passed beyond).Returns ok := by
  refine hstop.bind fun outcome houtcome => ?_
  cases outcome with
  | failure => exact hbeyond
  | success len nodes => cases houtcome

/-- A skip passes over all positions at which `stop` fails. -/
theorem skipTo_returns {room : Nat}
    (hbefore : ∀ before < passed, (sub stop (start + before)).Returns (·.verdict = none))
    (h : (skipTo sub stop stopBefore failOnEnd start room passed).Returns ok) :
    (skipTo sub stop stopBefore failOnEnd start (room + passed) 0).Returns ok := by
  induction passed generalizing room with
  | zero => exact h
  | succ passed ih =>
      have hpass : (skipTo sub stop stopBefore failOnEnd start (room + 1) passed).Returns ok :=
        stopOr_beyond_returns (hbefore passed (Nat.lt_succ_self passed)) h
      have hearlier := ih (fun before hlt => hbefore before (Nat.lt_succ_of_lt hlt)) hpass
      rw [Nat.add_assoc, Nat.add_comm 1 passed] at hearlier
      exact hearlier

end Skip

end Combinations

section Skip

variable [Element α] {sub : RuleId → Nat → Run Outcome} {id stop : RuleId} {start passed : Nat}
variable {stopBefore failOnEnd : Bool}

theorem skip_found_returns {len : Nat} (hpassed : passed ≤ input.size - start)
    (hbefore : ∀ before < passed, (sub stop (start + before)).Returns (·.verdict = none))
    (hstop : (sub stop (start + passed)).Returns (·.verdict = some len)) :
    (Match.kind g input sub id (.skip stop stopBefore failOnEnd) start).Returns
      (·.verdict = some (if stopBefore then passed else passed + len)) := by
  obtain ⟨room, hroom⟩ := Nat.exists_eq_add_of_le' hpassed
  have hlast : (skipTo sub stop stopBefore failOnEnd start room passed).Returns
      (·.verdict = some (if stopBefore then passed else passed + len)) := by
    cases room with
    | zero => exact stopOr_found_returns hstop
    | succ room => exact stopOr_found_returns hstop
  have hskip := skipTo_returns hbefore hlast
  rw [← hroom] at hskip
  exact hskip.map fun outcome houtcome => (Outcome.verdict_under ..).trans houtcome

theorem skip_end_returns
    (hnowhere : ∀ passed ≤ input.size - start,
      (sub stop (start + passed)).Returns (·.verdict = none)) :
    (Match.kind g input sub id (.skip stop stopBefore failOnEnd) start).Returns
      (·.verdict = if failOnEnd then none else some (input.size - start)) := by
  have hlast : (skipTo sub stop stopBefore failOnEnd start 0 (input.size - start)).Returns
      (·.verdict = if failOnEnd then none else some (input.size - start)) := by
    refine stopOr_beyond_returns (hnowhere _ (Nat.le_refl _)) (.pure ?_)
    cases failOnEnd with
    | true => rfl
    | false => rfl
  have hskip := skipTo_returns (fun before hlt => hnowhere before (Nat.le_of_lt hlt)) hlast
  rw [Nat.zero_add] at hskip
  exact hskip.map fun outcome houtcome => (Outcome.verdict_under ..).trans houtcome

end Skip

section Count

variable [Element α] {sub : RuleId → Nat → Run Outcome} {one : RuleId} {reps start len : Nat}

/-- The loop of a count comes to a number of matches in a row, whatever its bounds are, and has
that much less room from there on. -/
def RepeatsTo (sub : RuleId → Nat → Run Outcome) (one : RuleId) (reps start len : Nat) : Prop :=
  ∀ (label : String) (min max room : Nat) (ok : Outcome → Prop), (max = 0 ∨ reps ≤ max) →
    (∀ nodes, (repeated sub label one min max start room reps len nodes).Returns ok) →
    (repeated sub label one min max start (room + reps) 0 0 #[]).Returns ok

theorem RepeatsTo.zero : RepeatsTo sub one 0 start 0 := fun _ _ _ _ _ _ h => h #[]

theorem RepeatsTo.succ {more : Nat} (h : RepeatsTo sub one reps start len) (hmore : more ≠ 0)
    (hone : (sub one (start + len)).Returns (·.verdict = some more)) :
    RepeatsTo sub one (reps + 1) start (len + more) := by
  intro label min max room ok hmax hloop
  rw [Nat.add_comm reps 1, ← Nat.add_assoc]
  refine h label min max (room + 1) ok (by omega) fun nodes => ?_
  exact repetition_more_returns (by omega) hmore hone hloop

/-- A count comes to what the last round of its loop comes to. -/
theorem count_returns {id : RuleId} {min max : Nat} {verdict : Option Nat}
    (h : RepeatsTo sub one reps start len) (hreps : reps ≤ input.size - start)
    (hmax : max = 0 ∨ reps ≤ max)
    (hlast : ∀ again nodes,
      (repetition sub (g.label id) one min max start again reps len nodes).Returns
        (·.verdict = verdict)) :
    (Match.kind g input sub id (.count one min max) start).Returns (·.verdict = verdict) := by
  obtain ⟨room, hroom⟩ := Nat.exists_eq_add_of_le' hreps
  have hloop : (repeated sub (g.label id) one min max start (room + reps) 0 0 #[]).Returns
      (·.verdict = verdict) := by
    refine h (g.label id) min max room _ hmax fun nodes => ?_
    -- The loop ends in this round, so it makes no difference whether there is room for another.
    cases room with
    | zero => exact hlast _ nodes
    | succ room => exact hlast _ nodes
  rw [← hroom] at hloop
  exact hloop.map fun outcome houtcome => (Outcome.verdict_under ..).trans houtcome

end Count

theorem element_returns {id : RuleId} {test : α → Bool} {start : Nat} {p : Prop} [Decidable p]
    (hp : input[start]?.any test ↔ p) :
    (element input id test start : Run Outcome).Returns (·.verdict = if p then some 1 else none) := by
  rw [element]
  split
  · rename_i helement
    exact .pure (by rw [if_pos (hp.mp helement)]; rfl)
  · rename_i helement
    exact .miss (by rw [if_neg fun hpos => helement (hp.mpr hpos)]; rfl) fun _ _ => trivial

theorem entryOver_returns {id : RuleId} {severity : Severity} {message : String} {start : Nat}
    {guarded : Outcome} (hseverity : severity ≠ .fatal) :
    (entryOver g id severity message start guarded : Run Outcome).Returns (·.verdict = some 0) := by
  cases guarded with
  | failure => exact .pure rfl
  | success len nodes =>
      rw [entryOver, if_neg hseverity]
      exact (Run.Returns.record _).bind fun _ _ => .pure rfl

end Match

variable [Element α]

open Filter

/-- From some depth on, a rule comes to a verdict, from whatever trace. -/
def Graph.Settles (g : Graph α) (input : Array α) (id : RuleId) (start : Nat)
    (verdict : Option Nat) : Prop :=
  ∀ᶠ depth in atTop, ∀ limit,
    (g.runWithin input limit depth id start).Returns (·.verdict = verdict)

/-- A rule needs one level more than what it takes to match its kind. -/
theorem Graph.settles_of_kind {id : RuleId} {kind : Kind α} {start : Nat} {verdict : Option Nat}
    (hkind : g.kind? id = some kind)
    (h : ∀ᶠ depth in atTop, ∀ limit,
      (Match.kind g input (g.runWithin input limit depth) id kind start).Returns
        (·.verdict = verdict)) :
    g.Settles input id start verdict := by
  obtain ⟨rule, hrule, rfl⟩ := Option.map_eq_some_iff.mp hkind
  rw [Settles, ← map_add_atTop_eq_nat 1, eventually_map]
  filter_upwards [h] with depth hdepth limit
  rw [runWithin_succ hrule]
  refine (hdepth limit).map fun outcome houtcome => ?_
  rw [Outcome.verdict_mapNodes]
  exact houtcome

theorem Graph.settles_before {stop : RuleId} {start count : Nat}
    (h : ∀ before < count, g.Settles input stop (start + before) none) :
    ∀ᶠ depth in atTop, ∀ limit, ∀ before < count,
      (g.runWithin input limit depth stop (start + before)).Returns (·.verdict = none) := by
  -- A common depth is there since the positions are finitely many.
  have hall := (eventually_all_finset (Finset.range count)).mpr fun before hmem =>
    h before (Finset.mem_range.mp hmem)
  filter_upwards [hall] with depth hdepth limit before hlt
  exact hdepth before (Finset.mem_range.mpr hlt) limit

/-! ### Rules of each kind -/

section Kinds

variable {id one : RuleId} {start : Nat} {verdict : Option Nat}

theorem Graph.settles_unknown (hkind : g.kind? id = none) : g.Settles input id start none := by
  have hrule : g.rule? id = none := Option.map_eq_none_iff.mp hkind
  refine Eventually.of_forall fun depth limit => ?_
  rw [Graph.runWithin_unknown hrule]
  exact (Run.Returns.record _).bind fun _ _ => .pure rfl

theorem Graph.settles_any {min max : Nat} (hkind : g.kind? id = some (.any min max)) :
    g.Settles input id start (if input.size - start < min then none
      else some (if max = 0 then input.size - start else Nat.min (input.size - start) max)) := by
  refine settles_of_kind hkind (Eventually.of_forall fun depth limit => ?_)
  simp only [Match.kind, Match.anyOf]
  split
  · exact .miss rfl fun _ _ => trivial
  · exact .pure rfl

theorem Graph.settles_literal {values : List α} (hkind : g.kind? id = some (.literal values)) :
    g.Settles input id start
      (if values <+: input.toList.drop start then some values.length else none) := by
  refine settles_of_kind hkind (Eventually.of_forall fun depth limit => ?_)
  simp only [Match.kind, Match.allOf, Match.agreeing_eq_length_iff]
  split
  · rename_i hvalues
    rw [(Match.agreeing_eq_length_iff _ _).mpr hvalues]
    exact .pure rfl
  · exact .miss rfl fun _ _ => trivial

/-- A repetition comes to what its last round does.  There is room for all rounds before that, since
each of them consumes something. -/
theorem Graph.settles_count {min max reps len : Nat} (hkind : g.kind? id = some (.count one min max))
    (hrepeats : Repeats g input one reps start len)
    (hrounds : ∀ᶠ depth in atTop, ∀ limit,
      Match.RepeatsTo (g.runWithin input limit depth) one reps start len)
    (hmax : max = 0 ∨ reps ≤ max)
    (hlast : ∀ᶠ depth in atTop, ∀ limit again nodes,
      (Match.repetition (g.runWithin input limit depth) (g.label id) one min max start again reps len
        nodes).Returns (·.verdict = verdict)) :
    g.Settles input id start verdict := by
  have hle := Nat.le_trans hrepeats.reps_le hrepeats.len_le
  refine settles_of_kind hkind ?_
  filter_upwards [hrounds, hlast] with depth hdepth hend limit
  exact Match.count_returns (hdepth limit) hle hmax (hend limit)

theorem Graph.settles_not (hkind : g.kind? id = some (.not one))
    (h : g.Settles input one start verdict) :
    g.Settles input id start (if verdict.isSome then none else some 0) := by
  refine settles_of_kind hkind ?_
  filter_upwards [h] with depth hdepth limit
  refine (hdepth limit).bind fun outcome houtcome => ?_
  rw [← houtcome]
  cases outcome with
  | failure => exact .pure rfl
  | success len nodes => exact .pure rfl

theorem Graph.settles_condition (hkind : g.kind? id = some (.condition one))
    (h : g.Settles input one start verdict) :
    g.Settles input id start (verdict.map fun _ => 0) := by
  refine settles_of_kind hkind ?_
  filter_upwards [h] with depth hdepth limit
  refine (hdepth limit).bind fun outcome houtcome => ?_
  rw [← houtcome]
  cases outcome with
  | failure => exact .pure rfl
  | success len nodes => exact .pure rfl

variable {stopBefore failOnEnd : Bool}

theorem Graph.settles_skipFound {passed len : Nat}
    (hkind : g.kind? id = some (.skip one stopBefore failOnEnd))
    (hpassed : passed ≤ input.size - start)
    (hbefore : ∀ before < passed, g.Settles input one (start + before) none)
    (hstop : g.Settles input one (start + passed) (some len)) :
    g.Settles input id start (some (if stopBefore then passed else passed + len)) := by
  refine settles_of_kind hkind ?_
  filter_upwards [settles_before hbefore, hstop] with depth hdepth hfound limit
  exact Match.skip_found_returns hpassed (hdepth limit) (hfound limit)

theorem Graph.settles_skipEnd (hkind : g.kind? id = some (.skip one stopBefore failOnEnd))
    (hnowhere : ∀ passed ≤ input.size - start, g.Settles input one (start + passed) none) :
    g.Settles input id start (if failOnEnd then none else some (input.size - start)) := by
  have hsettled := settles_before fun before hlt => hnowhere before (Nat.le_of_lt_succ hlt)
  refine settles_of_kind hkind ?_
  filter_upwards [hsettled] with depth hdepth limit
  exact Match.skip_end_returns fun passed hle => hdepth limit passed (Nat.lt_succ_of_le hle)

theorem Graph.settles_breakpoint (hkind : g.kind? id = some (.breakpoint one))
    (h : g.Settles input one start verdict) : g.Settles input id start verdict := by
  refine settles_of_kind hkind ?_
  filter_upwards [h] with depth hdepth limit
  refine (Run.Returns.record _).bind fun _ _ => (hdepth limit).bind fun outcome houtcome => ?_
  exact (Run.Returns.record _).bind fun _ _ => .pure houtcome

end Kinds

mutual

/-- What has a derivation is what runs come to that have enough depth. -/
theorem Derives.settles (hordinary : g.Ordinary) {id : RuleId} {start : Nat}
    {verdict : Option Nat} : Derives g input id start verdict → g.Settles input id start verdict
  | .unknown hkind => Graph.settles_unknown hkind
  | .any hkind => Graph.settles_any hkind
  | .single hkind => Graph.settles_of_kind hkind
      (Eventually.of_forall fun _ _ => Match.element_returns (by simp [Option.any_eq_true]))
  | .set hkind => Graph.settles_of_kind hkind
      (Eventually.of_forall fun _ _ => Match.element_returns (by simp [Option.any_eq_true]))
  | .range hkind => Graph.settles_of_kind hkind
      (Eventually.of_forall fun _ _ => Match.element_returns (by simp [Option.any_eq_true]))
  | .literal hkind => Graph.settles_literal hkind
  | .sequence hkind h => by
      refine Graph.settles_of_kind hkind ?_
      filter_upwards [h.settles hordinary] with depth hdepth limit
      refine (hdepth limit start 0 #[] rfl).map fun outcome houtcome => ?_
      simpa using houtcome
  | .oneOf hkind h => by
      refine Graph.settles_of_kind hkind ?_
      filter_upwards [h.settles hordinary] with depth hdepth limit
      refine (hdepth limit).map fun outcome houtcome => ?_
      simpa using houtcome
  | .countFull hkind hmax h =>
      Graph.settles_count hkind h (h.settles hordinary) (.inr (Nat.le_refl _)) <|
        Eventually.of_forall fun _ _ _ _ => Match.repetition_full_returns hmax (Nat.le_refl _)
  | .countOver hkind hroom h hover => by
      refine Graph.settles_count hkind h (h.settles hordinary) (by omega) ?_
      filter_upwards [hover.settles hordinary] with depth hone limit again nodes
      exact Match.repetition_over_returns hroom (hone limit)
  | .countEndless hkind h hempty => by
      refine Graph.settles_count hkind h (h.settles hordinary) (.inl rfl) ?_
      filter_upwards [hempty.settles hordinary] with depth hone limit again nodes
      exact Match.repetition_endless_returns (hone limit)
  | .countFilled hkind hroom h hempty => by
      refine Graph.settles_count hkind h (h.settles hordinary) (.inr (Nat.le_of_lt hroom)) ?_
      filter_upwards [hempty.settles hordinary] with depth hone limit again nodes
      exact Match.repetition_filled_returns hroom (hone limit)
  | .not hkind h => Graph.settles_not hkind (h.settles hordinary)
  | .condition hkind h => Graph.settles_condition hkind (h.settles hordinary)
  | .skipFound hkind hpassed hbefore hstop =>
      Graph.settles_skipFound hkind hpassed (fun before hlt => (hbefore before hlt).settles hordinary)
        (hstop.settles hordinary)
  | .skipEnd hkind hnowhere =>
      Graph.settles_skipEnd hkind fun passed hle => (hnowhere passed hle).settles hordinary
  | .log hkind => Graph.settles_of_kind hkind
      (Eventually.of_forall fun _ _ => Match.entryOver_returns
        (by simpa [Kind.isOrdinary] using hordinary.kind_isOrdinary hkind))
  | .guardedLog hkind h => by
      refine Graph.settles_of_kind hkind ?_
      filter_upwards [h.settles hordinary] with depth hdepth limit
      exact (hdepth limit).bind fun guarded _ => Match.entryOver_returns
        (by simpa [Kind.isOrdinary] using hordinary.kind_isOrdinary hkind)
  | .breakpoint hkind h => Graph.settles_breakpoint hkind (h.settles hordinary)
  | .reference hkind h => by
      refine Graph.settles_of_kind hkind ?_
      filter_upwards [h.settles hordinary] with depth hdepth limit
      exact hdepth limit

theorem InOrder.settles (hordinary : g.Ordinary) {ids : List RuleId} {pos : Nat}
    {verdict : Option Nat} : InOrder g input ids pos verdict →
      ∀ᶠ depth in atTop, ∀ limit start len nodes, pos = start + len →
        (Match.inSequence (g.runWithin input limit depth) start ids len nodes).Returns
          (·.verdict = verdict.map (len + ·))
  | .nil => Eventually.of_forall fun _ _ _ _ _ _ => .pure rfl
  | .failure h => by
      filter_upwards [h.settles hordinary] with depth hdepth limit start len nodes hpos
      subst hpos
      refine (hdepth limit).bind fun outcome houtcome => ?_
      cases outcome with
      | failure => exact .pure rfl
      | success more found => cases houtcome
  | .success h hrest => by
      filter_upwards [h.settles hordinary, hrest.settles hordinary]
        with depth hdepth hafter limit start len nodes hpos
      subst hpos
      -- The lengths add up from the front: the rest starts where the first one ends.
      refine Match.inSequence_cons_returns (hdepth limit) (fun nodes => ?_) nodes
      refine (hafter limit start _ nodes (Nat.add_assoc ..)).mono (fun _ h => h)
        fun outcome houtcome => ?_
      rw [houtcome, Option.map_map]
      exact Option.map_congr fun rest _ => Nat.add_assoc ..

theorem FirstOf.settles (hordinary : g.Ordinary) {ids : List RuleId} {start : Nat}
    {verdict : Option Nat} : FirstOf g input ids start verdict →
      ∀ᶠ depth in atTop, ∀ limit,
        (Match.firstOf (g.runWithin input limit depth) start ids).Returns (·.verdict = verdict)
  | .nil => Eventually.of_forall fun _ _ => .pure rfl
  | .failure h hrest => by
      filter_upwards [h.settles hordinary, hrest.settles hordinary] with depth hdepth hafter limit
      refine (hdepth limit).bind fun outcome houtcome => ?_
      cases outcome with
      | failure => exact hafter limit
      | success len nodes => cases houtcome
  | .success h => by
      filter_upwards [h.settles hordinary] with depth hdepth limit
      refine (hdepth limit).bind fun outcome houtcome => ?_
      cases outcome with
      | failure => cases houtcome
      | success len nodes => exact .pure houtcome

theorem Repeats.settles (hordinary : g.Ordinary) {one : RuleId} {reps start len : Nat} :
    Repeats g input one reps start len →
      ∀ᶠ depth in atTop, ∀ limit,
        Match.RepeatsTo (g.runWithin input limit depth) one reps start len
  | .zero => Eventually.of_forall fun _ _ => Match.RepeatsTo.zero
  | .succ h hone hmore => by
      filter_upwards [h.settles hordinary, hone.settles hordinary] with depth hdepth hstep limit
      exact (hdepth limit).succ hmore (hstep limit)

end

/-! ## Agreement -/

theorem Graph.Settles.exists_matchAt {id : RuleId} {start : Nat} {verdict : Option Nat}
    (h : g.Settles input id start verdict) :
    ∃ limit outcome trace, g.matchAt input limit id start = (.ok outcome, trace) ∧
      outcome.verdict = verdict := by
  obtain ⟨limit, hlimit⟩ := h.exists
  exact ⟨limit, (hlimit limit).exists_result {}⟩

/-- A rule comes to one thing only: enough depth for two derivations makes them about one run. -/
theorem Derives.functional (hordinary : g.Ordinary) {id : RuleId} {start : Nat}
    {verdict verdict' : Option Nat} (h : Derives g input id start verdict)
    (h' : Derives g input id start verdict') : verdict = verdict' := by
  obtain ⟨depth, hrun, hrun'⟩ := ((h.settles hordinary).and (h'.settles hordinary)).exists
  have hrun := hrun depth
  have hrun' := hrun' depth
  obtain ⟨outcome, after, hresult, hverdict⟩ := hrun.exists_result {}
  obtain ⟨outcome', after', hresult', hverdict'⟩ := hrun'.exists_result {}
  rw [hresult] at hresult'
  cases hresult'
  exact hverdict.symm.trans hverdict'

/-- In a primitive graph a rule has at most one derivation at each position, and it derives just
what some match of it comes to. -/
theorem Graph.derives_iff_exists_matchAt (hprimitive : g.Primitive) (input : Array α) (id : RuleId)
    (start : Nat) :
    (∀ verdict verdict', Derives g input id start verdict → Derives g input id start verdict' →
      verdict = verdict') ∧
    ∀ verdict, Derives g input id start verdict ↔
      ∃ limit outcome trace, g.matchAt input limit id start = (.ok outcome, trace) ∧
        outcome.verdict = verdict := by
  refine ⟨fun _ _ h h' => h.functional hprimitive.ordinary h', fun verdict => ?_⟩
  constructor
  · intro h
    exact (h.settles hprimitive.ordinary).exists_matchAt
  · rintro ⟨limit, outcome, trace, hmatch, rfl⟩
    exact (runWithin_yields hprimitive.ordinary limit limit id start).of_result hmatch

/-- Pairs of parentheses, each around any number of others. -/
def Graph.nestedParens : Graph Char where
  rules := #[.ofKind (.single '('), .ofKind (.single ')'), .ofKind (.count ⟨3⟩ 0 0),
    (Rule.ofKind (.sequence [⟨0⟩, ⟨2⟩, ⟨1⟩])).pruned .all]
  root := some ⟨3⟩

theorem Graph.nestedParens_derives_iff :
    nestedParens.Primitive ∧ ∀ verdict,
      Derives nestedParens #['(', '(', ')', ')'] ⟨3⟩ 0 verdict ↔ verdict = some 4 := by
  have hprimitive : nestedParens.Primitive := by decide
  have hmatch : nestedParens.matchAt #['(', '(', ')', ')'] 6 ⟨3⟩ 0 =
      (.ok (.success 4 []), { farthest := 3 }) := by rfl
  obtain ⟨hunique, hiff⟩ :=
    nestedParens.derives_iff_exists_matchAt hprimitive #['(', '(', ')', ')'] ⟨3⟩ 0
  have hderives := (hiff (some 4)).mpr ⟨6, _, _, hmatch, rfl⟩
  refine ⟨hprimitive, fun verdict => ⟨fun h => hunique _ _ h hderives, ?_⟩⟩
  rintro rfl
  exact hderives

end RuleScript
