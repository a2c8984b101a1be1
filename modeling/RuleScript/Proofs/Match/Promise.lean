import Mathlib.Data.Nat.Basic
import RuleScript.Proofs.Logs
import RuleScript.Proofs.Match.Loops

/-!
# What every match of a rule comes to

`Graph.Promises` is about one rule at one position and about all runs of it: whatever a run comes to
there is as asked, however deep its rules may be nested.  A run that is aborted keeps any promise,
so what is said about a whole graph can be put together from its rules without counting depths.

The other half of the module takes a repetition without bound apart into the rounds it made.  A
`Rounds` is about any kind of `step`, because what is known of a round differs from use to use: that
it has a derivation, that a run came to it, or that every run does.
-/

namespace RuleScript

namespace Outcome

/-- A success goes from `start` to where it ends in the way of `step`; a failure is of one of those
that `fails` knows. -/
def Moves (fails : Nat → Prop) (step : Nat → Nat → List Node → Prop) (start : Nat) :
    Outcome → Prop
  | failure => fails start
  | success len nodes => step start (start + len) nodes

/-- A success goes from `start` to where it ends in the way of `step`. -/
abbrev Steps (step : Nat → Nat → List Node → Prop) (start : Nat) : Outcome → Prop :=
  Moves (fun _ => True) step start

theorem Steps.mono {step step' : Nat → Nat → List Node → Prop} {start : Nat} {outcome : Outcome}
    (h : outcome.Steps step start)
    (hstep : ∀ stop nodes, step start stop nodes → step' start stop nodes) :
    outcome.Steps step' start := by
  cases outcome with
  | failure => trivial
  | success len nodes => exact hstep _ _ h

@[simp] theorem mapNodes_prune_none {α : Type} (g : Graph α) (outcome : Outcome) :
    outcome.mapNodes (g.prune .none) = outcome := by
  cases outcome with
  | failure => rfl
  | success len nodes => rw [mapNodes, Graph.prune_none]

end Outcome

/-! ## Promises -/

namespace Graph

variable {α : Type} [Element α] {g : Graph α} {input : Array α} {id : RuleId} {start : Nat}
variable {ok ok' : Outcome → Prop}

/-- Whatever a match of a rule comes to at a position is `ok`. -/
def Promises (g : Graph α) (input : Array α) (id : RuleId) (start : Nat) (ok : Outcome → Prop) :
    Prop :=
  ∀ limit depth, (g.runWithin input limit depth id start).Yields ok

theorem Promises.mono (h : g.Promises input id start ok) (hok : ∀ outcome, ok outcome → ok' outcome) :
    g.Promises input id start ok' :=
  fun limit depth => (h limit depth).mono (fun _ h => h) hok

theorem Promises.and (h : g.Promises input id start ok) (h' : g.Promises input id start ok') :
    g.Promises input id start fun outcome => ok outcome ∧ ok' outcome :=
  fun limit depth => (h limit depth).and (h' limit depth)

/-- What a rule inside of a match comes to is what it promises. -/
def Keeps (g : Graph α) (input : Array α) (sub : RuleId → Nat → Run Outcome) : Prop :=
  ∀ id pos ok, g.Promises input id pos ok → (sub id pos).Yields ok

/-- A rule promises what its kind does, once it is pruned. -/
theorem promises_of_rule {rule : Rule α} (hrule : g.rule? id = some rule)
    (h : ∀ sub, g.Keeps input sub →
      (Match.kind g input sub id rule.kind start).Yields fun outcome =>
        ok (outcome.mapNodes (g.prune rule.pruning))) :
    g.Promises input id start ok := by
  intro limit depth
  cases depth with
  | zero =>
      rw [runWithin_zero hrule]
      exact .throw trivial
  | succ depth =>
      rw [runWithin_succ hrule]
      exact (h _ fun one pos ok hone => hone limit depth).map fun _ houtcome => houtcome

theorem Promises.of_result {limit depth : Nat} {trace after : Trace} {outcome : Outcome}
    (h : g.Promises input id start ok)
    (hresult : (g.runWithin input limit depth id start).result trace = (.ok outcome, after)) :
    ok outcome :=
  (h limit depth).of_result hresult

/-- What the root promises, a match from the root comes to. -/
theorem Promises.of_matchRoot {root : RuleId} {limit : Nat} {trace : Trace} {outcome : Outcome}
    (h : g.Promises input root 0 ok) (hroot : g.root = some root)
    (hresult : g.matchRoot input limit = (.ok outcome, trace)) : ok outcome := by
  rw [matchRoot, runRoot, hroot] at hresult
  exact h.of_result hresult

end Graph

/-! ## Rounds -/

/-- A number of steps, each from where the one before it ended, and the nodes that they leave. -/
inductive Rounds (step : Nat → Nat → List Node → Prop) : Nat → Nat → Nat → List Node → Prop
  | nil {pos : Nat} : Rounds step 0 pos pos []
  | cons {reps start mid stop : Nat} {nodes nodes' : List Node} (h : step start mid nodes)
      (hrest : Rounds step reps mid stop nodes') :
      Rounds step (reps + 1) start stop (nodes ++ nodes')

namespace Rounds

variable {step step' : Nat → Nat → List Node → Prop} {reps start mid stop : Nat}
variable {nodes nodes' : List Node}

theorem snoc (h : Rounds step reps start mid nodes) (hlast : step mid stop nodes') :
    Rounds step (reps + 1) start stop (nodes ++ nodes') := by
  induction h with
  | nil => simpa using Rounds.cons hlast .nil
  | cons hfirst _ ih =>
      rw [List.append_assoc]
      exact .cons hfirst (ih hlast)

theorem append {more : Nat} (h : Rounds step reps start mid nodes)
    (hrest : Rounds step more mid stop nodes') :
    Rounds step (reps + more) start stop (nodes ++ nodes') := by
  induction h with
  | nil => rwa [Nat.zero_add, List.nil_append]
  | cons hfirst _ ih =>
      rw [List.append_assoc, Nat.add_right_comm]
      exact .cons hfirst (ih hrest)

theorem mono (h : Rounds step reps start stop nodes)
    (hstep : ∀ pos mid found, step pos mid found → step' pos mid found) :
    Rounds step' reps start stop nodes := by
  induction h with
  | nil => exact .nil
  | cons hfirst _ ih => exact .cons (hstep _ _ _ hfirst) ih

/-- Steps that go forward end where all of them end at the latest. -/
theorem inside (h : Rounds step reps start stop nodes)
    (hstep : ∀ pos mid found, step pos mid found → pos ≤ mid) :
    start ≤ stop ∧
      Rounds (fun pos mid found => step pos mid found ∧ mid ≤ stop) reps start stop nodes := by
  induction h with
  | nil => exact ⟨Nat.le_refl _, .nil⟩
  | cons hfirst _ ih =>
      exact ⟨Nat.le_trans (hstep _ _ _ hfirst) ih.1, .cons ⟨hfirst, ih.1⟩ ih.2⟩

/-- Steps that go forward, each from inside an input, are no more than there are elements left. -/
theorem reps_le {size : Nat} (h : Rounds step reps start stop nodes)
    (hstep : ∀ pos mid found, step pos mid found → pos < mid ∧ pos < size) :
    reps ≤ size - start := by
  induction h with
  | nil => exact Nat.zero_le _
  | cons hfirst _ ih =>
      have hlt := hstep _ _ _ hfirst
      omega

end Rounds

namespace Match

variable {sub : RuleId → Nat → Run Outcome} {id : RuleId} {label : String} {start : Nat}
variable {fails : Nat → Prop} {step : Nat → Nat → List Node → Prop}

/-- What a repetition without bound may come to: at least `min` rounds up to where the rule fails,
or to beyond the end of the input.  It fails only for want of rounds, or for a round that consumes
nothing. -/
def Repetition (fails : Nat → Prop) (step : Nat → Nat → List Node → Prop) (size min start : Nat) :
    Outcome → Prop
  | .failure => (∀ pos found, ¬ step pos pos found) → 0 < min
  | .success len nodes =>
    ∃ reps, min ≤ reps ∧ Rounds step reps start (start + len) nodes ∧
      (fails (start + len) ∨ size < start + len)

/-- A repetition without bound makes rounds of what the rule does. -/
theorem repeated_rounds (hsub : ∀ pos, (sub id pos).Yields (·.Moves fails step pos))
    {size min : Nat} (room reps len : Nat) (nodes : Array Node)
    (hrounds : Rounds step reps start (start + len) nodes.toList)
    (hroom : size ≤ start + len + room) :
    (repeated sub label id min 0 start room reps len nodes).Yields
      (Repetition fails step size min start) := by
  -- The loop stops with a failed round, or because the input is over.
  have henough {reps len : Nat} {nodes : Array Node}
      (hrounds : Rounds step reps start (start + len) nodes.toList)
      (hend : fails (start + len) ∨ size < start + len) :
      Repetition fails step size min start (enough min reps len nodes) := by
    rw [enough]
    split
    · exact fun _ => by omega
    · exact ⟨reps, by omega, hrounds, hend⟩
  -- One round, whatever is done after it.
  have hround (again : Nat → Nat → Array Node → Run Outcome) (reps len : Nat) (nodes : Array Node)
      (hrounds : Rounds step reps start (start + len) nodes.toList)
      (hagain : ∀ more (found : List Node), more ≠ 0 →
        Rounds step (reps + 1) start (start + (len + more)) (nodes ++ found).toList →
        (again (reps + 1) (len + more) (nodes ++ found)).Yields
          (Repetition fails step size min start)) :
      (repetition sub label id min 0 start again reps len nodes).Yields
        (Repetition fails step size min start) := by
    refine repetition_meets (hsub (start + len)) ?_ ?_ ?_ ?_ ?_
    · exact fun hmax => absurd rfl hmax
    · exact fun _ hfails => henough hrounds (.inl hfails)
    · exact fun found _ hempty => (Run.Yields.record _).bind fun _ _ =>
        .pure fun hnone => absurd hempty (hnone _ found)
    · exact fun _ hmax => absurd rfl hmax
    · intro more found _ hmore hstep
      refine hagain more found hmore ?_
      rw [Array.toList_appendList, ← Nat.add_assoc]
      exact hrounds.snoc hstep
  induction room generalizing reps len nodes with
  | zero =>
      refine hround _ reps len nodes hrounds fun more found hmore hrounds => .pure ?_
      exact henough hrounds (.inr (by omega))
  | succ room ih =>
      refine hround _ reps len nodes hrounds fun more found hmore hrounds => ?_
      exact ih _ _ _ hrounds (by omega)

variable {inv : Trace → Prop} {bad : Abort → Prop}

/-- A repetition without bound makes just those rounds that the rule makes, up to where it fails. -/
theorem repeated_exact {min stop : Nat} {found : List Node}
    (hstep : ∀ pos mid found, step pos mid found →
      pos < mid ∧ (sub id pos).Meets inv bad (· = .success (mid - pos) found))
    (hstop : (sub id stop).Meets inv bad (· = .failure)) {reps more len : Nat} {nodes : Array Node}
    (hrounds : Rounds step more (start + len) stop found) (hmin : min ≤ reps + more) {room : Nat}
    (hroom : more ≤ room) :
    (repeated sub label id min 0 start room reps len nodes).Meets inv bad
      (· = .success (stop - start) (nodes.toList ++ found)) := by
  generalize hpos : start + len = pos at hrounds
  induction hrounds generalizing reps len nodes room with
  | @nil pos =>
      subst hpos
      have hend : enough min reps len nodes = .success (start + len - start) (nodes.toList ++ []) := by
        rw [enough, if_neg (by omega), Nat.add_sub_cancel_left, List.append_nil]
      -- No round is left, and the next one fails, so the loop ends with what it has.
      have hround (again : Nat → Nat → Array Node → Run Outcome) :
          (repetition sub label id min 0 start again reps len nodes).Meets inv bad
            (· = .success (start + len - start) (nodes.toList ++ [])) := by
        refine repetition_meets hstop (fun hmax => absurd rfl hmax) (fun _ _ => hend) ?_ ?_ ?_
        · exact fun _ _ hempty => Outcome.noConfusion hempty
        · exact fun _ hmax => absurd rfl hmax
        · exact fun _ _ _ _ hmore => Outcome.noConfusion hmore
      cases room with
      | zero => exact hround _
      | succ room => exact hround _
  | @cons more pos mid stop nodes' rest hfirst hrest ih =>
      subst hpos
      obtain ⟨hlt, hrun⟩ := hstep _ _ _ hfirst
      cases room with
      | zero => omega
      | succ room =>
          refine repetition_meets hrun (fun hmax => absurd rfl hmax) ?_ ?_ ?_ ?_
          · exact fun _ hfailure => Outcome.noConfusion hfailure
          · intro _ _ hempty
            have hzero := (Outcome.success.inj hempty).1
            omega
          · exact fun _ hmax => absurd rfl hmax
          · intro len' found' _ _ hmore
            -- The round is the first of the derivation, and the others are left to the induction.
            obtain ⟨rfl, rfl⟩ := Outcome.success.inj hmore
            refine (ih hstop (by omega) (Nat.le_of_succ_le_succ hroom) (by omega)).mono
              (fun _ h => h) ?_
            rintro _ rfl
            rw [Array.toList_appendList, List.append_assoc]

/-- One element is matched just where it stands. -/
theorem single_exact {α : Type} [Element α] (g : Graph α) (input : Array α) (id : RuleId)
    (value : α) (start : Nat) :
    (Match.kind g input sub id (.single value) start).Meets (fun _ => True) bad
      (· = if input[start]? = some value then .success 1 [.leaf id ⟨start, 1⟩] else .failure) := by
  have htest : input[start]?.any (· = value) ↔ input[start]? = some value := by
    simp [Option.any_eq_true]
  simp only [Match.kind, element]
  split
  · rename_i helement
    rw [if_pos (htest.mp helement)]
    exact .pure rfl
  · rename_i helement
    rw [if_neg fun h => helement (htest.mpr h)]
    exact .miss rfl fun _ _ => trivial

/-- At most one match: what the rule comes to, or nothing where it fails. -/
theorem repeated_once (room : Nat) :
    repeated sub label id 0 1 start room 0 0 #[] =
      (fun outcome => match outcome with
        | .failure => .success 0 []
        | .success len nodes => .success len nodes) <$> sub id start := by
  rw [map_eq_pure_bind]
  cases room with
  | zero =>
      rw [repeated, repetition, if_neg (by omega)]
      congr 1
      funext outcome
      rcases outcome with _ | ⟨_ | len, nodes⟩ <;> simp [enough]
  | succ room =>
      rw [repeated, repetition, if_neg (by omega)]
      congr 1
      funext outcome
      -- After a round that consumes, the count is full.
      have hfull (len : Nat) (nodes : Array Node) :
          repeated sub label id 0 1 start room 1 len nodes = pure (.success len nodes.toList) := by
        cases room with
        | zero => rw [repeated, repetition, if_pos (by omega)]; rfl
        | succ room => rw [repeated, repetition, if_pos (by omega)]; rfl
      rcases outcome with _ | ⟨_ | len, nodes⟩ <;> simp [enough, hfull]

end Match

end RuleScript
