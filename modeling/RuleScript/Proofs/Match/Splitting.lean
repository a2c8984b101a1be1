import RuleScript.Proofs.Match.Fence
import RuleScript.Proofs.Match.Suffix

/-!
# Repetitions over an input in two parts

A repetition that takes all of an input is the sum of its rounds.  If the first part of an input
ends with a post, no round that starts in it looks behind the post, so the rounds over the first
part are those there would be if the second part was missing; and what comes after the post is
matched as if the first part was missing.  So the tree for the whole input is put together from the
trees for its two parts (`Graph.matchRoot_append`).
-/

namespace RuleScript

open Node

variable {α : Type} [Element α] {g : Graph α} {input : Array α} {limit depth : Nat}

namespace Graph

/-- What a match comes to once, it comes to always. -/
theorem yields_returns (g : Graph α) (input : Array α) (limit depth : Nat) (id : RuleId)
    (start : Nat) :
    (g.runWithin input limit depth id start).Yields fun outcome =>
      (g.runWithin input limit depth id start).Returns (· = outcome) := by
  obtain ⟨result, more, hrun⟩ := g.runWithin_uniform input limit depth id start
  intro trace _
  rw [hrun trace]
  refine ⟨trivial, ?_⟩
  cases result with
  | error cause => trivial
  | ok outcome =>
      intro other _
      rw [hrun other]
      exact ⟨trivial, rfl⟩

/-- Every match of a rule goes from one position on to another, with these nodes. -/
def StepsFor (g : Graph α) (input : Array α) (limit depth : Nat) (one : RuleId)
    (pos mid : Nat) (found : List Node) : Prop :=
  pos < mid ∧ (g.runWithin input limit depth one pos).Returns (· = .success (mid - pos) found)

variable {root one : RuleId}

/-- A match that is not aborted has at least one level of depth. -/
theorem TakesAll.exists_depth (h : g.TakesAll root one) {outcome : Outcome} {trace : Trace}
    (hmatch : g.matchRoot input limit = (.ok outcome, trace)) :
    ∃ depth, limit = depth + 1 ∧
      (g.runWithin input limit (depth + 1) root 0).result {} = (.ok outcome, trace) := by
  obtain ⟨rule, hrule, -⟩ := h.exists_rule
  rw [matchRoot, runRoot, h.isRoot] at hmatch
  change (g.runWithin input limit limit root 0).result {} = _ at hmatch
  cases limit with
  | zero =>
      rw [runWithin_zero hrule] at hmatch
      cases hmatch
  | succ depth => exact ⟨depth, rfl, hmatch⟩

/-- A match from the root comes to a sum of rounds over all of the input. -/
theorem TakesAll.exists_rounds (h : g.TakesAll root one) {outcome : Outcome} {trace : Trace}
    (hmatch : g.matchRoot input limit = (.ok outcome, trace)) :
    ∃ depth, limit = depth + 1 ∧ ∃ reps nodes,
      outcome = .success input.size [⟨root, ⟨0, input.size⟩, nodes⟩] ∧
      Rounds (g.StepsFor input limit depth one) reps 0 input.size nodes ∧
      (g.runWithin input limit depth one input.size).Returns (· = .failure) := by
  obtain ⟨rule, hrule, hprune, hkind⟩ := h.exists_rule
  have hcount : g.kind? root = some (.count one 0 0) :=
    (kind?_eq_some hrule).trans (congrArg some hkind)
  obtain ⟨fuel, hsurely⟩ := h.surely
  have hall := promises_catchAll h.primitive h.valid hcount hsurely (Nat.zero_le input.size)
  obtain ⟨depth, rfl, hresult⟩ := h.exists_depth hmatch
  refine ⟨depth, rfl, ?_⟩
  -- Each step is known with the run that makes it, so that it can be repeated elsewhere.
  have hone (pos : Nat) : (g.runWithin input (depth + 1) depth one pos).Yields (·.Moves
      (fun pos => (g.runWithin input (depth + 1) depth one pos).Returns (· = .failure))
      (g.StepsFor input (depth + 1) depth one) pos) := by
    have hprogress : g.Promises input one pos _ :=
      promises_progress h.primitive.ordinary h.valid hcount pos
    refine ((yields_returns g input (depth + 1) depth one pos).and
      (hprogress (depth + 1) depth)).mono (fun _ h => h) fun outcome houtcome => ?_
    cases outcome with
    | failure => exact houtcome.1
    | success len nodes =>
        refine ⟨houtcome.2, ?_⟩
        rw [Nat.add_sub_cancel_left]
        exact houtcome.1
  -- The rounds end in front of a failure, and that is at the end of the input.
  have hrounds : (g.runWithin input (depth + 1) (depth + 1) root 0).Yields fun outcome =>
      ∀ len nodes, outcome = .success len nodes → ∃ reps found,
        nodes = [⟨root, ⟨0, len⟩, found⟩] ∧
        Rounds (g.StepsFor input (depth + 1) depth one) reps 0 len found ∧
        ((g.runWithin input (depth + 1) depth one len).Returns (· = .failure) ∨
          input.size < len) := by
    rw [runWithin_succ hrule, Match.rule, hprune, hkind]
    simp only [Match.kind, Functor.map_map, Outcome.mapNodes_prune_none]
    have hroom : input.size ≤ 0 + 0 + (input.size - 0) := by omega
    refine (Match.repeated_rounds hone _ 0 0 #[] .nil hroom).map fun outcome houtcome => ?_
    rintro len nodes hsuccess
    cases outcome with
    | failure => cases hsuccess
    | success len' found =>
        obtain ⟨rfl, rfl⟩ := Outcome.success.inj hsuccess
        obtain ⟨reps, -, hreps, hend⟩ := houtcome
        rw [Nat.zero_add] at hreps hend
        exact ⟨reps, found, rfl, hreps, hend⟩
  obtain ⟨nodes, rfl⟩ := hall.of_result hresult
  obtain ⟨reps, found, rfl, hreps, hend⟩ := hrounds.of_result hresult _ _ rfl
  exact ⟨reps, found, rfl, hreps, hend.resolve_right (Nat.lt_irrefl _)⟩

/-- Rounds over all of an input are what a match from the root comes to. -/
theorem TakesAll.matchRoot_of_rounds (h : g.TakesAll root one) {reps : Nat} {nodes : List Node}
    (hrounds : Rounds (g.StepsFor input (depth + 1) depth one) reps 0 input.size nodes)
    (hend : (g.runWithin input (depth + 1) depth one input.size).Returns (· = .failure)) :
    ∃ trace, g.matchRoot input (depth + 1) =
      (.ok (.success input.size [⟨root, ⟨0, input.size⟩, nodes⟩]), trace) := by
  obtain ⟨rule, hrule, hprune, hkind⟩ := h.exists_rule
  have hrun : (g.runWithin input (depth + 1) (depth + 1) root 0).Returns
      (· = .success input.size [⟨root, ⟨0, input.size⟩, nodes⟩]) := by
    have hinside := (hrounds.inside fun _ _ _ hstep => Nat.le_of_lt hstep.1).2
    -- Every round consumes, so there is room enough for all of them.
    have hreps := hinside.reps_le fun pos mid found hstep =>
      ⟨hstep.1.1, Nat.lt_of_lt_of_le hstep.1.1 hstep.2⟩
    rw [runWithin_succ hrule, Match.rule, hprune, hkind]
    simp only [Match.kind, Functor.map_map, Outcome.mapNodes_prune_none]
    refine (Match.repeated_exact (fun pos mid found
      (hstep : g.StepsFor input (depth + 1) depth one pos mid found) => hstep) hend hrounds
      (Nat.zero_le _) hreps).map ?_
    rintro _ rfl
    rfl
  obtain ⟨_, trace, hresult, rfl⟩ := hrun.exists_result {}
  refine ⟨trace, ?_⟩
  rw [matchRoot, runRoot, h.isRoot]
  exact hresult

/-- A step in front of a post is also one over an input that goes on behind the post. -/
theorem StepsFor.append {F : Fence α} (hF : F.Guards g) (hone : F.endsWith one) {u : Array α}
    (hpost : u.back? = some F.post) {pos mid : Nat} {found : List Node}
    (h : g.StepsFor u limit depth one pos mid found) (hmid : mid ≤ u.size) (v : Array α) :
    g.StepsFor (u ++ v) limit depth one pos mid found := by
  have hlt := h.1
  have hsame : F.SameUpTo u (u ++ v) (u.size - 1) := by
    refine ⟨fun pos hpos => Array.getElem?_append_left (by omega), ?_⟩
    rw [← hpost, Array.back?]
  have htied := (Fence.runWithin_tied hF hsame limit depth).upTo one pos hone (by omega)
  refine ⟨hlt, Run.Compares.returns htied (fun trace => ⟨trace, rfl⟩) h.2 ?_⟩
  rintro _ outcome ⟨rfl, -⟩ rfl
  rfl

theorem StepsFor.movedOn {v : Array α} {pos mid : Nat} {found : List Node}
    (h : g.StepsFor v limit depth one pos mid found) (u : Array α) :
    g.StepsFor (u ++ v) limit depth one (pos + u.size) (mid + u.size)
      (forestMovedOn u.size found) := by
  refine ⟨Nat.add_lt_add_right h.1 _, ?_⟩
  rw [Nat.add_sub_add_right]
  exact returns_append h.2 u

theorem rounds_movedOn {v : Array α} {reps start stop : Nat} {nodes : List Node}
    (h : Rounds (g.StepsFor v limit depth one) reps start stop nodes) (u : Array α) :
    Rounds (g.StepsFor (u ++ v) limit depth one) reps (start + u.size) (stop + u.size)
      (forestMovedOn u.size nodes) := by
  induction h with
  | nil => exact .nil
  | cons hfirst _ ih =>
      rw [forestMovedOn_append]
      exact .cons (hfirst.movedOn u) ih

/-- **What comes after a post does not change what comes before it, nor the other way round**: the
tree for two inputs in one holds what the trees for the two hold, the second moved on. -/
theorem TakesAll.matchRoot_append (h : g.TakesAll root one) {F : Fence α} (hF : F.Guards g)
    (hone : F.endsWith one) {u v : Array α} (hpost : u.back? = some F.post)
    {outcome outcome' : Outcome} {trace trace' : Trace}
    (hu : g.matchRoot u limit = (.ok outcome, trace))
    (hv : g.matchRoot v limit = (.ok outcome', trace')) :
    ∃ nodes nodes', outcome = .success u.size [⟨root, ⟨0, u.size⟩, nodes⟩] ∧
      outcome' = .success v.size [⟨root, ⟨0, v.size⟩, nodes'⟩] ∧
      ∃ trace, g.matchRoot (u ++ v) limit = (.ok (.success (u ++ v).size
        [⟨root, ⟨0, (u ++ v).size⟩, nodes ++ forestMovedOn u.size nodes'⟩]), trace) := by
  obtain ⟨depth, rfl, reps, nodes, rfl, hrounds, -⟩ := h.exists_rounds hu
  obtain ⟨_, heq, reps', nodes', rfl, hrounds', hend⟩ := h.exists_rounds hv
  cases heq
  refine ⟨nodes, nodes', rfl, rfl, ?_⟩
  -- The rounds of the first part do not look behind the post, so they stay what they are.
  have hfirst : Rounds (g.StepsFor (u ++ v) (depth + 1) depth one) reps 0 u.size nodes :=
    (hrounds.inside fun _ _ _ hstep => Nat.le_of_lt hstep.1).2.mono
      fun _ _ _ hstep => hstep.1.append hF hone hpost hstep.2 v
  -- Those of the second part are moved to the end of the first.
  have hsecond := rounds_movedOn hrounds' u
  rw [Nat.zero_add] at hsecond
  have hsize : (u ++ v).size = v.size + u.size := by rw [Array.size_append, Nat.add_comm]
  have hall := hfirst.append hsecond
  rw [← hsize] at hall
  refine h.matchRoot_of_rounds hall ?_
  rw [hsize]
  exact returns_append hend u

end Graph

end RuleScript
