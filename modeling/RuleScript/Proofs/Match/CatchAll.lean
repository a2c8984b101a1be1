import RuleScript.Proofs.Match.Agreement
import RuleScript.Proofs.Match.Bounds
import RuleScript.Proofs.Match.Derivation
import RuleScript.Proofs.Match.EmptyMatch
import RuleScript.Proofs.Match.Promise

/-!
# Rules that take all there is

A grammar that is to say something about any input ends in a rule that takes whatever comes, and
repeats it.  `Graph.surely` finds out that a rule cannot fail as long as there is an element left;
together with `Graph.validate`, by which a repeated rule never matches nothing, this makes the
repetition consume the input to its end (`Graph.promises_catchAll`).
-/

namespace RuleScript

/-! ## Rules that cannot fail -/

namespace Graph

variable {α : Type}

/-- Whether rules of a kind consume nothing. -/
def isZeroWidth (g : Graph α) (id : RuleId) : Bool :=
  match g.kind? id with
  | some (.log ..) | some (.not _) | some (.condition _) => true
  | _ => false

/-- Whether rules one after the other cannot fail, given which rules alone cannot.  Only as long as
nothing was consumed is there still an element left. -/
def surelyAll (g : Graph α) (sure : Bool → RuleId → Bool) : Bool → List RuleId → Bool
  | _, [] => true
  | inside, id :: ids => sure inside id && surelyAll g sure (inside && g.isZeroWidth id) ids

/-- Whether a rule cannot fail: wherever it is matched, or only where an element is left
(`inside`).  Rules are looked into as deep as there is fuel. -/
def surely (g : Graph α) : (fuel : Nat) → (inside : Bool) → RuleId → Bool
  | 0, _, _ => false
  | fuel + 1, inside, id =>
    match g.kind? id with
    | some (.any min _) => min = 0 || inside && min = 1
    | some (.log ..) | some (.skip _ _ false) => true
    | some (.oneOf ids) => ids.any (g.surely fuel inside)
    | some (.sequence ids) => g.surelyAll (g.surely fuel) inside ids
    | _ => false

end Graph

namespace Match

variable {sub : RuleId → Nat → Run Outcome} {start : Nat}

/-- A skip that may end with the input does not fail. -/
theorem skipTo_succeeds (stop : RuleId) (stopBefore : Bool) (room passed : Nat) :
    (skipTo sub stop stopBefore false start room passed).Yields (· ≠ .failure) := by
  have hstop (passed len : Nat) (nodes : List Node) :
      (if stopBefore then .success passed [] else .success (passed + len) nodes) ≠
        Outcome.failure := by
    split <;> exact Outcome.noConfusion
  induction room generalizing passed with
  | zero =>
      exact stopOr_meets (Run.Yields.trivial _) (fun _ _ _ => hstop _ _ _)
        fun _ => .pure Outcome.noConfusion
  | succ room ih =>
      exact stopOr_meets (Run.Yields.trivial _) (fun _ _ _ => hstop _ _ _) fun _ => ih _

theorem firstOf_succeeds {ids : List RuleId} {id : RuleId} (hid : id ∈ ids)
    (hsub : (sub id start).Yields (· ≠ .failure)) :
    (firstOf sub start ids).Yields (· ≠ .failure) := by
  induction ids with
  | nil => cases hid
  | cons first rest ih =>
      have hgo {ok : Outcome → Prop} (hrun : (sub first start).Yields ok)
          (hrest : ok .failure → (firstOf sub start rest).Yields (· ≠ .failure)) :
          (firstOf sub start (first :: rest)).Yields (· ≠ .failure) := by
        refine hrun.bind fun outcome houtcome => ?_
        cases outcome with
        | failure => exact hrest houtcome
        | success len nodes => exact .pure Outcome.noConfusion
      rcases List.mem_cons.mp hid with rfl | hid
      · exact hgo hsub fun hfailure => absurd rfl hfailure
      · exact hgo (.trivial _) fun _ => ih hid

theorem entryOver_zeroWidth {α : Type} (g : Graph α) (id : RuleId) (severity : Severity)
    (message : String) (start : Nat) (guarded : Outcome) :
    (entryOver g id severity message start guarded : Run Outcome).Yields
      fun outcome => ∃ nodes, outcome = .success 0 nodes := by
  cases guarded with
  | failure => exact .pure ⟨_, rfl⟩
  | success len nodes =>
      rw [entryOver]
      split
      · exact .throw trivial
      · exact (Run.Yields.record _).bind fun _ _ => .pure ⟨_, rfl⟩

/-- A log rule consumes nothing, whether or not it leaves an entry. -/
theorem logEntry_zeroWidth {α : Type} (g : Graph α) (id : RuleId) (severity : Severity)
    (message : String) (guard : Option RuleId) :
    (logEntry g sub id severity message guard start).Yields
      fun outcome => ∃ nodes, outcome = .success 0 nodes := by
  cases guard with
  | none => exact entryOver_zeroWidth g id severity message start _
  | some guard =>
      exact (Run.Yields.trivial _).bind fun _ _ => entryOver_zeroWidth g id severity message start _

end Match

namespace Graph

variable {α : Type} [Element α] {g : Graph α} {input : Array α} {id : RuleId} {start : Nat}

theorem promises_zeroWidth (h : g.isZeroWidth id) (input : Array α) (start : Nat) :
    g.Promises input id start (·.Steps (fun start stop _ => stop = start) start) := by
  rw [isZeroWidth] at h
  cases hrule : g.rule? id with
  | none => simp [kind?_eq_none hrule] at h
  | some rule =>
      refine promises_of_rule hrule fun sub _ => ?_
      rw [kind?_eq_some hrule] at h
      -- An entry, a negation and a condition are all that never moves on.
      cases hkind : rule.kind with
      | log severity message guard =>
          refine (Match.logEntry_zeroWidth g id severity message guard).mono (fun _ h => h) ?_
          rintro _ ⟨nodes, rfl⟩
          rfl
      | not one =>
          refine (Run.Yields.trivial (sub one start)).bind fun outcome _ => ?_
          cases outcome with
          | failure => exact .pure rfl
          | success => exact .pure trivial
      | condition one =>
          refine (Run.Yields.trivial (sub one start)).bind fun outcome _ => ?_
          cases outcome with
          | failure => exact .pure trivial
          | success => exact .pure rfl
      | _ => simp [hkind] at h

theorem inSequence_succeeds {sub : RuleId → Nat → Run Outcome} (hsub : g.Keeps input sub)
    {sure : Bool → RuleId → Bool}
    (hsure : ∀ inside id, sure inside id → ∀ start, (inside → start < input.size) →
      g.Promises input id start (· ≠ .failure))
    {ids : List RuleId} {inside : Bool} (h : g.surelyAll sure inside ids) (len : Nat)
    (hinside : inside → start + len < input.size) (nodes : Array Node) :
    (Match.inSequence sub start ids len nodes).Yields (· ≠ .failure) := by
  induction ids generalizing inside len nodes with
  | nil => exact .pure Outcome.noConfusion
  | cons id ids ih =>
      rw [surelyAll, Bool.and_eq_true] at h
      -- The first rule is sure to match; what is left to see is whether the next starts inside too.
      have hid := hsure inside id h.1 (start + len) hinside
      cases hzero : g.isZeroWidth id with
      | false =>
          refine Match.inSequence_cons_meets (hsub id _ _ hid) (fun hfailure => absurd rfl hfailure)
            fun _ _ _ => ih h.2 _ (fun hboth => ?_) _
          simp [hzero] at hboth
      | true =>
          refine Match.inSequence_cons_meets (hsub id _ _ (hid.and (promises_zeroWidth hzero input _)))
            (fun hfailure => absurd rfl hfailure.1) fun more found hmore =>
              ih h.2 _ (fun hboth => ?_) _
          -- A rule of no width leaves the position, and with it what is known about it.
          obtain rfl : more = 0 := by
            have hstop : start + len + more = start + len := hmore.2
            omega
          exact hinside (Bool.and_eq_true_iff.mp hboth).1

/-- A rule that surely matches does not fail. -/
theorem promises_success {fuel : Nat} {inside : Bool} (h : g.surely fuel inside id)
    (hinside : inside → start < input.size) : g.Promises input id start (· ≠ .failure) := by
  induction fuel generalizing inside id start with
  | zero => cases h
  | succ fuel ih =>
      rw [surely] at h
      cases hrule : g.rule? id with
      | none => simp [kind?_eq_none hrule] at h
      | some rule =>
          rw [kind?_eq_some hrule] at h
          refine promises_of_rule hrule fun sub hsub => ?_
          -- Neither pruning nor a node around it turns success into failure.
          have hmap {run : Run Outcome} (hrun : run.Yields (· ≠ .failure)) :
              run.Yields fun outcome => outcome.mapNodes (g.prune rule.pruning) ≠ .failure := by
            refine hrun.mono (fun _ h => h) fun outcome houtcome => ?_
            cases outcome with
            | failure => exact absurd rfl houtcome
            | success => exact Outcome.noConfusion
          have hunder {run : Run Outcome} (hrun : run.Yields (· ≠ .failure)) :
              ((·.under id start) <$> run).Yields (· ≠ .failure) := by
            refine hrun.map fun outcome houtcome => ?_
            cases outcome with
            | failure => exact absurd rfl houtcome
            | success => exact Outcome.noConfusion
          refine hmap ?_
          -- Every other kind can fail, and is not taken for sure.
          cases hkind : rule.kind with
          | any min max =>
              simp only [hkind, Bool.or_eq_true, Bool.and_eq_true, decide_eq_true_eq] at h
              rw [Match.kind, Match.anyOf, if_neg]
              · exact .pure Outcome.noConfusion
              · rcases h with h | ⟨h, hmin⟩
                · omega
                · have hlt := hinside h
                  omega
          | log severity message guard =>
              refine (Match.logEntry_zeroWidth g id severity message guard).mono (fun _ h => h) ?_
              rintro _ ⟨nodes, rfl⟩
              exact Outcome.noConfusion
          | skip stop stopBefore failOnEnd =>
              cases failOnEnd with
              | true => simp [hkind] at h
              | false => exact hunder (Match.skipTo_succeeds stop stopBefore _ 0)
          | oneOf ids =>
              simp only [hkind] at h
              obtain ⟨one, hone, hsure⟩ := List.any_eq_true.mp h
              exact hunder (Match.firstOf_succeeds hone (hsub one _ _ (ih hsure hinside)))
          | sequence ids =>
              simp only [hkind] at h
              exact hunder (inSequence_succeeds hsub (fun _ _ h _ => ih h) h 0 hinside #[])
          | _ => simp [hkind] at h

/-! ## Repetition to the end of the input -/

/-- What holds of all matches with nothing on record before holds of all matches. -/
theorem promises_of_fresh {ok : Outcome → Prop}
    (h : ∀ limit depth outcome after,
      (g.runWithin input limit depth id start).result {} = (.ok outcome, after) → ok outcome) :
    g.Promises input id start ok := by
  intro limit depth trace _
  refine ⟨trivial, ?_⟩
  obtain ⟨result, more, hrun⟩ := g.runWithin_uniform input limit depth id start
  rw [hrun trace]
  cases result with
  | error cause => trivial
  | ok outcome => exact h limit depth outcome _ (hrun {})

theorem promises_inside (hstart : start ≤ input.size) :
    g.Promises input id start (·.Steps (fun _ stop _ => stop ≤ input.size) start) := by
  refine promises_of_fresh fun limit depth outcome after hresult => ?_
  have hrun := g.runWithin_staysWithin (Nat.le_refl input.size) limit depth id hstart
  have hend := (hrun {} (Nat.zero_le _)).2
  rw [hresult] at hend
  cases outcome with
  | failure => trivial
  | success len nodes => exact hend.1

omit [Element α] in
theorem Ordinary.operandsCovered (h : g.Ordinary) (id : RuleId) : g.OperandsCovered id := by
  intro operand hmem
  rw [operandsOf] at hmem
  split at hmem
  · rename_i alternatives hkind
    cases h.kind_isOrdinary hkind
  · cases hmem

/-- What a valid graph repeats without bound does not match without consuming anything. -/
theorem promises_progress (hordinary : g.Ordinary) (hvalid : g.validate = .ok ()) {one : RuleId}
    {min : Nat} (hkind : g.kind? id = some (.count one min 0)) (start : Nat) :
    g.Promises input one start (·.Steps (fun start stop _ => start < stop) start) := by
  refine promises_of_fresh fun limit depth outcome after hresult => ?_
  cases outcome with
  | failure => trivial
  | success len nodes =>
      cases len with
      | zero =>
          have hmarks := marks_of_matchesEmpty hvalid (fun sub _ => hordinary.operandsCovered sub)
            (matchesEmpty_of_result hresult)
          rw [not_marks_of_validate hvalid hkind] at hmarks
          cases hmarks
      | succ len => exact Nat.lt_add_of_pos_right (Nat.succ_pos len)

/-- What a valid graph repeats without bound fails at the end of the input. -/
theorem promises_failure_of_size_le (hprimitive : g.Primitive) (hvalid : g.validate = .ok ())
    {one : RuleId} {min : Nat} (hkind : g.kind? id = some (.count one min 0)) :
    g.Promises input one input.size (· = .failure) := by
  have hboth := (g.promises_inside (Nat.le_refl input.size)).and
    (promises_progress hprimitive.ordinary hvalid hkind input.size)
  refine hboth.mono fun outcome houtcome => ?_
  cases outcome with
  | failure => rfl
  | success len nodes =>
      have hinside : input.size + len ≤ input.size := houtcome.1
      have hprogress : input.size < input.size + len := houtcome.2
      omega

/-- In a valid graph a rule that cannot fail inside of the input is repeated up to its end. -/
theorem promises_catchAll (hprimitive : g.Primitive) (hvalid : g.validate = .ok ()) {one : RuleId}
    (hkind : g.kind? id = some (.count one 0 0)) {fuel : Nat} (hsurely : g.surely fuel true one)
    (hstart : start ≤ input.size) :
    g.Promises input id start (∃ nodes, · = .success (input.size - start) nodes) := by
  -- Inside the input a round is sure to match and moves on; at the end it fails.
  have hone (pos : Nat) : g.Promises input one pos
      (·.Moves (input.size ≤ ·) (fun pos stop _ => pos < stop) pos) := by
    have hprogress : g.Promises input one pos _ := promises_progress hprimitive.ordinary hvalid hkind pos
    by_cases hpos : input.size ≤ pos
    · refine hprogress.mono fun outcome houtcome => ?_
      cases outcome with
      | failure => exact hpos
      | success len nodes => exact houtcome
    · refine (hprogress.and (promises_success hsurely fun _ => Nat.not_le.mp hpos)).mono
        fun outcome houtcome => ?_
      cases outcome with
      | failure => exact absurd rfl houtcome.2
      | success len nodes => exact houtcome.1
  obtain ⟨rule, hrule, hrulekind⟩ := Option.map_eq_some_iff.mp hkind
  -- The repetition stops where a round fails, which is nowhere before the end.
  have hend : g.Promises input id start fun outcome =>
      ∃ len nodes, outcome = .success len nodes ∧ input.size ≤ start + len := by
    refine promises_of_rule hrule fun sub hsub => ?_
    rw [hrulekind]
    have hroom : input.size ≤ start + 0 + (input.size - start) := by omega
    refine (Match.repeated_rounds (fun pos => hsub one pos _ (hone pos)) _ 0 0 #[] .nil
      hroom).map fun outcome houtcome => ?_
    cases outcome with
    | failure =>
        have hzero := houtcome fun pos found hstep => Nat.lt_irrefl pos hstep
        omega
    | success len nodes =>
        obtain ⟨reps, -, -, hfails⟩ := houtcome
        exact ⟨len, _, rfl, hfails.elim (fun h => h) Nat.le_of_lt⟩
  refine (hend.and (promises_inside hstart)).mono fun outcome houtcome => ?_
  obtain ⟨⟨len, nodes, rfl, hle⟩, hinside⟩ := houtcome
  have hinside : start + len ≤ input.size := hinside
  exact ⟨nodes, by rw [show len = input.size - start by omega]⟩

/-! ## Roots that take all there is -/

/-- The root repeats, without bound, a rule that cannot fail inside of an input. -/
structure TakesAll (g : Graph α) (root one : RuleId) : Prop where
  isRoot : g.root = some root
  shape : (g.rule? root).map (fun rule => (rule.pruning, rule.kind)) =
    some (.none, .count one 0 0)
  primitive : g.Primitive
  valid : g.validate = .ok ()
  surely : ∃ fuel, g.surely fuel true one

namespace TakesAll

variable {root one : RuleId}

omit [Element α] in
theorem exists_rule (h : g.TakesAll root one) :
    ∃ rule, g.rule? root = some rule ∧ rule.pruning = .none ∧ rule.kind = .count one 0 0 := by
  obtain ⟨rule, hrule, hshape⟩ := Option.map_eq_some_iff.mp h.shape
  exact ⟨rule, hrule, Prod.mk.inj hshape⟩

/-- A match from the root leaves one node over the whole input, put together from rounds that each
consume something. -/
theorem promises_rounds (h : g.TakesAll root one) {step : Nat → Nat → List Node → Prop}
    (hstep : ∀ pos, g.Promises input one pos (·.Steps step pos)) :
    g.Promises input root 0 fun outcome => ∃ reps nodes,
      outcome = .success input.size [⟨root, ⟨0, input.size⟩, nodes⟩] ∧
        Rounds (fun pos stop nodes => (step pos stop nodes ∧ pos < stop) ∧ stop ≤ input.size)
          reps 0 input.size nodes := by
  obtain ⟨rule, hrule, hpruning, hkind⟩ := h.exists_rule
  have hcount : g.kind? root = some (.count one 0 0) :=
    (kind?_eq_some hrule).trans (congrArg some hkind)
  obtain ⟨fuel, hsurely⟩ := h.surely
  -- Each round makes its step and moves on.
  have hone (pos : Nat) : g.Promises input one pos
      (·.Steps (fun pos stop nodes => step pos stop nodes ∧ pos < stop) pos) := by
    refine ((hstep pos).and (promises_progress h.primitive.ordinary h.valid hcount pos)).mono
      fun outcome houtcome => ?_
    cases outcome with
    | failure => trivial
    | success len nodes => exact houtcome
  have hrounds : g.Promises input root 0 fun outcome => ∀ len nodes, outcome = .success len nodes →
      ∃ reps inner, nodes = [⟨root, ⟨0, len⟩, inner⟩] ∧
        Rounds (fun pos stop nodes => step pos stop nodes ∧ pos < stop) reps 0 len inner := by
    refine promises_of_rule hrule fun sub hsub => ?_
    rw [hkind, hpruning]
    have hloop : (Match.repeated sub (g.label root) one 0 0 0 (input.size - 0) 0 0 #[]).Yields
        (Match.Repetition (fun _ => True)
          (fun pos stop nodes => step pos stop nodes ∧ pos < stop) input.size 0 0) :=
      Match.repeated_rounds (fun pos => hsub one pos _ (hone pos)) _ 0 0 #[] .nil (by omega)
    refine hloop.map fun outcome houtcome len nodes hsuccess => ?_
    rw [Outcome.mapNodes_prune_none] at hsuccess
    cases outcome with
    | failure => cases hsuccess
    | success more found =>
        obtain ⟨reps, -, hrounds, -⟩ := houtcome
        cases hsuccess
        rw [Nat.zero_add] at hrounds
        exact ⟨reps, found, rfl, hrounds⟩
  -- That the rounds reach the end is the property of a catch-all.
  have hall := promises_catchAll h.primitive h.valid hcount hsurely (Nat.zero_le input.size)
  refine (hrounds.and hall).mono fun outcome houtcome => ?_
  obtain ⟨hnodes, nodes, rfl⟩ := houtcome
  obtain ⟨reps, inner, rfl, hrounds⟩ := hnodes _ _ rfl
  exact ⟨reps, inner, rfl, (hrounds.inside fun _ _ _ hlt => Nat.le_of_lt hlt.2).2⟩

end TakesAll

end Graph

end RuleScript
