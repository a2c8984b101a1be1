import RuleScript.Proofs.Match.Bounds
import RuleScript.Proofs.Match.Reuse

/-!
# Matching terminates

A match is a recursion with loops in it: over the rules of a graph, which may refer to each other in any
way, and over the rounds of repetitions, skips and operator chains.  Here both are told without anything
that runs out by itself.

* `Graph.enter` is one step of the recursion, with one matcher going through all of it.  Whatever
  satisfies it at all depths up to the limit is `Graph.parse` there, so no rule is entered deeper than
  that and there is nothing left to choose.
* `Run.Loops` goes on round after round until a round comes to an end.  A repetition, a skip and an
  operator chain have a round each, without any room to run out of; each of them comes to an end, and to
  what it comes to with room, after no more rounds than there are elements left and one
  (`Graph.matching_terminates`).

The reason for the second is one and the same: a match consumes no more than there is
(`Graph.runWithin_consumes`), so a round that goes on after having consumed an element leaves less for
those after it.
-/

namespace RuleScript

/-! ## Loops -/

namespace Run

variable {σ β : Type} {round : σ → Run (σ ⊕ β)} {state : σ} {trace : Trace} {rounds : Nat}
variable {result : Except Abort β × Trace}

/-- A loop is left after some rounds with a result.  A round is aborted, comes to the value of the
loop, or comes to the state that the next round starts from. -/
inductive Loops (round : σ → Run (σ ⊕ β)) :
    (state : σ) → (trace : Trace) → (rounds : Nat) → (result : Except Abort β × Trace) → Prop
  | aborted {state : σ} {trace after : Trace} {cause : Abort}
      (h : (round state).result trace = (.error cause, after)) :
      Loops round state trace 1 (.error cause, after)
  | last {state : σ} {trace after : Trace} {value : β}
      (h : (round state).result trace = (.ok (.inr value), after)) :
      Loops round state trace 1 (.ok value, after)
  | again {state next : σ} {trace after : Trace} {rounds : Nat} {result : Except Abort β × Trace}
      (h : (round state).result trace = (.ok (.inl next), after))
      (hrest : Loops round next after rounds result) :
      Loops round state trace (rounds + 1) result

/-- A loop is left in one way only. -/
theorem Loops.unique (h : Loops round state trace rounds result) {rounds' : Nat}
    {result' : Except Abort β × Trace} (h' : Loops round state trace rounds' result') :
    rounds' = rounds ∧ result' = result := by
  -- A round has one result, so all ways to leave the loop agree from round to round.
  induction h generalizing rounds' result' with
  | aborted h =>
      cases h' with
      | aborted h' => cases h.symm.trans h'; exact ⟨rfl, rfl⟩
      | last h' => cases h.symm.trans h'
      | again h' => cases h.symm.trans h'
  | last h =>
      cases h' with
      | aborted h' => cases h.symm.trans h'
      | last h' => cases h.symm.trans h'; exact ⟨rfl, rfl⟩
      | again h' => cases h.symm.trans h'
  | again h _ ih =>
      cases h' with
      | aborted h' => cases h.symm.trans h'
      | last h' => cases h.symm.trans h'
      | again h' hrest' =>
          cases h.symm.trans h'
          obtain ⟨rfl, rfl⟩ := ih hrest'
          exact ⟨rfl, rfl⟩

/-- From any trace the loop is left after no more rounds than the bound, with the result of the run and
with no other. -/
def LoopsWithin (round : σ → Run (σ ⊕ β)) (state : σ) (bound : Nat) (run : Run β) : Prop :=
  ∀ trace, ∃ rounds ≤ bound, ∀ rounds' result',
    Loops round state trace rounds' result' ↔ rounds' = rounds ∧ result' = run.result trace

/-- A loop that goes on only with less room is left before the room has run out, and comes to what the
recursion on the room comes to. -/
theorem loopsWithin_of_room (loop : Nat → σ → Run β) (inv : Nat → σ → Prop)
    (hloop : ∀ room state, inv room state → ∃ rest,
      loop room state = round state >>= Sum.elim rest pure ∧
        ∀ less, room = less + 1 → rest = loop less)
    (hround : ∀ room state, inv room state → (round state).Yields
      (Sum.elim (fun next => ∃ less, room = less + 1 ∧ inv less next) fun _ => True))
    {room : Nat} {state : σ} (hstate : inv room state) :
    LoopsWithin round state (room + 1) (loop room state) := by
  intro trace
  suffices hloops : ∃ rounds ≤ room + 1,
      Loops round state trace rounds ((loop room state).result trace) by
    obtain ⟨rounds, hle, hleft⟩ := hloops
    refine ⟨rounds, hle, fun rounds' result' => ⟨hleft.unique, ?_⟩⟩
    rintro ⟨rfl, rfl⟩
    exact hleft
  -- The room bounds the rounds: each that is not the last leaves less of it.
  induction room generalizing state trace with
  | zero =>
      obtain ⟨rest, hrun, -⟩ := hloop 0 state hstate
      rw [hrun]
      rcases hresult : (round state).result trace with ⟨cause | next | value, after⟩
      · rw [result_bind_error hresult]
        exact ⟨1, Nat.le_refl 1, .aborted hresult⟩
      · obtain ⟨less, hless, -⟩ := (hround 0 state hstate).of_result hresult
        cases hless
      · rw [result_bind_ok hresult]
        exact ⟨1, Nat.le_refl 1, .last hresult⟩
  | succ room ih =>
      obtain ⟨rest, hrun, hrest⟩ := hloop (room + 1) state hstate
      rw [hrun]
      rcases hresult : (round state).result trace with ⟨cause | next | value, after⟩
      · rw [result_bind_error hresult]
        exact ⟨1, Nat.le_add_left 1 _, .aborted hresult⟩
      · obtain ⟨less, hless, hnext⟩ := (hround (room + 1) state hstate).of_result hresult
        cases hless
        obtain ⟨rounds, hle, hleft⟩ := ih hnext after
        rw [result_bind_ok hresult, hrest room rfl]
        exact ⟨rounds + 1, Nat.succ_le_succ hle, .again hresult hleft⟩
      · rw [result_bind_ok hresult]
        exact ⟨1, Nat.le_add_left 1 _, .last hresult⟩

end Run

open Run

/-! ## Rounds -/

namespace Match

section Rounds

variable (sub : RuleId → Nat → Run Outcome)

/-- What a repetition has come to so far. -/
structure Repeated where
  reps : Nat := 0
  len : Nat := 0
  nodes : Array Node := #[]

/-- One round of a repetition: the rule is matched once more, unless the count is full. -/
def countRound (label : String) (id : RuleId) (min max start : Nat) (state : Repeated) :
    Run (Repeated ⊕ Outcome) := do
  if max ≠ 0 ∧ max ≤ state.reps then
    pure (.inr (enough min state.reps state.len state.nodes))
  else
    match ← sub id (start + state.len) with
    | .failure => pure (.inr (enough min state.reps state.len state.nodes))
    | .success 0 found =>
      if max = 0 then
        Run.record (.emptyRepetition label (start + state.len))
        pure (.inr .failure)
      else
        pure (.inr (enough min (Nat.max (state.reps + 1) min) state.len (state.nodes ++ found)))
    | .success more found => pure (.inl ⟨state.reps + 1, state.len + more, state.nodes ++ found⟩)

/-- One round of a skip that has passed over some elements: the stop is tried, and if it is not found the
next element is passed over, unless the input is at its end. -/
def skipRound (stop : RuleId) (stopBefore failOnEnd : Bool) (size start passed : Nat) :
    Run (Nat ⊕ Outcome) := do
  match ← sub stop (start + passed) with
  | .success len nodes =>
    pure (.inr (if stopBefore then .success passed [] else .success (passed + len) nodes))
  | .failure =>
    if size ≤ start + passed then pure (.inr (if failOnEnd then .failure else .success passed []))
    else pure (.inl (passed + 1))

/-- One round of an operator chain that has some links and goes on at a position: the next link is added,
if there is one. -/
def linkRound (form : ChainForm) : Nat × Array Link → Run (Nat × Array Link ⊕ Array Link)
  | (pos, links) => do
    match ← nextLink sub form pos form.operators with
    | none => pure (.inr links)
    | some link => pure (.inl (link.right.span.stop, links.push link))

end Rounds

variable {sub : RuleId → Nat → Run Outcome} {form : ChainForm} {size start : Nat}

theorem repetition_eq (label : String) (id : RuleId) (min max : Nat)
    (again : Nat → Nat → Array Node → Run Outcome) (state : Repeated) :
    repetition sub label id min max start again state.reps state.len state.nodes =
      countRound sub label id min max start state >>=
        Sum.elim (fun next => again next.reps next.len next.nodes) pure := by
  rw [repetition, countRound]
  split
  · rfl
  · rw [bind_assoc]
    refine bind_congr fun outcome => ?_
    rcases outcome with _ | ⟨_ | more, found⟩
    · rfl
    · by_cases hmax : max = 0
      · simp only [hmax, if_true, bind_assoc, pure_bind, Sum.elim_inr]
        rfl
      · simp only [hmax, if_false, pure_bind, Sum.elim_inr]
    · rfl

/-- At the end of the input there is nothing else to do, and before it there is always more to pass
over. -/
theorem stopOr_eq (stop : RuleId) (stopBefore failOnEnd : Bool) (passed : Nat)
    (rest : Nat → Run Outcome) {beyond : Run Outcome}
    (hbeyond : beyond = if size ≤ start + passed
      then pure (if failOnEnd then .failure else .success passed []) else rest (passed + 1)) :
    stopOr sub stop stopBefore start passed beyond =
      skipRound sub stop stopBefore failOnEnd size start passed >>= Sum.elim rest pure := by
  rw [stopOr, skipRound, bind_assoc]
  refine bind_congr fun outcome => ?_
  cases outcome with
  | success len nodes => rfl
  | failure =>
      rw [hbeyond]
      dsimp only
      split <;> rfl

/-! ## What is consumed -/

/-- Rules that consume no more than there is left, wherever they are matched. -/
def Consumes (size : Nat) (sub : RuleId → Nat → Run Outcome) : Prop :=
  ∀ id pos, (sub id pos).Yields fun outcome => outcome.len ≤ size - pos

theorem rightOperand_consumes (hsub : Consumes size sub) (operator : BinaryOperator) (pos : Nat) :
    (rightOperand sub form operator pos).Yields fun outcome => outcome.len ≤ size - pos := by
  rw [rightOperand]
  split
  · exact firstOf_meets (fun id _ => hsub id pos) (Nat.zero_le _) fun _ _ _ _ hlen => hlen
  · exact hsub operator.right pos

/-- A link consumes an element, so there is less left after it. -/
theorem nextLink_consumes (hsub : Consumes size sub) (pos : Nat) :
    (nextLink sub form pos form.operators).Yields fun link? =>
      ∀ link ∈ link?, size - link.right.span.stop < size - pos := by
  refine nextLink_meets (fun operator _ => hsub operator.operator pos)
    (fun operator _ len _ _ => rightOperand_consumes hsub operator (pos + len)) ?_
  intro operator _ len nodes len' nodes' hne hlen hlen'
  have hfirst : len ≤ size - pos := hlen
  have hsecond : len' ≤ size - (pos + len) := hlen'
  show size - (pos + len + len') < size - pos
  omega

/-! ## Loops that are left -/

theorem repeated_loopsWithin (hsub : Consumes size sub) (label : String) (id : RuleId)
    (min max start : Nat) :
    LoopsWithin (countRound sub label id min max start) {} (size - start + 1)
      (repeated sub label id min max start (size - start) 0 0 #[]) := by
  refine loopsWithin_of_room
    (fun room (state : Repeated) =>
      repeated sub label id min max start room state.reps state.len state.nodes)
    (fun room state => size - (start + state.len) ≤ room) ?_ ?_ (Nat.le_refl _)
  · intro room state _
    cases room with
    | zero => exact ⟨_, repetition_eq label id min max _ state, nofun⟩
    | succ room =>
        refine ⟨_, repetition_eq label id min max _ state, ?_⟩
        rintro _ ⟨⟩
        rfl
  · intro room state hroom
    rw [countRound]
    split
    · exact .pure trivial
    · refine (hsub id _).bind fun outcome hlen => ?_
      split
      · exact .pure trivial
      · split
        · exact (Run.Yields.record _).bind fun _ _ => .pure trivial
        · exact .pure trivial
      · rename_i more found hmore
        have hle : more ≤ size - (start + state.len) := hlen
        have hpos : more ≠ 0 := hmore
        -- What is consumed lies in the input, so the room is not used up.
        obtain ⟨less, rfl⟩ : ∃ less, room = less + 1 := ⟨room - 1, by omega⟩
        refine .pure ⟨less, rfl, ?_⟩
        show size - (start + (state.len + more)) ≤ less
        omega

theorem skipTo_loopsWithin (stop : RuleId) (stopBefore failOnEnd : Bool) (size start : Nat) :
    LoopsWithin (skipRound sub stop stopBefore failOnEnd size start) 0 (size - start + 1)
      (skipTo sub stop stopBefore failOnEnd start (size - start) 0) := by
  refine loopsWithin_of_room (skipTo sub stop stopBefore failOnEnd start)
    (fun room passed => passed + room = size - start) ?_ ?_ (Nat.zero_add _)
  · intro room passed hroom
    cases room with
    | zero =>
        -- Without room the end is reached, and the round itself stops there.
        have hend : size ≤ start + passed := by omega
        refine ⟨fun _ => pure .failure, stopOr_eq stop stopBefore failOnEnd passed _ ?_, nofun⟩
        rw [if_pos hend]
    | succ room =>
        have hinside : ¬ size ≤ start + passed := by omega
        refine ⟨skipTo sub stop stopBefore failOnEnd start room,
          stopOr_eq stop stopBefore failOnEnd passed _ ?_, ?_⟩
        · rw [if_neg hinside]
        · rintro _ ⟨⟩
          rfl
  · intro room passed hroom
    rw [skipRound]
    refine (Run.Yields.trivial _).bind fun outcome _ => ?_
    cases outcome with
    | success len nodes => exact .pure trivial
    | failure =>
        dsimp only
        split
        · exact .pure trivial
        · obtain ⟨less, rfl⟩ : ∃ less, room = less + 1 := ⟨room - 1, by omega⟩
          exact .pure ⟨less, rfl, by omega⟩

theorem extend_loopsWithin (hsub : Consumes size sub) {room pos : Nat} (hroom : size - pos ≤ room) :
    LoopsWithin (linkRound sub form) (pos, #[]) (room + 1) (extend sub form room pos #[]) := by
  refine loopsWithin_of_room
    (fun room (state : Nat × Array Link) => extend sub form room state.1 state.2)
    (fun room state => size - state.1 ≤ room) ?_ ?_ hroom
  · rintro room ⟨pos, links⟩ _
    cases room with
    | zero =>
        refine ⟨fun _ => pure links, ?_, nofun⟩
        rw [extend, linkRound, bind_assoc]
        refine bind_congr fun link? => ?_
        cases link? <;> rfl
    | succ room =>
        refine ⟨fun next => extend sub form room next.1 next.2, ?_, ?_⟩
        · rw [extend, linkRound, bind_assoc]
          refine bind_congr fun link? => ?_
          cases link? <;> rfl
        · rintro _ ⟨⟩
          rfl
  · rintro room ⟨pos, links⟩ hroom
    refine (nextLink_consumes hsub pos).bind fun link? hlink? => ?_
    cases link? with
    | none => exact .pure trivial
    | some link =>
        -- A link consumes, and does not reach behind the end.
        have hless := hlink? link rfl
        have hle : size - pos ≤ room := hroom
        obtain ⟨less, rfl⟩ : ∃ less, room = less + 1 := ⟨room - 1, by omega⟩
        refine .pure ⟨less, rfl, ?_⟩
        show size - link.right.span.stop ≤ less
        omega

end Match

/-! ## Matches -/

namespace Graph

open Match

variable {α : Type} [Element α]

/-- A match consumes no more than there is left, whatever it finds on the trace. -/
theorem runWithin_consumes (g : Graph α) (input : Array α) (limit depth : Nat) :
    Consumes input.size (g.runWithin input limit depth) := by
  intro id pos trace _
  obtain ⟨result, more, huniform⟩ := g.runWithin_uniform input limit depth id pos
  obtain ⟨-, hend⟩ := g.runWithin_staysWithin (Nat.le_max_left input.size pos) limit depth id
    (Nat.le_max_right input.size pos) {} (Nat.zero_le _)
  rw [huniform] at hend ⊢
  refine ⟨trivial, ?_⟩
  rcases result with cause | _ | ⟨len, nodes⟩
  · trivial
  · exact Nat.zero_le _
  · have hlen : pos + len ≤ max input.size pos := hend.1
    show len ≤ input.size - pos
    omega

section Recursion

variable {g : Graph α} {input : Array α} {limit : Nat} {other : RuleId → Nat → Session Outcome}

/-- What is `parse` at a depth leaves every matcher at that depth as deep as it was, so it can be followed
from one match inside to the next. -/
theorem mirrors_of_eq_parse {depth : Nat} {id : RuleId} {start : Nat}
    (h : ∀ m : Matcher, m.depth = depth → (other id start).result m = g.parse input limit m id start) :
    (other id start).Mirrors depth (g.runWithin input limit (limit - depth) id start) := by
  intro trace
  rw [h ⟨depth, trace⟩ rfl, parse_eq]
  rfl

/-- What satisfies the recursion up to the limit is `parse` up to the limit, and nothing else. -/
theorem parse_unique (g : Graph α) (input : Array α) (limit : Nat)
    (other : RuleId → Nat → Session Outcome) :
    (∀ m id start, m.depth ≤ limit →
        (other id start).result m = (g.enter input limit other id start).result m) ↔
      ∀ m id start, m.depth ≤ limit → (other id start).result m = g.parse input limit m id start := by
  constructor
  · intro hother m id start hdepth
    -- Induction on the levels left: one level further down there is one less.
    induction hlevels : limit - m.depth generalizing m id start with
    | zero =>
        have hfull : ¬ m.depth < limit := by omega
        rw [hother m id start hdepth, parse_eq]
        exact enter_mirrors (fun hroom => absurd hroom hfull) id start m.trace
    | succ levels ih =>
        have hinside (hroom : m.depth < limit) (id : RuleId) (start : Nat) :
            (other id start).Mirrors (m.depth + 1)
              (g.runWithin input limit (limit - (m.depth + 1)) id start) :=
          mirrors_of_eq_parse fun inner hinner => ih inner id start (by omega) (by omega)
        rw [hother m id start hdepth, parse_eq]
        exact enter_mirrors hinside id start m.trace
  · intro hother m id start hdepth
    have hinside (hroom : m.depth < limit) (id : RuleId) (start : Nat) :
        (other id start).Mirrors (m.depth + 1)
          (g.runWithin input limit (limit - (m.depth + 1)) id start) :=
      mirrors_of_eq_parse fun inner hinner => hother inner id start (by omega)
    rw [hother m id start hdepth, parse_eq]
    exact (enter_mirrors hinside id start m.trace).symm

end Recursion

/-- **Matching terminates**, whatever the graph, the input and the start.

The recursion is well-founded: at the depths up to the limit there is just one function that satisfies it,
and that comes to what `matchAt` comes to if it starts inside of no rule.  And the loops that rules are
made of, at any depth, are left: a repetition after at most as many matches of its rule as there are
elements left and one, a skip after at most as many tries of its stop and one, and an operator chain after
at most as many rounds and one, of which the last is the only one that does not extend it. -/
theorem matching_terminates (g : Graph α) (input : Array α) (limit : Nat) :
    (∀ other : RuleId → Nat → Session Outcome,
      (∀ m id start, m.depth ≤ limit →
          (other id start).result m = (g.enter input limit other id start).result m) ↔
        ∀ m id start, m.depth ≤ limit →
          (other id start).result m = g.parse input limit m id start) ∧
    (∀ id start, g.parse input limit {} id start =
      ((g.matchAt input limit id start).1, ⟨0, (g.matchAt input limit id start).2⟩)) ∧
    ∀ depth start, let sub := g.runWithin input limit depth
      (∀ label one min max, LoopsWithin (countRound sub label one min max start) {}
        (input.size - start + 1) (repeated sub label one min max start (input.size - start) 0 0 #[])) ∧
      (∀ stop stopBefore failOnEnd,
        LoopsWithin (skipRound sub stop stopBefore failOnEnd input.size start) 0
          (input.size - start + 1) (skipTo sub stop stopBefore failOnEnd start (input.size - start) 0)) ∧
      ∀ form len, LoopsWithin (linkRound sub form) (start + len, #[]) (input.size - start + 1)
        (extend sub form (input.size - start) (start + len) #[]) := by
  refine ⟨g.parse_unique input limit, fun id start => ?_, fun depth start => ?_⟩
  · rw [parse_eq]
    rfl
  · -- Each of the three loops only needs that its calls stay inside the input.
    have hsub := g.runWithin_consumes input limit depth
    refine ⟨fun label one min max => repeated_loopsWithin hsub label one min max start,
      fun stop stopBefore failOnEnd => skipTo_loopsWithin stop stopBefore failOnEnd input.size start,
      fun form len => extend_loopsWithin hsub (by omega)⟩

/-- Three parentheses are taken in four rounds, as many as there may be. -/
theorem nestedParens_four_rounds :
    let input := #['(', '(', '(']
    let round := countRound (nestedParens.runWithin input 9 1) "parens" ⟨0⟩ 0 0 0
    ∀ rounds result, Loops round {} {} rounds result ↔ rounds = 4 ∧
      result = (.ok (.success 3 [.leaf ⟨0⟩ ⟨0, 1⟩, .leaf ⟨0⟩ ⟨1, 1⟩, .leaf ⟨0⟩ ⟨2, 1⟩]),
        { farthest := 3 }) := by
  intro input round rounds result
  obtain ⟨-, -, hloops⟩ := matching_terminates nestedParens input 9
  obtain ⟨taken, -, hleft⟩ := (hloops 1 0).1 "parens" ⟨0⟩ 0 0 {}
  have hfour : Loops round {} {} 4 (.ok (.success 3
      [.leaf ⟨0⟩ ⟨0, 1⟩, .leaf ⟨0⟩ ⟨1, 1⟩, .leaf ⟨0⟩ ⟨2, 1⟩]), { farthest := 3 }) :=
    .again rfl (.again rfl (.again rfl (.last rfl)))
  obtain ⟨rfl, hresult⟩ := (hleft _ _).mp hfour
  rw [hresult]
  exact hleft rounds result

end Graph

end RuleScript
