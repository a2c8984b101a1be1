import RuleScript.Proofs.Run

/-!
# Rules for the loops of a match

One rule for each way of trying rules again and again.  A rule asks what is known of the rules
inside, for one round, and gives a promise for the combination; whoever uses it chooses what is
kept from one round to the next.  `Graph.runWithin_induction` does the same for rules nested inside
of each other, where the depth left is what runs out.
-/

namespace RuleScript

namespace Match

variable {inv : Trace → Prop} {bad : Abort → Prop} {ok P : Outcome → Prop}
variable {sub : RuleId → Nat → Run Outcome} {start : Nat}

/-- A choice comes to a failure or to what one of its rules comes to. -/
theorem firstOf_meets {P : RuleId → Outcome → Prop} {ids : List RuleId}
    (hsub : ∀ id ∈ ids, (sub id start).Meets inv bad (P id)) (hfailure : ok .failure)
    (hsuccess : ∀ id ∈ ids, ∀ len nodes, P id (.success len nodes) → ok (.success len nodes)) :
    (firstOf sub start ids).Meets inv bad ok := by
  induction ids with
  | nil => exact .pure hfailure
  | cons id ids ih =>
      refine (hsub id List.mem_cons_self).bind fun outcome houtcome => ?_
      cases outcome with
      | failure =>
          exact ih (fun id hid => hsub id (List.mem_cons_of_mem _ hid))
            fun id hid => hsuccess id (List.mem_cons_of_mem _ hid)
      | success len nodes => exact .pure (hsuccess id List.mem_cons_self len nodes houtcome)

/-- A sequence fails with its first rule, or goes on behind what that matched. -/
theorem inSequence_cons_meets {id : RuleId} {ids : List RuleId} {len : Nat} {nodes : Array Node}
    (hid : (sub id (start + len)).Meets inv bad P) (hfailure : P .failure → ok .failure)
    (hsuccess : ∀ more found, P (.success more found) →
      (inSequence sub start ids (len + more) (nodes ++ found)).Meets inv bad ok) :
    (inSequence sub start (id :: ids) len nodes).Meets inv bad ok := by
  refine hid.bind fun outcome houtcome => ?_
  cases outcome with
  | failure => exact .pure (hfailure houtcome)
  | success more found => exact hsuccess more found houtcome

/-! ## Repetitions and skips -/

/-- One more repetition: the count is full, the rule fails, it matches nothing, or it goes on. -/
theorem repetition_meets {label : String} {id : RuleId} {min max : Nat}
    {again : Nat → Nat → Array Node → Run Outcome} {reps len : Nat} {nodes : Array Node}
    (hsub : (sub id (start + len)).Meets inv bad P)
    (hfull : max ≠ 0 → max ≤ reps → ok (enough min reps len nodes))
    (hfailure : (max = 0 ∨ reps < max) → P .failure → ok (enough min reps len nodes))
    (hempty : ∀ found, max = 0 → P (.success 0 found) →
      (do Run.record (.emptyRepetition label (start + len)); pure .failure :
        Run Outcome).Meets inv bad ok)
    (hfill : ∀ found, max ≠ 0 → reps < max → P (.success 0 found) →
      ok (enough min (Nat.max (reps + 1) min) len (nodes ++ found)))
    (hagain : ∀ more found, (max = 0 ∨ reps < max) → more ≠ 0 → P (.success more found) →
      (again (reps + 1) (len + more) (nodes ++ found)).Meets inv bad ok) :
    (repetition sub label id min max start again reps len nodes).Meets inv bad ok := by
  rw [repetition]
  split
  · rename_i hmax
    exact .pure (hfull hmax.1 hmax.2)
  · rename_i hmax
    have hroom : max = 0 ∨ reps < max := by omega
    refine hsub.bind fun outcome houtcome => ?_
    split
    · exact .pure (hfailure hroom houtcome)
    · split
      · rename_i hzero
        exact hempty _ hzero houtcome
      · rename_i hne
        exact .pure (hfill _ hne (hroom.resolve_left hne) houtcome)
    · rename_i more found hmore
      exact hagain more found hroom hmore houtcome

/-- One more try of a skip: its end is found here or further on. -/
theorem stopOr_meets {stop : RuleId} {stopBefore : Bool} {passed : Nat} {beyond : Run Outcome}
    (hsub : (sub stop (start + passed)).Meets inv bad P)
    (hstop : ∀ len nodes, P (.success len nodes) →
      ok (if stopBefore then .success passed [] else .success (passed + len) nodes))
    (hbeyond : P .failure → beyond.Meets inv bad ok) :
    (stopOr sub stop stopBefore start passed beyond).Meets inv bad ok := by
  refine hsub.bind fun outcome houtcome => ?_
  cases outcome with
  | failure => exact hbeyond houtcome
  | success len nodes => exact .pure (hstop len nodes houtcome)

/-! ## Operator chains -/

/-- An operator of an evaluation is what one of the alternatives leads to. -/
theorem exists_operatorFrom?_of_mem_operators {α : Type} {g : Graph α} {evaluation : RuleId}
    {alternatives : List RuleId} {operator : BinaryOperator}
    (h : operator ∈ (ChainForm.ofEvaluation g evaluation alternatives).operators) :
    ∃ alternative ∈ alternatives, g.operatorFrom? (g.size + 1) none alternative = some operator := by
  simp only [ChainForm.ofEvaluation, List.filterMap_map, List.mem_filterMap,
    Function.comp_apply] at h
  obtain ⟨alternative, hmem, hbinary⟩ := h
  refine ⟨alternative, hmem, ?_⟩
  rw [Graph.classify] at hbinary
  split at hbinary
  · rename_i hfound
    rw [hfound]
    exact hbinary
  · cases hbinary

variable {form : ChainForm} {L : Link → Prop}

/-- A link comes from an operator and a right operand that match and are not both empty. -/
theorem nextLink_meets {P : BinaryOperator → Outcome → Prop}
    {Q : BinaryOperator → Nat → Outcome → Prop} {operators : List BinaryOperator} {pos : Nat}
    (hoperator : ∀ operator ∈ operators, (sub operator.operator pos).Meets inv bad (P operator))
    (hright : ∀ operator ∈ operators, ∀ len nodes, P operator (.success len nodes) →
      (rightOperand sub form operator (pos + len)).Meets inv bad (Q operator len))
    (hlink : ∀ operator ∈ operators, ∀ len nodes len' nodes', len + len' ≠ 0 →
      P operator (.success len nodes) → Q operator len (.success len' nodes') →
      L ⟨operator, nodes, ⟨⟨pos + len, len'⟩, nodes'⟩⟩) :
    (nextLink sub form pos operators).Meets inv bad fun link? => ∀ link ∈ link?, L link := by
  induction operators with
  | nil => exact .pure (by simp)
  | cons operator rest ih =>
      -- Wherever the first operator does not match, the search goes on with the rest.
      have hrest := ih (fun other hother => hoperator other (List.mem_cons_of_mem _ hother))
        (fun other hother => hright other (List.mem_cons_of_mem _ hother))
        fun other hother => hlink other (List.mem_cons_of_mem _ hother)
      refine (hoperator operator List.mem_cons_self).bind fun outcome houtcome => ?_
      cases outcome with
      | failure => exact hrest
      | success len nodes =>
          refine (hright operator List.mem_cons_self len nodes houtcome).bind fun right hmatch => ?_
          cases right with
          | failure => exact hrest
          | success len' nodes' =>
              dsimp only
              split
              · exact hrest
              · rename_i hne
                refine .pure fun link hmem => ?_
                cases Option.mem_some.mp hmem
                exact hlink operator List.mem_cons_self len nodes len' nodes' hne houtcome hmatch

/-- A chain grows by links of the same kind as long as each ends where the next may start. -/
theorem extend_meets (good : Nat → Prop)
    (hnext : ∀ pos, good pos → (nextLink sub form pos form.operators).Meets inv bad
      fun link? => ∀ link ∈ link?, L link ∧ good link.right.span.stop)
    (room pos : Nat) (links : Array Link) (hpos : good pos) (hlinks : ∀ link ∈ links, L link) :
    (extend sub form room pos links).Meets inv bad fun links => ∀ link ∈ links, L link := by
  induction room generalizing pos links with
  | zero =>
      rw [extend]
      refine (hnext pos hpos).bind fun link? _ => ?_
      cases link? with
      | none => exact .pure hlinks
      | some link => exact .pure hlinks
  | succ room ih =>
      rw [extend]
      refine (hnext pos hpos).bind fun link? hlink? => ?_
      cases link? with
      | none => exact .pure hlinks
      | some link =>
          -- The link is kept, and the next one is looked for where it stops.
          obtain ⟨hlink, hstop⟩ := hlink? link rfl
          refine ih _ _ hstop fun other hother => ?_
          rcases Array.mem_push.mp hother with hother | rfl
          · exact hlinks other hother
          · exact hlink

end Match

/-! ## Nesting -/

/-- Matches satisfy what unknown rules and rules without any depth left satisfy, if a rule does as
soon as the rules inside do. -/
theorem Graph.runWithin_induction {α : Type} [Element α] {g : Graph α} {input : Array α}
    {limit : Nat} {P : RuleId → Nat → Run Outcome → Prop}
    (hunknown : ∀ id start, g.rule? id = none →
      P id start (do Run.record (.unknownRule id); pure .failure))
    (hdepth : ∀ id start, P id start (throw (.depthExceeded limit start)))
    (hrule : ∀ depth, (∀ id start, P id start (g.runWithin input limit depth id start)) →
      ∀ id rule, g.rule? id = some rule → ∀ start,
        P id start (Match.rule g input (g.runWithin input limit depth) id rule start))
    (depth : Nat) (id : RuleId) (start : Nat) :
    P id start (g.runWithin input limit depth id start) := by
  induction depth generalizing id start with
  | zero =>
      -- An unknown rule fails at any depth; a known one needs a level more.
      cases hfound : g.rule? id with
      | none =>
          rw [runWithin_unknown hfound]
          exact hunknown id start hfound
      | some rule =>
          rw [runWithin_zero hfound]
          exact hdepth id start
  | succ depth ih =>
      cases hfound : g.rule? id with
      | none =>
          rw [runWithin_unknown hfound]
          exact hunknown id start hfound
      | some rule =>
          rw [runWithin_succ hfound]
          exact hrule depth ih id rule hfound start

end RuleScript
