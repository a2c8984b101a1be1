import RuleScript.Proofs.Match.Contributions
import RuleScript.Proofs.Match.Folding
import RuleScript.Proofs.Match.Termination

/-!
# Evaluations are sugar

As far as success and length go, an evaluation is an operand followed by as many pairs as there are,
each an operator with its right operand.  A `Graph.Desugaring` says that some rules of a graph spell
this out: a choice of operands, a sequence for each operator, a choice of these sequences and an
unbounded repetition of it.  Operands and pairs are read off the alternatives, not taken from what
the match of an evaluation has found about them.  `Graph.Desugaring.matchAt_eq_of_evaluation`
compares the two.

## Strategy

The two try the same rules at the same positions in the same order, so they are compared step by
step, the evaluation first.  The rules inside of it are four levels deeper in the spelled out
version, and the evaluation is excused if it is cut off.  Nothing is asked of traces and trees.

* One operator against its pair: `linkOf_compares`.  The evaluation passes over a pair that matches
  nothing where the repetition would fail, so it has to be known that there is none.
* All operators against the choice of pairs: `nextLink_compares`.
* All links against the repetition: `extend_compares`, by induction on the room for links.  The two
  have different room, but neither runs out of it since each pair consumes something.
-/

namespace RuleScript

open Match

/-! ## Spelling out -/

section Rules

variable {α : Type}

/-- Rules of a graph that spell out what an evaluation matches. -/
structure Graph.Desugaring (g : Graph α) (evaluation : RuleId) (alternatives : List RuleId) where
  operands : List RuleId
  /-- Any operand. -/
  operand : RuleId
  /-- Each operator with its right operand. -/
  pairs : List RuleId
  /-- Any pair. -/
  choice : RuleId
  /-- All pairs there are. -/
  tail : RuleId
  whole : RuleId
  kind_evaluation : g.kind? evaluation = some (.evaluation alternatives)
  reads_operands : g.ReadOperands evaluation alternatives operands
  kind_operand : g.kind? operand = some (.oneOf operands)
  reads_pairs : g.ReadPairs evaluation operand alternatives pairs
  kind_choice : g.kind? choice = some (.oneOf pairs)
  kind_tail : g.kind? tail = some (.count choice 0 0)
  kind_whole : g.kind? whole = some (.sequence [operand, tail])

variable [Element α] {g : Graph α} {evaluation : RuleId} {alternatives : List RuleId}

namespace Graph.Desugaring

/-- The positions where more pairs are looked for: after an operand at `start`, and after each
pair. -/
inductive Reaches (d : g.Desugaring evaluation alternatives) (input : Array α) (start : Nat) :
    Nat → Prop
  | operand {limit len : Nat} {nodes : List Node}
      (h : (g.matchAt input limit d.operand start).1 = .ok (.success len nodes)) :
      Reaches d input start (start + len)
  | pair {limit pos len : Nat} {nodes : List Node} (hpos : Reaches d input start pos)
      (h : (g.matchAt input limit d.choice pos).1 = .ok (.success len nodes)) :
      Reaches d input start (pos + len)

/-- Whether no pair matches nothing where pairs are looked for. -/
def NoEmptyPair (d : g.Desugaring evaluation alternatives) (input : Array α) (start : Nat) : Prop :=
  ∀ pos, d.Reaches input start pos → ∀ pair ∈ d.pairs, ∀ limit nodes,
    (g.matchAt input limit pair pos).1 ≠ .ok (.success 0 nodes)

end Graph.Desugaring

end Rules

/-! ## Comparing verdicts -/

/-- Two runs are compared by what they come to, whatever they leave.  The first may have been cut
off for its depth. -/
def Run.Comparison.cutOffVerdicts : Run.Comparison where
  traces _ _ := True
  aborts := Eq
  excuses cause := ∃ limit pos, cause = .depthExceeded limit pos

/-- Two runs come to the same verdict, unless the first is cut off. -/
def Run.SameVerdict (run run' : Run Outcome) : Prop :=
  run.Compares .cutOffVerdicts run' fun outcome outcome' => outcome'.verdict = outcome.verdict

section Verdicts

open Run.Comparison

variable {α : Type} [Element α] {g : Graph α} {input : Array α} {limit limit' depth : Nat}

theorem Graph.runWithin_sameVerdict (g : Graph α) (input : Array α) (limit limit' depth extra : Nat)
    (id : RuleId) (start : Nat) :
    (g.runWithin input limit depth id start).SameVerdict
      (g.runWithin input limit' (depth + extra) id start) := by
  have hgraphs : (Correspondence.identical cutOffVerdicts).Graphs g g input input :=
    Correspondence.identical_graphs g input (fun _ _ _ _ => trivial) (fun _ _ _ _ => trivial)
      fun _ => rfl
  have hexcuse (pos : Nat) : cutOffVerdicts.excuses (.depthExceeded limit pos) := ⟨limit, pos, rfl⟩
  have hagree := Correspondence.runWithin_agree hgraphs limit limit' extra
    (fun _ _ _ _ pos => Run.Compares.excused (hexcuse pos) _) depth id id rfl start
  exact hagree.mono fun _ _ houtcome => congrArg _ houtcome.eq_of_identical.symm

/-- What is compared with the verdict of a kind may as well be compared with that of a rule of this
kind. -/
theorem Graph.compares_rule {β : Type} {run : Run β} (related : β → Option Nat → Prop) {id : RuleId}
    {kind : Kind α} (hkind : g.kind? id = some kind) {start : Nat}
    (h : run.Compares cutOffVerdicts
      (Match.kind g input (g.runWithin input limit depth) id kind start)
      fun value outcome => related value outcome.verdict) :
    run.Compares cutOffVerdicts (g.runWithin input limit (depth + 1) id start)
      fun value outcome => related value outcome.verdict := by
  obtain ⟨rule, hrule, rfl⟩ := Option.map_eq_some_iff.mp hkind
  rw [Graph.runWithin_succ hrule, Match.rule]
  refine h.map_right fun value outcome houtcome => ?_
  rwa [Outcome.verdict_mapNodes]

/-- Where a run comes to a value, a match of its own does, with the depth that was left. -/
theorem Graph.runWithin_yields_matchAt (g : Graph α) (input : Array α) (limit depth : Nat)
    (id : RuleId) (start : Nat) :
    (g.runWithin input limit depth id start).Yields fun outcome =>
      (g.matchAt input depth id start).1 = .ok outcome := by
  intro trace _
  obtain ⟨result, more, huniform⟩ := g.runWithin_uniform input limit depth id start
  refine ⟨trivial, ?_⟩
  rw [huniform]
  cases result with
  | error cause => trivial
  | ok outcome =>
      have hcut (reached pos : Nat) : ((g.runWithin input limit depth id start).result {}).1 ≠
          .error (.depthExceeded reached pos) := by
        rw [huniform]
        exact nofun
      have hsame := runWithin_deeper hcut depth 0
      rw [huniform] at hsame
      exact congrArg Prod.fst hsame

theorem Match.firstOf_sameVerdict {sub sub' : RuleId → Nat → Run Outcome} {start : Nat}
    (h : ∀ id, (sub id start).SameVerdict (sub' id start)) (ids : List RuleId) :
    (firstOf sub start ids).SameVerdict (firstOf sub' start ids) := by
  induction ids with
  | nil => exact .pure rfl
  | cons id ids ih =>
      refine (h id).bind fun outcome outcome' hverdict => ?_
      cases outcome <;> cases outcome' <;> cases hverdict
      · exact ih
      · exact .pure rfl

end Verdicts

/-! ## Operators -/

namespace Match

section Links

variable (sub : RuleId → Nat → Run Outcome) (form : ChainForm)

/-- The link that an operator makes with its right operand, if the two are not both empty. -/
def linkOf (operator : BinaryOperator) (start : Nat) : Run (Option Link) := do
  match ← sub operator.operator start with
  | .failure => pure none
  | .success len nodes =>
    match ← rightOperand sub form operator (start + len) with
    | .failure => pure none
    | .success len' nodes' =>
      if len + len' = 0 then pure none
      else pure (some ⟨operator, nodes, ⟨⟨start + len, len'⟩, nodes'⟩⟩)

/-- The next link is that of the first operator that makes one. -/
theorem nextLink_cons (start : Nat) (operator : BinaryOperator) (rest : List BinaryOperator) :
    nextLink sub form start (operator :: rest) =
      linkOf sub form operator start >>= fun link? =>
        link?.elim (nextLink sub form start rest) fun link => pure (some link) := by
  rw [nextLink, linkOf, bind_assoc]
  refine bind_congr fun outcome => ?_
  cases outcome with
  | failure => rfl
  | success len nodes =>
      dsimp only
      rw [bind_assoc]
      refine bind_congr fun right => ?_
      cases right with
      | failure => rfl
      | success len' nodes' =>
          dsimp only
          split <;> rfl

theorem extend_zero (pos : Nat) (links : Array Link) :
    extend sub form 0 pos links = nextLink sub form pos form.operators >>= fun link? =>
      link?.elim (pure links) fun _ => pure links := by
  rw [extend]
  refine bind_congr fun link? => ?_
  cases link? <;> rfl

theorem extend_succ (room pos : Nat) (links : Array Link) :
    extend sub form (room + 1) pos links = nextLink sub form pos form.operators >>= fun link? =>
      link?.elim (pure links) fun link =>
        extend sub form room link.right.span.stop (links.push link) := by
  rw [extend]
  refine bind_congr fun link? => ?_
  cases link? <;> rfl

end Links

/-- What there is to a link as far as lengths go: something that a pair matches at a position. -/
inductive LinkVerdict (pos : Nat) : Option Link → Option Nat → Prop
  | none : LinkVerdict pos none none
  | some {link : Link} {len : Nat} (hstop : link.right.span.stop = pos + len) (hlen : len ≠ 0) :
    LinkVerdict pos (some link) (some len)

end Match

namespace Graph.Desugaring

open Run.Comparison

variable {α : Type} [Element α] {g : Graph α} {evaluation : RuleId} {alternatives : List RuleId}
variable (d : g.Desugaring evaluation alternatives) (input : Array α) (limit limit' depth : Nat)

/-- What an evaluation tries for an operand against the rule for it, one level deeper or more. -/
theorem operand_sameVerdict (extra pos : Nat) :
    (firstOf (g.runWithin input limit depth) pos
        (ChainForm.ofEvaluation g evaluation alternatives).operands).SameVerdict
      (g.runWithin input limit' (depth + extra + 1) d.operand pos) := by
  have hkind := d.kind_operand
  rw [readOperands_iff.mp d.reads_operands] at hkind
  refine compares_rule (fun outcome verdict => verdict = Outcome.verdict outcome) hkind ?_
  refine (firstOf_sameVerdict
    (fun id => g.runWithin_sameVerdict input limit limit' depth extra id pos) _).map_right
      fun outcome outcome' houtcome => ?_
  rwa [Outcome.verdict_under]

/-- The same for a right operand and the second rule of its pair. -/
theorem rightOperand_sameVerdict (operator : BinaryOperator) (pos : Nat) :
    (rightOperand (g.runWithin input limit depth)
        (ChainForm.ofEvaluation g evaluation alternatives) operator pos).SameVerdict
      (g.runWithin input limit' (depth + 1)
        (if g.leadsTo operator.right evaluation then d.operand else operator.right) pos) := by
  rw [rightOperand]
  show Run.SameVerdict (if g.leadsTo operator.right evaluation then _ else _) _
  split
  · exact d.operand_sameVerdict input limit limit' depth 0 pos
  · exact g.runWithin_sameVerdict input limit limit' depth 1 operator.right pos

/-- The link of an operator against its pair: a pair that matches nothing makes none. -/
theorem linkOf_compares {pair : RuleId} {operator : BinaryOperator}
    (hkind : g.kind? pair = some (.sequence [operator.operator,
      if g.leadsTo operator.right evaluation then d.operand else operator.right])) (pos : Nat) :
    (linkOf (g.runWithin input limit depth) (ChainForm.ofEvaluation g evaluation alternatives)
        operator pos).Compares cutOffVerdicts (g.runWithin input limit' (depth + 1 + 1) pair pos)
      fun link? outcome =>
        LinkVerdict pos link? outcome.verdict ∨ link? = none ∧ outcome.verdict = some 0 := by
  refine compares_rule
    (fun link? verdict => LinkVerdict pos link? verdict ∨ link? = none ∧ verdict = some 0) hkind ?_
  suffices hpair : (linkOf (g.runWithin input limit depth)
      (ChainForm.ofEvaluation g evaluation alternatives) operator pos).Compares cutOffVerdicts
      (inSequence (g.runWithin input limit' (depth + 1)) pos [operator.operator,
        if g.leadsTo operator.right evaluation then d.operand else operator.right] 0 #[])
      fun link? outcome =>
        LinkVerdict pos link? outcome.verdict ∨ link? = none ∧ outcome.verdict = some 0 from
    hpair.map_right fun link? outcome h => by rwa [Outcome.verdict_under]
  have hfailed : LinkVerdict pos none none ∨ (none : Option Link) = none ∧ (none : Option Nat) = some 0 :=
    .inl .none
  -- First the operator on both sides.
  refine (g.runWithin_sameVerdict input limit limit' depth 1 operator.operator pos).bind
    fun outcome outcome' hverdict => ?_
  cases outcome <;> cases outcome' <;> cases hverdict
  · exact .pure hfailed
  rename_i len nodes nodes'
  dsimp only
  rw [inSequence, Nat.zero_add]
  -- Then the right operand, which is the common one where the rule leads back to the evaluation.
  refine (d.rightOperand_sameVerdict input limit limit' depth operator (pos + len)).bind
    fun right right' hverdict => ?_
  cases right <;> cases right' <;> cases hverdict
  · exact .pure hfailed
  rename_i len' found found'
  dsimp only
  split
  next hempty => exact .pure (.inr ⟨rfl, congrArg some hempty⟩)
  next hne => exact .pure (.inl (.some (Nat.add_assoc pos len len') hne))

/-- The next link against the choice of pairs, where no pair matches nothing. -/
theorem nextLink_compares {pos : Nat} (hpairs : ∀ pair ∈ d.pairs, ∀ limit nodes,
    (g.matchAt input limit pair pos).1 ≠ .ok (.success 0 nodes)) :
    (nextLink (g.runWithin input limit depth) (ChainForm.ofEvaluation g evaluation alternatives) pos
        (ChainForm.ofEvaluation g evaluation alternatives).operators).Compares cutOffVerdicts
      (g.runWithin input limit' (depth + 1 + 1 + 1) d.choice pos)
      fun link? outcome => LinkVerdict pos link? outcome.verdict := by
  refine compares_rule (LinkVerdict pos) d.kind_choice ?_
  suffices hfirst : (nextLink (g.runWithin input limit depth)
      (ChainForm.ofEvaluation g evaluation alternatives) pos
      (ChainForm.ofEvaluation g evaluation alternatives).operators).Compares cutOffVerdicts
      (firstOf (g.runWithin input limit' (depth + 1 + 1)) pos d.pairs)
      fun link? outcome => LinkVerdict pos link? outcome.verdict from
    hfirst.map_right fun link? outcome h => by rwa [Outcome.verdict_under]
  have hkinds := readPairs_iff.mp d.reads_pairs
  -- The induction is along the pairs, which go with the operators one by one.
  revert hpairs hkinds
  generalize (ChainForm.ofEvaluation g evaluation alternatives).operators = operators
  generalize d.pairs = pairs
  intro hpairs hkinds
  induction hkinds with
  | nil => exact .pure .none
  | cons hkind _ ih =>
      obtain ⟨hpair, hrest⟩ := List.forall_mem_cons.mp hpairs
      rw [nextLink_cons]
      have hlink := (d.linkOf_compares input limit limit' depth hkind pos).and_yields_right
        (g.runWithin_yields_matchAt input limit' (depth + 1 + 1) _ pos)
      refine hlink.bind fun link? outcome houtcome => ?_
      obtain ⟨hverdict | ⟨-, hempty⟩, hmatch⟩ := houtcome
      · cases outcome <;> cases hverdict
        · exact ih hrest
        · exact .pure (.some ‹_› ‹_›)
      · cases outcome <;> cases hempty
        exact absurd hmatch (hpair _ _)

/-! ## Chains -/

section Chains

variable {start first pos reps len : Nat} {links : Array Link} {nodes : Array Node}

/-- One more link against one more repetition.  Where there is one, both have consumed the same, and
no more than there is left. -/
theorem round_compares {related : Array Link → Outcome → Prop} (hempty : d.NoEmptyPair input start)
    (hpos : d.Reaches input start pos) (hlen : pos = first + len) (label : String)
    {further : Link → Run (Array Link)} {again : (reps len : Nat) → (nodes : Array Node) → Run Outcome}
    (hover : related links (.success len nodes.toList))
    (hagain : ∀ link more (found : List Node), link.right.span.stop = pos + more → more ≠ 0 →
      more ≤ input.size - pos → d.Reaches input start (pos + more) →
      (further link).Compares cutOffVerdicts (again (reps + 1) (len + more) (nodes ++ found)) related) :
    (nextLink (g.runWithin input limit depth) (ChainForm.ofEvaluation g evaluation alternatives) pos
        (ChainForm.ofEvaluation g evaluation alternatives).operators >>= fun link? =>
      link?.elim (pure links) further).Compares cutOffVerdicts
      (repetition (g.runWithin input limit' (depth + 1 + 1 + 1)) label d.choice 0 0 first again reps len
        nodes) related := by
  subst hlen
  -- What the round matches is known twice: as an outcome of the choice, and as one that stays inside.
  have hround := ((d.nextLink_compares input limit limit' depth (hempty _ hpos)).and_yields_right
    (g.runWithin_yields_matchAt input limit' (depth + 1 + 1 + 1) d.choice _)).and_yields_right
    (g.runWithin_consumes input limit' (depth + 1 + 1 + 1) d.choice _)
  rw [repetition, if_neg (fun hmax => hmax.1 rfl)]
  refine hround.bind fun link? outcome houtcome => ?_
  obtain ⟨⟨hverdict, hmatch⟩, hconsumed⟩ := houtcome
  cases outcome with
  | failure =>
      cases hverdict
      exact .pure (by rwa [enough, if_neg (Nat.not_lt_zero reps)])
  | success more found =>
      cases hverdict with
      | some hstop hmore =>
          obtain ⟨more, rfl⟩ := Nat.exists_eq_succ_of_ne_zero hmore
          exact hagain _ _ found hstop hmore hconsumed (.pair hpos hmatch)

/-- The links of a chain against the repetition of pairs.  So far both have come to `pos`, and in the
end they come to the same position. -/
theorem extend_compares (hempty : d.NoEmptyPair input start) {head : Operand} (room : Nat)
    {room' : Nat} (label : String) (hpos : d.Reaches input start pos)
    (hstop : (ChainTree.ofChain head links.toList).stop = pos) (hlen : pos = first + len)
    (hroom : input.size - pos ≤ room) (hroom' : input.size - pos ≤ room') :
    (extend (g.runWithin input limit depth) (ChainForm.ofEvaluation g evaluation alternatives) room
        pos links).Compares cutOffVerdicts
      (repeated (g.runWithin input limit' (depth + 1 + 1 + 1)) label d.choice 0 0 first room' reps len
        nodes)
      fun links outcome => ∃ more, outcome.verdict = some more ∧
        (ChainTree.ofChain head links.toList).stop = first + more := by
  have hover : ∃ more, (Outcome.success len nodes.toList).verdict = some more ∧
      (ChainTree.ofChain head links.toList).stop = first + more := ⟨len, rfl, hstop.trans hlen⟩
  -- The rooms of both loops may differ, as long as neither is less than what is left of the input.
  induction room generalizing room' pos reps len links nodes with
  | zero =>
      rw [extend_zero]
      cases room' with
      | zero =>
          rw [repeated]
          exact d.round_compares input limit limit' depth hempty hpos hlen label hover
            fun link more found _ hmore hle _ => by omega
      | succ room' =>
          rw [repeated]
          exact d.round_compares input limit limit' depth hempty hpos hlen label hover
            fun link more found _ hmore hle _ => by omega
  | succ room ih =>
      rw [extend_succ]
      cases room' with
      | zero =>
          rw [repeated]
          exact d.round_compares input limit limit' depth hempty hpos hlen label hover
            fun link more found _ hmore hle _ => by omega
      | succ room' =>
          rw [repeated]
          refine d.round_compares input limit limit' depth hempty hpos hlen label hover
            fun link more found hright hmore hle hreaches => ?_
          -- The link just found ends where the round of the repetition ends.
          have hend : (ChainTree.ofChain head (links.push link).toList).stop = pos + more := by
            rw [Array.toList_push, ChainTree.stop_ofChain, List.foldl_append,
              ← ChainTree.stop_ofChain, hstop, List.foldl_cons, List.foldl_nil, hright]
            omega
          rw [hright]
          exact ih hreaches hend (by omega) (by omega) (by omega)
            ⟨len + more, rfl, by rw [hend]; omega⟩

/-- The links after an operand against the rule for all pairs. -/
theorem extend_compares_tail (hempty : d.NoEmptyPair input start) (head : Operand)
    (hpos : d.Reaches input start head.span.stop) {room : Nat}
    (hroom : input.size - head.span.stop ≤ room) :
    (extend (g.runWithin input limit depth) (ChainForm.ofEvaluation g evaluation alternatives) room
        head.span.stop #[]).Compares cutOffVerdicts
      (g.runWithin input limit' (depth + 4) d.tail head.span.stop)
      fun links outcome => ∃ more, outcome.verdict = some more ∧
        (ChainTree.ofChain head links.toList).stop = head.span.stop + more := by
  refine compares_rule (fun (links : Array Link) verdict => ∃ more, verdict = some more ∧
    (ChainTree.ofChain head links.toList).stop = head.span.stop + more) d.kind_tail ?_
  have hstop : (ChainTree.ofChain head (#[] : Array Link).toList).stop = head.span.stop := rfl
  have hlen : head.span.stop = head.span.stop + 0 := rfl
  refine (d.extend_compares input limit limit' depth hempty room (g.label d.tail) hpos hstop hlen
    hroom (Nat.le_refl _)).map_right fun links outcome houtcome => ?_
  rwa [Outcome.verdict_under]

end Chains

/-- A chain against an operand and all pairs. -/
theorem chain_sameVerdict {start : Nat} (hempty : d.NoEmptyPair input start) :
    (Match.chain (g.runWithin input limit depth) (ChainForm.ofEvaluation g evaluation alternatives) g
        input.size start).SameVerdict
      (inSequence (g.runWithin input limit' (depth + 4)) start [d.operand, d.tail] 0 #[]) := by
  have hfirst := (d.operand_sameVerdict input limit limit' depth 3 start).and_yields_right
    (g.runWithin_yields_matchAt input limit' (depth + 4) d.operand start)
  refine hfirst.bind fun outcome outcome' houtcome => ?_
  obtain ⟨hverdict, hmatch⟩ := houtcome
  cases outcome <;> cases outcome' <;> cases hverdict
  · exact .pure rfl
  rename_i len nodes nodes'
  dsimp only
  rw [inSequence, Nat.zero_add]
  -- After the first operand the rest of the chain is the repetition.
  have htail := d.extend_compares_tail input limit limit' depth hempty ⟨⟨start, len⟩, nodes⟩
    (.operand hmatch) (show input.size - (start + len) ≤ input.size - start by omega)
  refine htail.bind fun links outcome houtcome => ?_
  obtain ⟨more, hmore, hstop⟩ := houtcome
  cases outcome <;> cases hmore
  refine .pure ?_
  rw [ChainTree.stop_fold, hstop]
  simp [Span.stop]
  omega

/-- An evaluation against the rules that spell it out, four levels deeper. -/
theorem evaluation_sameVerdict {start : Nat} (hempty : d.NoEmptyPair input start) :
    (g.runWithin input limit depth evaluation start).SameVerdict
      (g.runWithin input limit' (depth + 4) d.whole start) := by
  obtain ⟨rule, hrule, hkind⟩ := Option.map_eq_some_iff.mp d.kind_evaluation
  cases depth with
  | zero =>
      rw [Graph.runWithin_zero hrule]
      have hexcuse : cutOffVerdicts.excuses (.depthExceeded limit start) := ⟨limit, start, rfl⟩
      exact .excused hexcuse _
  | succ depth =>
      rw [Graph.runWithin_succ hrule, Match.rule, hkind]
      refine compares_rule (fun outcome verdict => verdict = Outcome.verdict outcome) d.kind_whole ?_
      refine (d.chain_sameVerdict input limit limit' depth hempty).map fun outcome outcome' h => ?_
      rw [Outcome.verdict_under, Outcome.verdict_mapNodes, h]

/-- What an evaluation comes to, the rules that spell it out come to under a limit higher by four. -/
theorem matchAt_eq_of_evaluation {start : Nat} (hempty : d.NoEmptyPair input start) {limit : Nat}
    (hcut : ¬ CutOff (g.matchAt input limit evaluation start)) :
    (g.matchAt input (limit + 4) d.whole start).1.map Outcome.verdict =
      (g.matchAt input limit evaluation start).1.map Outcome.verdict := by
  have hsame := d.evaluation_sameVerdict input limit (limit + 4) limit hempty
  refine (Run.Compares.map_result_eq hsame trivial (fun _ _ h => h) ?_ fun _ _ h => h.symm).1
  rintro cause hcause ⟨reached, pos, rfl⟩
  exact hcut ⟨reached, pos, hcause⟩

/-- The same under any two limits that neither is cut off by. -/
theorem matchAt_eq_of_not_cutOff {start : Nat} (hempty : d.NoEmptyPair input start)
    {limit limit' : Nat} (hcut : ¬ CutOff (g.matchAt input limit evaluation start))
    (hcut' : ¬ CutOff (g.matchAt input limit' d.whole start)) :
    (g.matchAt input limit' d.whole start).1.map Outcome.verdict =
      (g.matchAt input limit evaluation start).1.map Outcome.verdict := by
  have hdeep : g.matchAt input (max limit limit') evaluation start =
      g.matchAt input limit evaluation start := matchAt_of_le hcut (Nat.le_max_left ..)
  have hdeep' : g.matchAt input (max limit limit' + 4) d.whole start =
      g.matchAt input limit' d.whole start :=
    matchAt_of_le hcut' (Nat.le_trans (Nat.le_max_right ..) (Nat.le_add_right ..))
  rw [← hdeep']
  rw [← hdeep] at hcut ⊢
  exact d.matchAt_eq_of_evaluation input hempty hcut

end Graph.Desugaring

end RuleScript
