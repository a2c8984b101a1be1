import Mathlib.Control.Monad.Basic
import RuleScript.Proofs.Forest
import RuleScript.Proofs.Match.Loops
import RuleScript.Proofs.Match.Subtraction

/-!
# Matches stay inside the input

Nothing a match leaves reaches past the end of the input: not the elements consumed, not the nodes,
not the farthest miss, not the place an abort is about.  Nor does anything reach back before the
position the rule was tried at.

It is tempting to claim that nodes end where the match ends, but this is false: a lookahead
consumes nothing and leaves the nodes of what it saw, and a log entry covers what its guard saw.
What is kept by every rule, every loop, the fold of operator chains and pruning is `InBounds lo hi`,
where `hi` may be any position at or after the end of the input and `lo` is where the rule was
tried.  A rule inside is tried at some later position, with a smaller `InBounds`, and passes it on.

`Graph.run_inBounds` says all of this of a match, together with what `Graph.runBy_eq` says of the
lengths it computes.
-/

namespace RuleScript

/-! ## Bounds -/

/-- A span that neither starts before `lo` nor ends after `hi`. -/
def Span.Within (lo hi : Nat) (span : Span) : Prop := lo ≤ span.start ∧ span.stop ≤ hi

/-- A forest all of whose nodes, at any depth, are over spans within bounds. -/
def Node.AllWithin (lo hi : Nat) (forest : List Node) : Prop :=
  ∀ node ∈ Node.preorderAll forest, node.span.Within lo hi

/-- What a match that started at `lo` may come to if it is not to leave `hi` behind. -/
def Outcome.InBounds (lo hi : Nat) : Outcome → Prop
  | .failure => True
  | .success len nodes => lo + len ≤ hi ∧ Node.AllWithin lo hi nodes

/-- An abort that is about a place between `lo` and `hi`, or about none. -/
def Abort.InBounds (lo hi : Nat) : Abort → Prop
  | .fatal _ span => span.Within lo hi
  | .depthExceeded _ pos => lo ≤ pos ∧ pos ≤ hi
  | .unresolvedReference _ | .missingRoot => True

/-- An operand that lies between two positions, with all its nodes. -/
def Operand.InBounds (lo hi : Nat) (operand : Operand) : Prop :=
  operand.span.Within lo hi ∧ Node.AllWithin lo hi operand.nodes

/-- A link whose nodes and whose right operand lie between two positions. -/
def Link.InBounds (lo hi : Nat) (link : Link) : Prop :=
  Node.AllWithin lo hi link.nodes ∧ link.right.InBounds lo hi

variable {lo lo' hi : Nat}

theorem Span.Within.mono {span : Span} (h : span.Within lo hi) (hlo : lo' ≤ lo) :
    span.Within lo' hi :=
  ⟨Nat.le_trans hlo h.1, h.2⟩

theorem Span.Within.cover {s t : Span} (hs : s.Within lo hi) (ht : t.Within lo hi) :
    (s.cover t).Within lo hi := by
  obtain ⟨hs, hs'⟩ := hs
  obtain ⟨ht, ht'⟩ := ht
  constructor
  · rw [start_cover]
    omega
  · rw [stop_cover]
    omega

theorem Abort.InBounds.mono {cause : Abort} (h : cause.InBounds lo hi) (hlo : lo' ≤ lo) :
    cause.InBounds lo' hi := by
  cases cause with
  | fatal message span => exact Span.Within.mono h hlo
  | depthExceeded limit pos => exact ⟨Nat.le_trans hlo h.1, h.2⟩
  | unresolvedReference name => trivial
  | missingRoot => trivial

namespace Node.AllWithin

theorem nil : Node.AllWithin lo hi [] :=
  fun _ h => absurd h List.not_mem_nil

theorem mono {forest : List Node} (h : Node.AllWithin lo hi forest) (hlo : lo' ≤ lo) :
    Node.AllWithin lo' hi forest :=
  fun node hnode => (h node hnode).mono hlo

theorem append {first second : List Node} (hfirst : Node.AllWithin lo hi first)
    (hsecond : Node.AllWithin lo hi second) : Node.AllWithin lo hi (first ++ second) := by
  intro node hnode
  rw [Node.preorderAll_append, List.mem_append] at hnode
  exact hnode.elim (hfirst node) (hsecond node)

theorem under {id : RuleId} {span : Span} {children : List Node} (hspan : span.Within lo hi)
    (hchildren : Node.AllWithin lo hi children) : Node.AllWithin lo hi [⟨id, span, children⟩] := by
  intro node hnode
  rw [Node.preorderAll_singleton] at hnode
  rcases List.mem_cons.mp hnode with rfl | hnode
  · exact hspan
  · exact hchildren node hnode

theorem prune {α : Type} {g : Graph α} {pruning : Pruning} {forest : List Node}
    (h : Node.AllWithin lo hi forest) : Node.AllWithin lo hi (g.prune pruning forest) := by
  intro node hnode
  obtain ⟨origin, hmem, -, hspan⟩ := Graph.exists_origin_of_mem_prune hnode
  rw [← hspan]
  exact h origin hmem

end Node.AllWithin

/-! ## Combinations -/

/-- A run that misses no element after `hi`, and whose aborts are between `lo` and `hi`. -/
def Run.StaysWithin {β : Type} (lo hi : Nat) (run : Run β) (ok : β → Prop) : Prop :=
  run.Meets (·.farthest ≤ hi) (·.InBounds lo hi) ok

namespace Match

variable {sub : RuleId → Nat → Run Outcome} {start : Nat}

theorem miss_staysWithin {pos : Nat} (hpos : pos ≤ hi) :
    (Run.miss pos).StaysWithin lo hi (·.InBounds lo hi) :=
  Run.Meets.miss trivial fun _ htrace => Nat.max_le.mpr ⟨htrace, hpos⟩

theorem record_staysWithin (event : Event) :
    (Run.record event).StaysWithin lo hi fun _ => True :=
  Run.Meets.record trivial fun _ htrace => htrace

/-- Rules inside that stay in bounds wherever they are tried. -/
def SubsStayWithin (hi : Nat) (sub : RuleId → Nat → Run Outcome) : Prop :=
  ∀ id pos, pos ≤ hi → (sub id pos).StaysWithin pos hi (·.InBounds pos hi)

theorem SubsStayWithin.from (hsub : SubsStayWithin hi sub) (id : RuleId) {pos : Nat}
    (hlo : lo ≤ pos) (hpos : pos ≤ hi) : (sub id pos).StaysWithin lo hi (·.InBounds pos hi) :=
  (hsub id pos hpos).mono (fun _ h => h.mono hlo) fun _ h => h

theorem inSequence_staysWithin (hsub : SubsStayWithin hi sub) (ids : List RuleId) (len : Nat)
    (nodes : Array Node) (hlen : start + len ≤ hi)
    (hnodes : Node.AllWithin start hi nodes.toList) :
    (inSequence sub start ids len nodes).StaysWithin start hi (·.InBounds start hi) := by
  induction ids generalizing len nodes with
  | nil => exact .pure ⟨hlen, hnodes⟩
  | cons id ids ih =>
      refine inSequence_cons_meets (hsub.from id (Nat.le_add_right start len) hlen) (fun _ => trivial)
        fun more found houtcome => ?_
      obtain ⟨hmore, hfound⟩ := houtcome
      refine ih _ _ (by omega) ?_
      rw [Array.toList_appendList]
      exact hnodes.append (hfound.mono (Nat.le_add_right start len))

theorem firstOf_staysWithin (hsub : SubsStayWithin hi sub) (hstart : start ≤ hi)
    (ids : List RuleId) : (firstOf sub start ids).StaysWithin start hi (·.InBounds start hi) :=
  firstOf_meets (fun id _ => hsub id start hstart) trivial fun _ _ _ _ houtcome => houtcome

theorem enough_inBounds {min reps len : Nat} {nodes : Array Node} (hlen : start + len ≤ hi)
    (hnodes : Node.AllWithin start hi nodes.toList) :
    (enough min reps len nodes).InBounds start hi := by
  rw [enough]
  split
  · trivial
  · exact ⟨hlen, hnodes⟩

theorem repetition_staysWithin (hsub : SubsStayWithin hi sub) (label : String) (id : RuleId)
    (min max : Nat) {again : Nat → Nat → Array Node → Run Outcome} {reps len : Nat}
    {nodes : Array Node} (hlen : start + len ≤ hi) (hnodes : Node.AllWithin start hi nodes.toList)
    (hagain : ∀ reps len nodes, start + len ≤ hi → Node.AllWithin start hi nodes.toList →
      (again reps len nodes).StaysWithin start hi (·.InBounds start hi)) :
    (repetition sub label id min max start again reps len nodes).StaysWithin start hi
      (·.InBounds start hi) := by
  have hfound {more : Nat} {found : List Node}
      (h : Outcome.InBounds (start + len) hi (.success more found)) :
      Node.AllWithin start hi (nodes ++ found).toList := by
    rw [Array.toList_appendList]
    exact hnodes.append (h.2.mono (Nat.le_add_right start len))
  -- One bound for each way in which a round can end.
  refine repetition_meets (hsub.from id (Nat.le_add_right start len) hlen) ?_ ?_ ?_ ?_ ?_
  · intro _ _
    exact enough_inBounds hlen hnodes
  · intro _ _
    exact enough_inBounds hlen hnodes
  · intro _ _ _
    exact (record_staysWithin _).bind fun _ _ => .pure trivial
  · intro found _ _ houtcome
    exact enough_inBounds hlen (hfound houtcome)
  · intro more found _ _ houtcome
    have hmore : start + len + more ≤ hi := houtcome.1
    exact hagain _ _ _ (by omega) (hfound houtcome)

theorem repeated_staysWithin (hsub : SubsStayWithin hi sub) (label : String) (id : RuleId)
    (min max room reps len : Nat) (nodes : Array Node) (hlen : start + len ≤ hi)
    (hnodes : Node.AllWithin start hi nodes.toList) :
    (repeated sub label id min max start room reps len nodes).StaysWithin start hi
      (·.InBounds start hi) := by
  induction room generalizing reps len nodes with
  | zero =>
      exact repetition_staysWithin hsub label id min max hlen hnodes
        fun reps len nodes hlen hnodes => .pure (enough_inBounds hlen hnodes)
  | succ room ih =>
      exact repetition_staysWithin hsub label id min max hlen hnodes ih

theorem stopOr_staysWithin (hsub : SubsStayWithin hi sub) (stop : RuleId) (stopBefore : Bool)
    (passed : Nat) {beyond : Run Outcome} (hpassed : start + passed ≤ hi)
    (hbeyond : beyond.StaysWithin start hi (·.InBounds start hi)) :
    (stopOr sub stop stopBefore start passed beyond).StaysWithin start hi
      (·.InBounds start hi) := by
  refine stopOr_meets (hsub.from stop (Nat.le_add_right start passed) hpassed)
    (fun len nodes houtcome => ?_) fun _ => hbeyond
  obtain ⟨hlen, hnodes⟩ := houtcome
  split
  · exact ⟨hpassed, .nil⟩
  · exact ⟨by omega, hnodes.mono (Nat.le_add_right start passed)⟩

theorem skipTo_staysWithin (hsub : SubsStayWithin hi sub) (stop : RuleId)
    (stopBefore failOnEnd : Bool) (room passed : Nat) (hroom : start + passed + room ≤ hi) :
    (skipTo sub stop stopBefore failOnEnd start room passed).StaysWithin start hi
      (·.InBounds start hi) := by
  induction room generalizing passed with
  | zero =>
      refine stopOr_staysWithin hsub stop stopBefore passed hroom (.pure ?_)
      split
      · trivial
      · exact ⟨hroom, .nil⟩
  | succ room ih =>
      exact stopOr_staysWithin hsub stop stopBefore passed (by omega)
        (ih (passed + 1) (by omega))

/-! ## Operator chains -/

variable {form : ChainForm}

theorem rightOperand_staysWithin (hsub : SubsStayWithin hi sub) (operator : BinaryOperator)
    {pos : Nat} (hlo : lo ≤ pos) (hpos : pos ≤ hi) :
    (rightOperand sub form operator pos).StaysWithin lo hi (·.InBounds pos hi) := by
  rw [rightOperand]
  split
  · exact (firstOf_staysWithin hsub hpos form.operands).mono (fun _ h => h.mono hlo) fun _ h => h
  · exact hsub.from operator.right hlo hpos

theorem nextLink_staysWithin (hsub : SubsStayWithin hi sub) {pos : Nat} (hlo : lo ≤ pos)
    (hpos : pos ≤ hi) :
    (nextLink sub form pos form.operators).StaysWithin lo hi
      fun link? => ∀ link ∈ link?, link.InBounds lo hi ∧
        (lo ≤ link.right.span.stop ∧ link.right.span.stop ≤ hi) := by
  have hlo' (len : Nat) : lo ≤ pos + len := Nat.le_trans hlo (Nat.le_add_right pos len)
  -- The operator ends at `pos + len`, where its right operand starts.
  have hright (operator : BinaryOperator) (len : Nat) (nodes : List Node)
      (houtcome : Outcome.InBounds pos hi (.success len nodes)) :
      (rightOperand sub form operator (pos + len)).StaysWithin lo hi (·.InBounds (pos + len) hi) :=
    rightOperand_staysWithin hsub operator (hlo' len) houtcome.1
  refine nextLink_meets (fun operator _ => hsub.from operator.operator hlo hpos)
    (fun operator _ => hright operator) ?_
  intro operator _ len nodes len' nodes' _ houtcome hmatch
  have hoperand : Operand.InBounds lo hi ⟨⟨pos + len, len'⟩, nodes'⟩ :=
    ⟨⟨hlo' len, hmatch.1⟩, hmatch.2.mono (hlo' len)⟩
  have hstop : lo ≤ pos + len + len' := Nat.le_trans (hlo' len) (Nat.le_add_right _ _)
  exact ⟨⟨houtcome.2.mono hlo, hoperand⟩, hstop, hmatch.1⟩

theorem extend_staysWithin (hsub : SubsStayWithin hi sub) (room pos : Nat)
    (hlo : lo ≤ pos) (hpos : pos ≤ hi) :
    (extend sub form room pos #[]).StaysWithin lo hi
      fun links => ∀ link ∈ links, link.InBounds lo hi :=
  extend_meets (fun pos => lo ≤ pos ∧ pos ≤ hi)
    (fun _ hpos => nextLink_staysWithin hsub hpos.1 hpos.2) room pos #[] ⟨hlo, hpos⟩ (by simp)

theorem combine_inBounds {α : Type} (g : Graph α) (operator : BinaryOperator) {nodes : List Node}
    {left right : Operand} (hnodes : Node.AllWithin lo hi nodes) (hleft : left.InBounds lo hi)
    (hright : right.InBounds lo hi) :
    (ChainTree.combine g operator nodes left right).InBounds lo hi := by
  have hspan := hleft.1.cover hright.1
  exact ⟨hspan, (Node.AllWithin.under hspan ((hleft.2.append hnodes).append hright.2)).prune⟩

theorem chain_staysWithin {α : Type} (g : Graph α) (hsub : SubsStayWithin hi sub)
    (hstart : start ≤ hi) (size : Nat) :
    (chain sub form g size start).StaysWithin start hi (·.InBounds start hi) := by
  refine (firstOf_staysWithin hsub hstart form.operands).bind fun outcome houtcome => ?_
  cases outcome with
  | failure => exact .pure trivial
  | success len nodes =>
      obtain ⟨hlen, hnodes⟩ := houtcome
      refine (extend_staysWithin hsub (size - start) (start + len) (Nat.le_add_right start len)
        hlen).bind fun links hlinks => .pure ?_
      have hfirst : Operand.InBounds start hi ⟨⟨start, len⟩, nodes⟩ :=
        ⟨⟨Nat.le_refl start, hlen⟩, hnodes⟩
      have hlinks : ∀ link ∈ links.toList, link.InBounds start hi :=
        fun link hlink => hlinks link (Array.mem_toList_iff.mp hlink)
      have hfolded : ((ChainTree.ofChain ⟨⟨start, len⟩, nodes⟩ links.toList).fold g).InBounds
          start hi :=
        ChainTree.fold_ofChain (Q := fun _ nodes => Node.AllWithin start hi nodes) hfirst hlinks
          fun operator nodes left right => combine_inBounds g operator
      obtain ⟨⟨hlo, hhi⟩, hall⟩ := hfolded
      refine ⟨?_, hall⟩
      -- The fold may start after `start`, so its length alone says too little: it is the end of
      -- the fold that lies inside, and the length is counted from `start`.
      have hle := Nat.le_trans hlo (Span.start_le_stop _)
      omega

/-! ## Terminals -/

variable {α : Type} {input : Array α}

theorem under_inBounds (id : RuleId) {outcome : Outcome} (h : outcome.InBounds start hi) :
    (outcome.under id start).InBounds start hi := by
  cases outcome with
  | failure => trivial
  | success len nodes => exact ⟨h.1, .under ⟨Nat.le_refl start, h.1⟩ h.2⟩

theorem leaf_inBounds (id : RuleId) {len : Nat} (h : start + len ≤ hi) :
    ((Outcome.success len []).under id start).InBounds start hi :=
  under_inBounds id ⟨h, .nil⟩

theorem element_staysWithin (hsize : input.size ≤ hi) (hstart : start ≤ hi) (id : RuleId)
    (test : α → Bool) :
    (element input id test start : Run Outcome).StaysWithin start hi (·.InBounds start hi) := by
  rw [element]
  split
  · rename_i helement
    obtain ⟨value, hvalue, -⟩ := (Option.any_eq_true _ _).mp helement
    have hlt : start < input.size := (Array.getElem?_eq_some_iff.mp hvalue).1
    exact .pure (leaf_inBounds id (by omega))
  · exact miss_staysWithin hstart

/-- The elements found in agreement with a list are elements of the input. -/
theorem agreeing_le [Element α] (hsize : input.size ≤ hi) (hstart : start ≤ hi) (values : List α) :
    start + agreeing input values start ≤ hi := by
  induction values generalizing start with
  | nil => exact hstart
  | cons value values ih =>
      rw [agreeing]
      split
      · rename_i hvalue
        have hlt : start < input.size := (Array.getElem?_eq_some_iff.mp hvalue).1
        have hrest : start + 1 + agreeing input values (start + 1) ≤ hi := ih (by omega)
        omega
      · exact hstart

theorem allOf_staysWithin [Element α] (hsize : input.size ≤ hi) (hstart : start ≤ hi) (id : RuleId)
    (values : List α) :
    (allOf input id values start : Run Outcome).StaysWithin start hi (·.InBounds start hi) := by
  have hle := agreeing_le hsize hstart values
  simp only [allOf]
  split
  · exact .pure (leaf_inBounds id hle)
  · exact miss_staysWithin hle

theorem anyOf_staysWithin (hsize : input.size ≤ hi) (hstart : start ≤ hi) (id : RuleId)
    (min max : Nat) :
    (anyOf input id min max start : Run Outcome).StaysWithin start hi (·.InBounds start hi) := by
  simp only [anyOf]
  split
  · exact miss_staysWithin hsize
  · refine .pure (leaf_inBounds id ?_)
    split
    · omega
    · have hle : Nat.min (input.size - start) max ≤ input.size - start := Nat.min_le_left _ _
      omega

/-! ## Rules -/

variable (g : Graph α)

theorem entryOver_staysWithin (hstart : start ≤ hi) (id : RuleId) (severity : Severity)
    (message : String) {guarded : Outcome} (hguarded : guarded.InBounds start hi) :
    (entryOver g id severity message start guarded : Run Outcome).StaysWithin start hi
      (·.InBounds start hi) := by
  cases guarded with
  | failure => exact .pure ⟨hstart, .nil⟩
  | success len nodes =>
      have hspan : Span.Within start hi ⟨start, len⟩ := ⟨Nat.le_refl start, hguarded.1⟩
      rw [entryOver]
      split
      · exact .throw hspan
      · exact (record_staysWithin _).bind fun _ _ => .pure ⟨hstart, .under hspan .nil⟩

theorem logEntry_staysWithin (hsub : SubsStayWithin hi sub) (hstart : start ≤ hi) (id : RuleId)
    (severity : Severity) (message : String) (guard : Option RuleId) :
    (logEntry g sub id severity message guard start).StaysWithin start hi
      (·.InBounds start hi) := by
  cases guard with
  | none => exact entryOver_staysWithin g hstart id severity message ⟨hstart, .nil⟩
  | some guard =>
      refine (hsub guard start hstart).bind fun guarded hguarded => ?_
      exact entryOver_staysWithin g hstart id severity message hguarded

variable [Element α]

theorem kind_staysWithin (hsub : SubsStayWithin hi sub) (hsize : input.size ≤ hi)
    (hstart : start ≤ hi) (id : RuleId) (kind : Kind α) :
    (Match.kind g input sub id kind start).StaysWithin start hi (·.InBounds start hi) := by
  cases kind with
  | any min max => exact anyOf_staysWithin hsize hstart id min max
  | single value => exact element_staysWithin hsize hstart id _
  | set values => exact element_staysWithin hsize hstart id _
  | range first last => exact element_staysWithin hsize hstart id _
  | literal values => exact allOf_staysWithin hsize hstart id values
  | sequence subs =>
      exact (inSequence_staysWithin hsub subs 0 #[] hstart .nil).map fun _ => under_inBounds id
  | oneOf subs => exact (firstOf_staysWithin hsub hstart subs).map fun _ => under_inBounds id
  | count one min max =>
      exact (repeated_staysWithin hsub _ one min max _ 0 0 #[] hstart .nil).map
        fun _ => under_inBounds id
  | not one =>
      refine (hsub one start hstart).bind fun outcome _ => ?_
      cases outcome with
      | failure => exact .pure ⟨hstart, .nil⟩
      | success len nodes => exact .pure trivial
  | condition one =>
      -- Nothing is consumed, but the nodes of what was seen are left.
      refine (hsub one start hstart).bind fun outcome houtcome => ?_
      cases outcome with
      | failure => exact .pure trivial
      | success len nodes => exact .pure ⟨hstart, houtcome.2⟩
  | skip stop stopBefore failOnEnd =>
      exact (skipTo_staysWithin hsub stop stopBefore failOnEnd _ 0 (by omega)).map
        fun _ => under_inBounds id
  | log severity message guard => exact logEntry_staysWithin g hsub hstart id severity message guard
  | breakpoint subject =>
      refine (record_staysWithin _).bind fun _ _ => ?_
      refine (hsub subject start hstart).bind fun outcome houtcome => ?_
      exact (record_staysWithin _).bind fun _ _ => .pure houtcome
  | evaluation alternatives => exact chain_staysWithin g hsub hstart input.size
  | reference target subject =>
      cases subject with
      | none => exact .throw trivial
      | some subject => exact hsub subject start hstart

theorem rule_staysWithin (hsub : SubsStayWithin hi sub) (hsize : input.size ≤ hi)
    (hstart : start ≤ hi) (id : RuleId) (rule : Rule α) :
    (Match.rule g input sub id rule start).StaysWithin start hi (·.InBounds start hi) := by
  refine (kind_staysWithin g hsub hsize hstart id rule.kind).map fun outcome houtcome => ?_
  cases outcome with
  | failure => trivial
  | success len nodes => exact ⟨houtcome.1, houtcome.2.prune⟩

end Match

namespace Graph

variable {α : Type} [Element α] (g : Graph α) {input : Array α}

/-- A match stays within bounds, however deep its rules may be nested. -/
theorem runWithin_staysWithin (hsize : input.size ≤ hi) (limit depth : Nat) (id : RuleId)
    {start : Nat} (hstart : start ≤ hi) :
    (g.runWithin input limit depth id start).StaysWithin start hi (·.InBounds start hi) := by
  refine runWithin_induction (P := fun _ start run => start ≤ hi →
    run.StaysWithin start hi (·.InBounds start hi)) ?_ ?_ ?_ depth id start hstart
  · intro id start _ _
    exact (Match.record_staysWithin _).bind fun _ _ => .pure trivial
  · intro id start hstart
    exact .throw ⟨Nat.le_refl start, hstart⟩
  · intro depth ih id rule _ start hstart
    exact Match.rule_staysWithin g ih hsize hstart id rule

/-- **A match stays inside the input**: it consumes no more than there is, its nodes at any depth
and the place of an abort lie between the start and the end of the input, the farthest miss is not
after the end, and a failure leaves nothing.  No length comes from a subtraction below zero. -/
theorem run_inBounds (input : Array α) (limit : Nat) (id : RuleId) (start : Nat) (trace : Trace)
    (hstart : start ≤ input.size) (htrace : trace.farthest ≤ input.size) :
    (match ((g.run input limit id start).result trace).1 with
      | .ok outcome =>
          outcome.InBounds start input.size ∧
            (outcome.isSuccess = false → outcome.len = 0 ∧ outcome.nodes = [])
      | .error cause => cause.InBounds start input.size) ∧
    ((g.run input limit id start).result trace).2.farthest ≤ input.size ∧
    ∀ s : Subtraction, g.runBy s input limit id start = g.run input limit id start := by
  have hrun := g.runWithin_staysWithin (Nat.le_refl input.size) limit limit id hstart
  obtain ⟨hfarthest, hend⟩ := hrun trace htrace
  -- The subtraction that stops at zero is never used below zero, so another one changes nothing.
  refine ⟨?_, hfarthest, fun s => g.runBy_eq s input limit id start⟩
  rw [run]
  split
  · rename_i outcome houtcome
    rw [houtcome] at hend
    refine ⟨hend, fun hfailure => ?_⟩
    cases outcome with
    | failure => exact ⟨rfl, rfl⟩
    | success len nodes => cases hfailure
  · rename_i cause hcause
    rw [hcause] at hend
    exact hend

/-- An `n` in front of which a lookahead and a guarded log entry both look at a sum. -/
def peeking : Graph Char where
  rules := #[
    .ofKind (.single 'n'),
    .ofKind (.single '+'),
    (Rule.ofKind (.sequence [⟨0⟩, ⟨1⟩, ⟨0⟩])).named "sum",
    .ofKind (.evaluation [⟨2⟩, ⟨0⟩]),
    .ofKind (.condition ⟨3⟩),
    .ofKind (.log .warning "a sum" (some ⟨3⟩)),
    .ofKind (.sequence [⟨4⟩, ⟨5⟩, ⟨0⟩])]

/-- One element is consumed, and the nodes reach to the end of the input. -/
theorem run_inBounds_peeking :
    let input := #['x', 'n', '+', 'n']
    let nodes : List Node := [⟨⟨6⟩, ⟨1, 1⟩, [
      ⟨⟨2⟩, ⟨1, 3⟩, [.leaf ⟨0⟩ ⟨1, 1⟩, .leaf ⟨1⟩ ⟨2, 1⟩, .leaf ⟨0⟩ ⟨3, 1⟩]⟩,
      .leaf ⟨5⟩ ⟨1, 3⟩,
      .leaf ⟨0⟩ ⟨1, 1⟩]⟩]
    1 ≤ input.size ∧ ({} : Trace).farthest ≤ input.size ∧
      ((peeking.run input 9 ⟨6⟩ 1).result {}).1 = .ok (.success 1 nodes) ∧
      Outcome.InBounds 1 input.size (.success 1 nodes) ∧
      ((peeking.run input 9 ⟨6⟩ 1).result {}).2.farthest ≤ input.size ∧
      ∀ s : Subtraction, peeking.runBy s input 9 ⟨6⟩ 1 = peeking.run input 9 ⟨6⟩ 1 := by
  intro input nodes
  have hresult : ((peeking.run input 9 ⟨6⟩ 1).result {}).1 = .ok (.success 1 nodes) := by
    decide +kernel
  have hstart : 1 ≤ input.size := by decide
  have htrace : ({} : Trace).farthest ≤ input.size := by decide
  obtain ⟨hend, hfarthest, hexact⟩ := run_inBounds peeking input 9 ⟨6⟩ 1 {} hstart htrace
  rw [hresult] at hend
  exact ⟨hstart, htrace, hresult, hend.1, hfarthest, hexact⟩

end Graph

end RuleScript
