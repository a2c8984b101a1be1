import Mathlib.Data.Nat.Basic
import RuleScript.Proofs.Forest
import RuleScript.Proofs.Match.Folding
import RuleScript.Proofs.Match.Loops

/-!
# Trees are nested

A lookahead shows elements that it does not consume, so the nodes that it leaves reach past the end
of the match.  In a graph that never shows what it saw ahead, all nodes lie in the order of the
input: those of a match inside the match, those below a node inside the span of the node, and each
ends before the next one starts.  `Graph.matchAt_nested` is the statement.

What is carried through a match is `Node.Nested lo hi`, where `lo` is where the rule was tried and
`hi` where its match ends.  Forests that lie side by side are put together at the position where
they meet (`Node.Nested.append`), and pruning keeps what is nested nested.  An operator chain is
read as a tree whose parts meet in the same way, from the first operand to the last
(`ChainTree.Nested`), and however links are attached the operands stay in their order.
-/

namespace RuleScript

/-- The nodes of a forest lie between two positions, one after the other, and so do the children of
each node between the bounds of its span. -/
inductive Node.Nested : Nat → Nat → List Node → Prop
  | nil {lo hi : Nat} : Nested lo hi []
  | cons {lo hi : Nat} {rule : RuleId} {span : Span} {children rest : List Node}
      (hlo : lo ≤ span.start) (hhi : span.stop ≤ hi)
      (hchildren : Nested span.start span.stop children) (hrest : Nested span.stop hi rest) :
      Nested lo hi (⟨rule, span, children⟩ :: rest)

namespace Node.Nested

variable {lo lo' mid hi hi' : Nat} {first second forest : List Node}

theorem mono (h : Node.Nested lo hi forest) (hlo : lo' ≤ lo) (hhi : hi ≤ hi') :
    Node.Nested lo' hi' forest := by
  induction forest generalizing lo lo' with
  | nil => exact .nil
  | cons node rest ih =>
      cases h with
      | cons hstart hstop hchildren hrest =>
          exact .cons (Nat.le_trans hlo hstart) (Nat.le_trans hstop hhi) hchildren (ih hrest le_rfl)

theorem append (hfirst : Node.Nested lo mid first) (hsecond : Node.Nested mid hi second)
    (hlo : lo ≤ mid) (hhi : mid ≤ hi) : Node.Nested lo hi (first ++ second) := by
  induction first generalizing lo with
  | nil => exact hsecond.mono hlo le_rfl
  | cons node rest ih =>
      cases hfirst with
      | cons hstart hstop hchildren hrest =>
          exact .cons hstart (Nat.le_trans hstop hhi) hchildren (ih hrest hstop)

theorem single {rule : RuleId} {span : Span} {children : List Node}
    (h : Node.Nested span.start span.stop children) :
    Node.Nested span.start span.stop [⟨rule, span, children⟩] :=
  .cons le_rfl le_rfl h .nil

/-- The entries of a forest stand in the order of the nodes that they are below. -/
theorem forestLogEntries {isLog : RuleId → Bool} (h : Node.Nested lo hi forest) :
    Node.Nested lo hi (Node.forestLogEntries isLog forest) := by
  induction forest using Node.forest_induction generalizing lo hi with
  | nil => exact .nil
  | cons rule span children rest ihchildren ihrest =>
      cases h with
      | cons hstart hstop hchildren hrest =>
          rw [Node.forestLogEntries_cons]
          refine Node.Nested.append ?_ (ihrest hrest)
            (Nat.le_trans hstart span.start_le_stop) hstop
          split
          · exact (Node.Nested.single hchildren).mono hstart le_rfl
          · exact (ihchildren hchildren).mono hstart le_rfl

theorem keep {isLog : RuleId → Bool} {pruning : Pruning} {rule : RuleId} {span : Span}
    {children : List Node} (h : Node.Nested span.start span.stop children) :
    Node.Nested span.start span.stop (pruning.keep isLog ⟨rule, span, children⟩) := by
  have hnode : Node.Nested span.start span.stop [⟨rule, span, children⟩] := .single h
  cases pruning with
  | none => exact hnode
  | root =>
      simp only [Pruning.keep]
      split
      · exact hnode
      · exact h
  | all =>
      rw [Pruning.keep, ← Node.forestLogEntries_singleton]
      exact hnode.forestLogEntries
  | children =>
      simp only [Pruning.keep]
      split
      · exact hnode
      · exact .single h.forestLogEntries

theorem prune {α : Type} {g : Graph α} {pruning : Pruning} (h : Node.Nested lo hi forest) :
    Node.Nested lo hi (g.prune pruning forest) := by
  induction forest generalizing lo with
  | nil => exact .nil
  | cons node rest ih =>
      cases h with
      | cons hstart hstop hchildren hrest =>
          rw [Graph.prune, List.flatMap_cons]
          exact (hchildren.keep.mono hstart le_rfl).append (ih hrest)
            (Nat.le_trans hstart (Span.start_le_stop _)) hstop

end Node.Nested

/-- Whether rules of a kind may leave nodes over elements that they do not consume. -/
def Kind.showsAhead {α : Type} : Kind α → Bool
  | .condition _ | .log _ _ (some _) => true
  | _ => false

/-- What a match that started at `lo` may come to: its nodes are nested from there to its end. -/
def Outcome.Nested (lo : Nat) : Outcome → Prop
  | .failure => True
  | .success len nodes => Node.Nested lo (lo + len) nodes

theorem Outcome.Nested.under {start : Nat} {outcome : Outcome} (h : outcome.Nested start)
    (id : RuleId) : (outcome.under id start).Nested start := by
  cases outcome with
  | failure => trivial
  | success len nodes => exact .cons le_rfl le_rfl h .nil

theorem Outcome.Nested.prune {α : Type} {g : Graph α} {pruning : Pruning} {start : Nat}
    {outcome : Outcome} (h : outcome.Nested start) :
    (outcome.mapNodes (g.prune pruning)).Nested start := by
  cases outcome with
  | failure => trivial
  | success len nodes => exact Node.Nested.prune h

/-! ## Readings of a chain -/

/-- An operand whose nodes are nested in its span. -/
def Operand.IsNested (operand : Operand) : Prop :=
  Node.Nested operand.span.start operand.span.stop operand.nodes

namespace ChainTree

/-- The operands and operators of a reading follow each other from one position to another. -/
inductive Nested : Nat → Nat → ChainTree → Prop
  | operand {alone : Operand} (h : alone.IsNested) :
      Nested alone.span.start alone.span.stop (.operand alone)
  | branch {lo mid mid' hi : Nat} {left right : ChainTree} {operator : BinaryOperator}
      {nodes : List Node} (hleft : Nested lo mid left) (hnodes : Node.Nested mid mid' nodes)
      (hmid : mid ≤ mid') (hright : Nested mid' hi right) :
      Nested lo hi (.branch left operator nodes right)

variable {α : Type} {lo hi : Nat} {tree : ChainTree}

theorem Nested.le (h : tree.Nested lo hi) : lo ≤ hi := by
  induction h with
  | operand h => exact Span.start_le_stop _
  | branch _ _ hmid _ ihleft ihright => exact Nat.le_trans ihleft (Nat.le_trans hmid ihright)

/-- A link that starts where a reading ends goes to its right end, wherever it is attached. -/
theorem Nested.attach {link : Link} (h : tree.Nested lo hi)
    (hnodes : Node.Nested hi link.right.span.start link.nodes)
    (hstart : hi ≤ link.right.span.start) (hright : link.right.IsNested) :
    (tree.attach link).Nested lo link.right.span.stop := by
  induction h with
  | operand h => exact .branch (.operand h) hnodes hstart (.operand hright)
  | branch hleft hmiddle hmid hlast _ ih =>
      rw [ChainTree.attach]
      split
      · exact .branch hleft hmiddle hmid (ih hnodes hstart)
      · exact .branch (.branch hleft hmiddle hmid hlast) hnodes hstart (.operand hright)

/-- A folded reading covers just what the reading does, with its nodes nested. -/
theorem Nested.fold (g : Graph α) (h : tree.Nested lo hi) :
    (tree.fold g).span.start = lo ∧ (tree.fold g).span.stop = hi ∧ (tree.fold g).IsNested := by
  induction h with
  | operand h => exact ⟨rfl, rfl, h⟩
  | branch hleft hnodes hmid hright ihleft ihright =>
      rename_i lo mid mid' hi left right operator nodes
      obtain ⟨hstart, hstop, hfirst⟩ := ihleft
      obtain ⟨hstart', hstop', hsecond⟩ := ihright
      have hle := hleft.le
      have hle' := hright.le
      -- The tree covers both sides, from the start of the left to the stop of the right.
      have hcover : ((left.fold g).span.cover (right.fold g).span).start = lo := by
        rw [Span.start_cover, hstart, hstart']
        omega
      have hcover' : ((left.fold g).span.cover (right.fold g).span).stop = hi := by
        rw [Span.stop_cover, hstop, hstop']
        omega
      refine ⟨hcover, hcover', ?_⟩
      rw [Operand.IsNested, hstart, hstop] at hfirst
      rw [Operand.IsNested, hstart', hstop'] at hsecond
      -- Left operand, operator and right operand follow each other.
      have hchildren : Node.Nested lo hi
          ((left.fold g).nodes ++ nodes ++ (right.fold g).nodes) :=
        (hfirst.append hnodes hle hmid).append hsecond (Nat.le_trans hle hmid) hle'
      rw [← hcover, ← hcover'] at hchildren
      exact (Node.Nested.single hchildren).prune

theorem ofChain_push (first : Operand) (links : Array Link) (link : Link) :
    ofChain first (links.push link).toList = (ofChain first links.toList).attach link := by
  rw [Array.toList_push, ofChain, List.foldl_append]
  rfl

end ChainTree

/-! ## Combinations -/

namespace Match

variable {sub : RuleId → Nat → Run Outcome} {start : Nat}
variable (hsub : ∀ id pos, (sub id pos).Yields (·.Nested pos))

include hsub

theorem inSequence_nested (ids : List RuleId) (len : Nat) (nodes : Array Node)
    (hnodes : Node.Nested start (start + len) nodes.toList) :
    (inSequence sub start ids len nodes).Yields (·.Nested start) := by
  induction ids generalizing len nodes with
  | nil => exact .pure hnodes
  | cons id ids ih =>
      refine inSequence_cons_meets (hsub id (start + len)) (fun _ => trivial)
        fun more found hfound => ih _ _ ?_
      rw [Array.toList_appendList, ← Nat.add_assoc]
      exact hnodes.append hfound (Nat.le_add_right _ _) (Nat.le_add_right _ _)

theorem firstOf_nested (ids : List RuleId) :
    (firstOf sub start ids).Yields (·.Nested start) :=
  firstOf_meets (fun id _ => hsub id start) trivial fun _ _ _ _ houtcome => houtcome

omit hsub in
theorem enough_nested {min reps len : Nat} {nodes : Array Node}
    (hnodes : Node.Nested start (start + len) nodes.toList) :
    (enough min reps len nodes).Nested start := by
  rw [enough]
  split
  · trivial
  · exact hnodes

theorem repeated_nested (label : String) (id : RuleId) (min max room reps len : Nat)
    (nodes : Array Node) (hnodes : Node.Nested start (start + len) nodes.toList) :
    (repeated sub label id min max start room reps len nodes).Yields (·.Nested start) := by
  have hround (again : Nat → Nat → Array Node → Run Outcome) (reps len : Nat) (nodes : Array Node)
      (hnodes : Node.Nested start (start + len) nodes.toList)
      (hagain : ∀ reps len nodes, Node.Nested start (start + len) nodes.toList →
        (again reps len nodes).Yields (·.Nested start)) :
      (repetition sub label id min max start again reps len nodes).Yields (·.Nested start) := by
    -- What a round adds starts where the rounds before have stopped.
    have hfound {more : Nat} {found : List Node}
        (h : Outcome.Nested (start + len) (.success more found)) :
        Node.Nested start (start + (len + more)) (nodes ++ found).toList := by
      rw [Array.toList_appendList, ← Nat.add_assoc]
      exact hnodes.append h (Nat.le_add_right _ _) (Nat.le_add_right _ _)
    refine repetition_meets (hsub id (start + len)) ?_ ?_ ?_ ?_ ?_
    · intro _ _
      exact enough_nested hnodes
    · intro _ _
      exact enough_nested hnodes
    · intro _ _ _
      exact (Run.Yields.record _).bind fun _ _ => .pure trivial
    · intro found _ _ houtcome
      exact enough_nested (hfound houtcome)
    · intro more found _ _ houtcome
      exact hagain _ _ _ (hfound houtcome)
  induction room generalizing reps len nodes with
  | zero => exact hround _ _ _ _ hnodes fun _ _ _ hnodes => .pure (enough_nested hnodes)
  | succ room ih => exact hround _ _ _ _ hnodes ih

theorem skipTo_nested (stop : RuleId) (stopBefore failOnEnd : Bool) (room passed : Nat) :
    (skipTo sub stop stopBefore failOnEnd start room passed).Yields (·.Nested start) := by
  have hround (passed : Nat) (beyond : Run Outcome) (hbeyond : beyond.Yields (·.Nested start)) :
      (stopOr sub stop stopBefore start passed beyond).Yields (·.Nested start) := by
    refine stopOr_meets (hsub stop (start + passed)) (fun len nodes hstop => ?_) fun _ => hbeyond
    split
    · exact Node.Nested.nil
    · rw [Outcome.Nested, ← Nat.add_assoc]
      exact Node.Nested.mono hstop (Nat.le_add_right _ _) le_rfl
  induction room generalizing passed with
  | zero =>
      refine hround passed _ (.pure ?_)
      split
      · trivial
      · exact Node.Nested.nil
  | succ room ih => exact hround passed _ (ih (passed + 1))

/-! ## Operator chains -/

variable {form : ChainForm}

/-- A link whose operator starts at a position and whose right operand follows the operator. -/
def IsNestedFrom (pos : Nat) (link : Link) : Prop :=
  Node.Nested pos link.right.span.start link.nodes ∧ pos ≤ link.right.span.start ∧
    link.right.IsNested

theorem rightOperand_nested (operator : BinaryOperator) (pos : Nat) :
    (rightOperand sub form operator pos).Yields (·.Nested pos) := by
  rw [rightOperand]
  split
  · exact firstOf_nested hsub form.operands
  · exact hsub operator.right pos

theorem nextLink_nested (pos : Nat) (operators : List BinaryOperator) :
    (nextLink sub form pos operators).Yields fun link? => ∀ link ∈ link?, IsNestedFrom pos link :=
  nextLink_meets (fun operator _ => hsub operator.operator pos)
    (fun operator _ len _ _ => rightOperand_nested hsub operator (pos + len))
    fun _ _ len _ _ _ _ hoperator hright => ⟨hoperator, Nat.le_add_right pos len, hright⟩

/-- The links that are added to a chain follow it. -/
theorem extend_nested {first : Operand} (room pos : Nat) (links : Array Link)
    (hlinks : (ChainTree.ofChain first links.toList).Nested start pos) :
    (extend sub form room pos links).Yields fun links =>
      ∃ stop, (ChainTree.ofChain first links.toList).Nested start stop := by
  induction room generalizing pos links with
  | zero =>
      rw [extend]
      refine (nextLink_nested hsub pos form.operators).bind fun link? _ => ?_
      cases link? with
      | none => exact .pure ⟨pos, hlinks⟩
      | some link => exact .pure ⟨pos, hlinks⟩
  | succ room ih =>
      rw [extend]
      refine (nextLink_nested hsub pos form.operators).bind fun link? hlink? => ?_
      cases link? with
      | none => exact .pure ⟨pos, hlinks⟩
      | some link =>
          obtain ⟨hnodes, hstart, hright⟩ := hlink? link rfl
          refine ih _ _ ?_
          rw [ChainTree.ofChain_push]
          exact hlinks.attach hnodes hstart hright

theorem chain_nested {α : Type} (g : Graph α) (size : Nat) :
    (chain sub form g size start).Yields (·.Nested start) := by
  refine (firstOf_nested hsub form.operands).bind fun outcome houtcome => ?_
  cases outcome with
  | failure => exact .pure trivial
  | success len nodes =>
      have hfirst : (ChainTree.ofChain ⟨⟨start, len⟩, nodes⟩ []).Nested start (start + len) :=
        @ChainTree.Nested.operand ⟨⟨start, len⟩, nodes⟩ houtcome
      refine (extend_nested hsub (size - start) (start + len) #[] hfirst).bind
        fun links hlinks => .pure ?_
      obtain ⟨stop, hlinks⟩ := hlinks
      obtain ⟨hstart, hstop, hfold⟩ := hlinks.fold g
      have hle := hlinks.le
      have hlen : start + (stop - start) = stop := by omega
      rw [Operand.IsNested, hstart, hstop] at hfold
      rw [Outcome.Nested, hstop, hlen]
      exact hfold

/-! ## Rules -/

omit hsub in
theorem leaf_nested (id : RuleId) (len : Nat) :
    ((Outcome.success len []).under id start).Nested start :=
  .cons le_rfl le_rfl .nil .nil

omit hsub in
theorem element_nested {α : Type} {input : Array α} (id : RuleId) (test : α → Bool) :
    (element input id test start : Run Outcome).Yields (·.Nested start) := by
  rw [element]
  split
  · exact .pure (leaf_nested id 1)
  · exact .miss trivial fun _ _ => trivial

variable {α : Type} [Element α] {input : Array α}

theorem kind_nested (g : Graph α) (id : RuleId) {kind : Kind α} (hkind : kind.showsAhead = false) :
    (Match.kind g input sub id kind start).Yields (·.Nested start) := by
  have hempty : Node.Nested start (start + 0) (#[] : Array Node).toList := .nil
  cases kind with
  | any min max =>
      simp only [Match.kind, anyOf]
      split
      · exact .miss trivial fun _ _ => trivial
      · exact .pure (leaf_nested id _)
  | single value => exact element_nested id _
  | set values => exact element_nested id _
  | range lo hi => exact element_nested id _
  | literal values =>
      simp only [Match.kind, allOf]
      split
      · exact .pure (leaf_nested id _)
      · exact .miss trivial fun _ _ => trivial
  | sequence subs =>
      exact (inSequence_nested hsub subs 0 #[] hempty).map fun _ houtcome => houtcome.under id
  | oneOf subs => exact (firstOf_nested hsub subs).map fun _ houtcome => houtcome.under id
  | count one min max =>
      exact (repeated_nested hsub _ one min max _ 0 0 #[] hempty).map
        fun _ houtcome => houtcome.under id
  | not one =>
      refine (hsub one start).bind fun outcome _ => ?_
      cases outcome with
      | failure => exact .pure Node.Nested.nil
      | success len nodes => exact .pure trivial
  | condition one => cases hkind
  | skip stop stopBefore failOnEnd =>
      exact (skipTo_nested hsub stop stopBefore failOnEnd _ 0).map
        fun _ houtcome => houtcome.under id
  | log severity message guard =>
      cases guard with
      | none =>
          -- Without a guard the entry is over nothing, so it lies inside the match.
          simp only [Match.kind, logEntry, entryOver]
          split
          · exact .throw trivial
          · exact (Run.Yields.record _).bind fun _ _ => .pure (leaf_nested id 0)
      | some guard => cases hkind
  | breakpoint subject =>
      refine (Run.Yields.record _).bind fun _ _ =>
        (hsub subject start).bind fun outcome houtcome => ?_
      exact (Run.Yields.record _).bind fun _ _ => .pure houtcome
  | evaluation alternatives => exact chain_nested hsub g input.size
  | reference target subject =>
      cases subject with
      | none => exact .throw trivial
      | some subject => exact hsub subject start

end Match

/-! ## Matches -/

namespace Graph

variable {α : Type}

/-- A graph without lookaheads that leave nodes: it has no conditions and no guarded log rules. -/
def LookaheadFree (g : Graph α) : Prop := ∀ rule ∈ g.rules, rule.kind.showsAhead = false

instance (g : Graph α) : Decidable g.LookaheadFree :=
  inferInstanceAs (Decidable (∀ rule ∈ g.rules, _))

variable [Element α] {g : Graph α}

theorem runWithin_nested (hfree : g.LookaheadFree) (input : Array α) (limit depth : Nat)
    (id : RuleId) (start : Nat) :
    (g.runWithin input limit depth id start).Yields (·.Nested start) := by
  refine runWithin_induction (P := fun _ start run => run.Yields (·.Nested start)) ?_ ?_ ?_ depth
    id start
  · intro id start _
    exact (Run.Yields.record _).bind fun _ _ => .pure trivial
  · intro id start
    exact .throw trivial
  · intro depth ih id rule hrule start
    have hkind := hfree rule (Array.mem_of_getElem? hrule)
    exact (Match.kind_nested ih g id hkind).map fun _ houtcome => houtcome.prune

/-- **Trees are nested** in a graph without lookaheads that leave nodes: all nodes of a match lie
inside it, each ends before the next one starts, and so do the nodes below every node inside its
span. -/
theorem matchAt_nested (hfree : g.LookaheadFree) (input : Array α) (limit : Nat) (id : RuleId)
    (start : Nat) {len : Nat} {nodes : List Node} {trace : Trace}
    (h : g.matchAt input limit id start = (.ok (.success len nodes), trace)) :
    Node.Nested start (start + len) nodes :=
  (runWithin_nested hfree input limit limit id start).of_result h

/-- Sums and products of digits, with a note for each plus and blanks skipped in front of them. -/
def spacedSums : Graph Char where
  rules := #[
    .ofKind (.range '0' '9'),
    (Rule.ofKind (.single ' ')).pruned .all,
    (Rule.ofKind (.count ⟨1⟩ 0 0)).pruned .root,
    .ofKind (.log .info "plus" none),
    .ofKind (.single '+'),
    (Rule.ofKind (.sequence [⟨2⟩, ⟨3⟩, ⟨4⟩])).pruned .all,
    .ofKind (.single '*'),
    .ofKind (.sequence [⟨0⟩, ⟨5⟩, ⟨0⟩]),
    (Rule.ofKind (.sequence [⟨0⟩, ⟨6⟩, ⟨0⟩])).withPrecedence ⟨5, by decide, by decide⟩,
    .ofKind (.evaluation [⟨7⟩, ⟨8⟩])]
  root := some ⟨9⟩

theorem spacedSums_nested :
    let input := #['1', '+', '2', '*', '3', ' ', '+', '4']
    let product : Node := ⟨⟨8⟩, ⟨2, 3⟩, [.leaf ⟨0⟩ ⟨2, 1⟩, .leaf ⟨6⟩ ⟨3, 1⟩, .leaf ⟨0⟩ ⟨4, 1⟩]⟩
    let nodes : List Node := [⟨⟨7⟩, ⟨0, 8⟩, [
      ⟨⟨7⟩, ⟨0, 5⟩, [.leaf ⟨0⟩ ⟨0, 1⟩, .leaf ⟨3⟩ ⟨1, 0⟩, product]⟩,
      .leaf ⟨3⟩ ⟨6, 0⟩,
      .leaf ⟨0⟩ ⟨7, 1⟩]⟩]
    spacedSums.LookaheadFree ∧
      (∃ trace, spacedSums.matchAt input 5 ⟨9⟩ 0 = (.ok (.success 8 nodes), trace)) ∧
      Node.Nested 0 (0 + 8) nodes := by
  intro input product nodes
  have hfree : spacedSums.LookaheadFree := by decide
  have hmatch : (spacedSums.matchAt input 5 ⟨9⟩ 0).1 = .ok (.success 8 nodes) := by decide +kernel
  have hresult : spacedSums.matchAt input 5 ⟨9⟩ 0 =
      (.ok (.success 8 nodes), (spacedSums.matchAt input 5 ⟨9⟩ 0).2) := by rw [← hmatch]
  exact ⟨hfree, ⟨_, hresult⟩, matchAt_nested hfree input 5 ⟨9⟩ 0 hresult⟩

end Graph

end RuleScript
