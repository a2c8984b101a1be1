import Mathlib.Data.List.Forall2
import RuleScript.Match.Matcher
import RuleScript.Proofs.Comparison

/-!
# Comparing two matches

Two matches are compared with a `Correspondence`: which ids of the one graph stand for which ids of
the other, how far positions are moved, and when two forests count as the same.  Two runs of rules
agree (`Correspondence.Agree`) if they come to the same success, the same length and corresponding
nodes, or to corresponding aborts.

A rule puts the runs of the rules inside together step by step and never looks into one.  So rules
of the same kind agree as soon as the rules inside do (`Correspondence.kind_agree`), and a whole
match agrees by induction on the depth (`Correspondence.runWithin_agree`).  What is left to whoever
uses a correspondence is in `Correspondence.Setting` and `Correspondence.Graphs`.

The nodes of an operator chain are the one place where the two graphs have a say, by precedence and
pruning; `Correspondence.fold_agree` is for the case that they say the same.
-/

namespace RuleScript

/-- What corresponds to what in two matches. -/
structure Correspondence extends Run.Comparison where
  ids : RuleId → RuleId → Prop
  /-- How much further on a position of the first match is in the second one. -/
  shift : Nat
  nodes : List Node → List Node → Prop
  nodes_nil : nodes [] []
  nodes_append : ∀ {first first' second second'}, nodes first first' → nodes second second' →
    nodes (first ++ second) (first' ++ second')
  nodes_single : ∀ {id id' found found'} (start len : Nat), ids id id' → nodes found found' →
    nodes [⟨id, ⟨start, len⟩, found⟩] [⟨id', ⟨start + shift, len⟩, found'⟩]

namespace Correspondence

/-- The same outcome, with corresponding nodes. -/
inductive Outcomes (C : Correspondence) : Outcome → Outcome → Prop
  | failure : C.Outcomes .failure .failure
  | success (len : Nat) {found found' : List Node} (hfound : C.nodes found found') :
      C.Outcomes (.success len found) (.success len found')

/-- Two runs come to the same, as far as the correspondence tells. -/
def Agree (C : Correspondence) (run run' : Run Outcome) : Prop :=
  run.Compares C.toComparison run' C.Outcomes

/-- Two rules agree wherever they are tried. -/
def SubsAgree (C : Correspondence) (sub sub' : RuleId → Nat → Run Outcome) (id id' : RuleId) :
    Prop :=
  ∀ pos pos', pos' = pos + C.shift → C.Agree (sub id pos) (sub' id' pos')

variable {C : Correspondence}

theorem Outcomes.under {outcome outcome' : Outcome} (h : C.Outcomes outcome outcome')
    {id id' : RuleId} (hid : C.ids id id') (start : Nat) :
    C.Outcomes (outcome.under id start) (outcome'.under id' (start + C.shift)) := by
  cases h with
  | failure => exact .failure
  | success len hfound => exact .success len (C.nodes_single start len hid hfound)

theorem nodes_appendList {nodes nodes' : Array Node} {found found' : List Node}
    (h : C.nodes nodes.toList nodes'.toList) (hfound : C.nodes found found') :
    C.nodes (nodes ++ found).toList (nodes' ++ found').toList := by
  rw [Array.toList_appendList, Array.toList_appendList]
  exact C.nodes_append h hfound

section Combinations

variable {sub sub' : RuleId → Nat → Run Outcome} {start start' : Nat}

open Match

theorem inSequence_agree {ids ids' : List RuleId}
    (hids : List.Forall₂ (C.SubsAgree sub sub') ids ids') (hstart : start' = start + C.shift)
    (len : Nat) {nodes nodes' : Array Node} (hnodes : C.nodes nodes.toList nodes'.toList) :
    C.Agree (inSequence sub start ids len nodes) (inSequence sub' start' ids' len nodes') := by
  induction hids generalizing len nodes nodes' with
  | nil => exact .pure (.success len hnodes)
  | cons hid _ ih =>
      refine (hid _ _ (by omega)).bind fun outcome outcome' houtcome => ?_
      cases houtcome with
      | failure => exact .pure .failure
      | success more hfound => exact ih (len + more) (nodes_appendList hnodes hfound)

theorem firstOf_agree {ids ids' : List RuleId}
    (hids : List.Forall₂ (C.SubsAgree sub sub') ids ids') (hstart : start' = start + C.shift) :
    C.Agree (firstOf sub start ids) (firstOf sub' start' ids') := by
  induction hids with
  | nil => exact .pure .failure
  | cons hid _ ih =>
      refine (hid _ _ hstart).bind fun outcome outcome' houtcome => ?_
      cases houtcome with
      | failure => exact ih
      | success len hfound => exact .pure (.success len hfound)

/-! ## Repetitions and skips -/

section Repetition

variable {label label' : String} {id id' : RuleId} {min max : Nat}

theorem enough_agree (reps len : Nat) {nodes nodes' : Array Node}
    (hnodes : C.nodes nodes.toList nodes'.toList) :
    C.Outcomes (enough min reps len nodes) (enough min reps len nodes') := by
  rw [enough, enough]
  split
  · exact .failure
  · exact .success len hnodes

theorem repetition_agree {again again' : Nat → Nat → Array Node → Run Outcome}
    (hid : C.SubsAgree sub sub' id id') (hstart : start' = start + C.shift)
    (hrecord : ∀ pos, C.Records (.emptyRepetition label pos)
      (.emptyRepetition label' (pos + C.shift)))
    (hagain : ∀ reps len nodes nodes', C.nodes nodes.toList nodes'.toList →
      C.Agree (again reps len nodes) (again' reps len nodes'))
    (reps len : Nat) {nodes nodes' : Array Node} (hnodes : C.nodes nodes.toList nodes'.toList) :
    C.Agree (repetition sub label id min max start again reps len nodes)
      (repetition sub' label' id' min max start' again' reps len nodes') := by
  rw [repetition, repetition]
  split
  · exact .pure (enough_agree reps len hnodes)
  · refine (hid _ _ (by omega)).bind fun outcome outcome' houtcome => ?_
    cases houtcome with
    | failure => exact .pure (enough_agree reps len hnodes)
    | success more hfound =>
        have hmore := nodes_appendList hnodes hfound
        -- A round that consumes nothing ends the loop on both sides, or fails on both.
        cases more with
        | zero =>
            show C.Agree (if max = 0 then _ else _) (if max = 0 then _ else _)
            split
            · have hpos : start' + len = start + len + C.shift := by omega
              rw [hpos]
              exact (Run.Compares.record (hrecord _)).bind fun _ _ _ => .pure .failure
            · exact .pure (enough_agree _ len hmore)
        | succ more => exact hagain _ _ _ _ hmore

theorem repeated_agree (hid : C.SubsAgree sub sub' id id') (hstart : start' = start + C.shift)
    (hrecord : ∀ pos, C.Records (.emptyRepetition label pos)
      (.emptyRepetition label' (pos + C.shift)))
    (room reps len : Nat) {nodes nodes' : Array Node}
    (hnodes : C.nodes nodes.toList nodes'.toList) :
    C.Agree (repeated sub label id min max start room reps len nodes)
      (repeated sub' label' id' min max start' room reps len nodes') := by
  induction room generalizing reps len nodes nodes' with
  | zero =>
      refine repetition_agree hid hstart hrecord (fun reps len nodes nodes' hnodes => ?_) _ _ hnodes
      exact .pure (enough_agree reps len hnodes)
  | succ room ih =>
      refine repetition_agree hid hstart hrecord (fun reps len nodes nodes' hnodes => ?_) _ _ hnodes
      exact ih reps len hnodes

end Repetition

section Skip

variable {stop stop' : RuleId} {stopBefore failOnEnd : Bool}

theorem stopOr_agree {beyond beyond' : Run Outcome} (hstop : C.SubsAgree sub sub' stop stop')
    (hstart : start' = start + C.shift) (passed : Nat) (hbeyond : C.Agree beyond beyond') :
    C.Agree (stopOr sub stop stopBefore start passed beyond)
      (stopOr sub' stop' stopBefore start' passed beyond') := by
  refine (hstop _ _ (by omega)).bind fun outcome outcome' houtcome => ?_
  cases houtcome with
  | failure => exact hbeyond
  | success len hfound =>
      refine .pure ?_
      cases stopBefore with
      | true => exact .success passed C.nodes_nil
      | false => exact .success (passed + len) hfound

theorem skipTo_agree (hstop : C.SubsAgree sub sub' stop stop') (hstart : start' = start + C.shift)
    (room passed : Nat) :
    C.Agree (skipTo sub stop stopBefore failOnEnd start room passed)
      (skipTo sub' stop' stopBefore failOnEnd start' room passed) := by
  induction room generalizing passed with
  | zero =>
      refine stopOr_agree hstop hstart passed (.pure ?_)
      cases failOnEnd with
      | true => exact .failure
      | false => exact .success passed C.nodes_nil
  | succ room ih => exact stopOr_agree hstop hstart passed (ih _)

end Skip

/-! ## Operator chains -/

/-- Operands over the same length, with corresponding nodes. -/
structure Operands (C : Correspondence) (operand operand' : Operand) : Prop where
  start : operand'.span.start = operand.span.start + C.shift
  len : operand'.span.len = operand.span.len
  nodes : C.nodes operand.nodes operand'.nodes

theorem Operands.stop_eq {operand operand' : Operand} (h : C.Operands operand operand') :
    operand'.span.stop = operand.span.stop + C.shift := by
  rw [Span.stop, Span.stop, h.start, h.len]
  omega

/-- Links of related operators, with corresponding nodes and right operands. -/
structure Links (C : Correspondence) (related : BinaryOperator → BinaryOperator → Prop)
    (link link' : Link) : Prop where
  operator : related link.operator link'.operator
  nodes : C.nodes link.nodes link'.nodes
  right : C.Operands link.right link'.right

/-- Operators whose parts agree, and that are related as asked. -/
structure Operators (C : Correspondence) (sub sub' : RuleId → Nat → Run Outcome)
    (form form' : ChainForm) (related : BinaryOperator → BinaryOperator → Prop)
    (operator operator' : BinaryOperator) : Prop where
  shape : related operator operator'
  symbol : C.SubsAgree sub sub' operator.operator operator'.operator
  right : C.SubsAgree sub sub' operator.right operator'.right
  isOpen : form.isOpen operator.right = form'.isOpen operator'.right

/-- Chains whose operands agree, and whose operators do and are related as asked. -/
structure Forms (C : Correspondence) (sub sub' : RuleId → Nat → Run Outcome)
    (related : BinaryOperator → BinaryOperator → Prop) (form form' : ChainForm) : Prop where
  operands : List.Forall₂ (C.SubsAgree sub sub') form.operands form'.operands
  operators :
    List.Forall₂ (C.Operators sub sub' form form' related) form.operators form'.operators

section Chain

variable {form form' : ChainForm} {related : BinaryOperator → BinaryOperator → Prop}

theorem rightOperand_agree (hforms : C.Forms sub sub' related form form')
    {operator operator' : BinaryOperator}
    (hoperator : C.Operators sub sub' form form' related operator operator')
    (hstart : start' = start + C.shift) :
    C.Agree (rightOperand sub form operator start) (rightOperand sub' form' operator' start') := by
  rw [rightOperand, rightOperand, ← hoperator.isOpen]
  split
  · exact firstOf_agree hforms.operands hstart
  · exact hoperator.right _ _ hstart

theorem nextLink_agree (hforms : C.Forms sub sub' related form form')
    (hstart : start' = start + C.shift) {operators operators' : List BinaryOperator}
    (hoperators : List.Forall₂ (C.Operators sub sub' form form' related) operators operators') :
    (nextLink sub form start operators).Compares C.toComparison
      (nextLink sub' form' start' operators') (Option.Rel (C.Links related)) := by
  induction hoperators with
  | nil => exact .pure .none
  | cons hoperator _ ih =>
      refine (hoperator.symbol _ _ hstart).bind fun outcome outcome' houtcome => ?_
      cases houtcome with
      | failure => exact ih
      | success len hfound =>
          have hright := rightOperand_agree hforms hoperator
            (show start' + len = start + len + C.shift by omega)
          refine hright.bind fun right right' houtcome => ?_
          cases houtcome with
          | failure => exact ih
          | success len' hfound' =>
              dsimp only
              split
              · exact ih
              · have hspan : start' + len = start + len + C.shift := by omega
                -- The operator and its right operand agree, and so do the places where they start.
                exact .pure (.some ⟨hoperator.shape, hfound, ⟨hspan, rfl, hfound'⟩⟩)

theorem extend_agree (hforms : C.Forms sub sub' related form form') (room : Nat) {pos pos' : Nat}
    (hpos : pos' = pos + C.shift) {links links' : Array Link}
    (hlinks : List.Forall₂ (C.Links related) links.toList links'.toList) :
    (extend sub form room pos links).Compares C.toComparison (extend sub' form' room pos' links')
      fun links links' => List.Forall₂ (C.Links related) links.toList links'.toList := by
  -- Both chains have the same room, and use it up link by link.
  induction room generalizing pos pos' links links' with
  | zero =>
      rw [extend, extend]
      refine (nextLink_agree hforms hpos hforms.operators).bind fun link? link?' hlink? => ?_
      cases hlink? with
      | none => exact .pure hlinks
      | some hlink => exact .pure hlinks
  | succ room ih =>
      rw [extend, extend]
      refine (nextLink_agree hforms hpos hforms.operators).bind fun link? link?' hlink? => ?_
      cases hlink? with
      | none => exact .pure hlinks
      | some hlink =>
          refine ih hlink.right.stop_eq ?_
          rw [Array.toList_push, Array.toList_push]
          exact List.rel_append hlinks (.cons hlink .nil)

/-- Chains agree if what they are folded to does. -/
theorem chain_agree {α : Type} {g g' : Graph α} {size size' : Nat}
    (hforms : C.Forms sub sub' related form form') (hstart : start' = start + C.shift)
    (hroom : size' - start' = size - start)
    (hfold : ∀ first first' links links', C.Operands first first' →
      List.Forall₂ (C.Links related) links links' →
      ((ChainTree.ofChain first' links').fold g').span.stop =
          ((ChainTree.ofChain first links).fold g).span.stop + C.shift ∧
        C.nodes ((ChainTree.ofChain first links).fold g).nodes
          ((ChainTree.ofChain first' links').fold g').nodes) :
    C.Agree (chain sub form g size start) (chain sub' form' g' size' start') := by
  refine (firstOf_agree hforms.operands hstart).bind fun outcome outcome' houtcome => ?_
  cases houtcome with
  | failure => exact .pure .failure
  | success len hfound =>
      rename_i found found'
      -- Both chains may have as many links as there are elements left, which is the same number.
      rw [hroom]
      refine (extend_agree hforms (size - start) (by omega) .nil).bind
        fun links links' hlinks => .pure ?_
      obtain ⟨hstop, hnodes⟩ := hfold ⟨⟨start, len⟩, found⟩ ⟨⟨start', len⟩, found'⟩ links.toList
        links'.toList ⟨hstart, rfl, hfound⟩ hlinks
      rw [hstop, hstart, Nat.add_sub_add_right]
      rw [hstart] at hnodes
      exact .success _ hnodes

end Chain

end Combinations

section Fold

variable {α : Type} {g g' : Graph α}

/-- Operators that nodes are grouped by in the same way. -/
structure SameShape (C : Correspondence) (g g' : Graph α) (operator operator' : BinaryOperator) :
    Prop where
  identity : C.ids operator.identity operator'.identity
  precedence : operator'.precedence = operator.precedence
  prune : ∀ found found', C.nodes found found' →
    C.nodes (g.prune operator.pruning found) (g'.prune operator'.pruning found')

/-- The same reading of two chains. -/
inductive Trees (C : Correspondence) (related : BinaryOperator → BinaryOperator → Prop) :
    ChainTree → ChainTree → Prop
  | operand {alone alone' : Operand} (h : C.Operands alone alone') :
      C.Trees related (.operand alone) (.operand alone')
  | branch {left left' right right' : ChainTree} {operator operator' : BinaryOperator}
      {nodes nodes' : List Node} (hleft : C.Trees related left left')
      (hoperator : related operator operator') (hnodes : C.nodes nodes nodes')
      (hright : C.Trees related right right') :
      C.Trees related (.branch left operator nodes right) (.branch left' operator' nodes' right')

theorem Trees.attach {tree tree' : ChainTree} (h : C.Trees (C.SameShape g g') tree tree')
    {link link' : Link} (hlink : C.Links (C.SameShape g g') link link') :
    C.Trees (C.SameShape g g') (tree.attach link) (tree'.attach link') := by
  induction h with
  | operand h => exact .branch (.operand h) hlink.operator hlink.nodes (.operand hlink.right)
  | branch hleft hoperator hnodes hright _ ih =>
      -- Where a link goes depends on two precedences, and both are the same in the two trees.
      rw [ChainTree.attach, ChainTree.attach, hoperator.precedence, hlink.operator.precedence]
      split
      · exact .branch hleft hoperator hnodes ih
      · exact .branch (.branch hleft hoperator hnodes hright) hlink.operator hlink.nodes
          (.operand hlink.right)

theorem Trees.ofChain {first first' : Operand} {links links' : List Link}
    (hfirst : C.Operands first first')
    (hlinks : List.Forall₂ (C.Links (C.SameShape g g')) links links') :
    C.Trees (C.SameShape g g') (ChainTree.ofChain first links)
      (ChainTree.ofChain first' links') := by
  suffices h : ∀ tree tree', C.Trees (C.SameShape g g') tree tree' →
      C.Trees (C.SameShape g g') (links.foldl (fun tree link => tree.attach link) tree)
        (links'.foldl (fun tree link => tree.attach link) tree') from h _ _ (.operand hfirst)
  induction hlinks with
  | nil => exact fun _ _ htree => htree
  | cons hlink _ ih => exact fun tree tree' htree => ih _ _ (htree.attach hlink)

theorem Trees.fold {tree tree' : ChainTree} (h : C.Trees (C.SameShape g g') tree tree') :
    C.Operands (tree.fold g) (tree'.fold g') := by
  induction h with
  | operand h => exact h
  | branch _ hoperator hnodes _ ihleft ihright =>
      simp only [ChainTree.fold, ChainTree.combine]
      have hspan := Span.cover_add ihleft.start ihleft.len ihright.start ihright.len
      refine ⟨by rw [hspan], by rw [hspan], hoperator.prune _ _ ?_⟩
      rw [hspan]
      exact C.nodes_single _ _ hoperator.identity
        (C.nodes_append (C.nodes_append ihleft.nodes hnodes) ihright.nodes)

theorem fold_agree {first first' : Operand} {links links' : List Link}
    (hfirst : C.Operands first first')
    (hlinks : List.Forall₂ (C.Links (C.SameShape g g')) links links') :
    ((ChainTree.ofChain first' links').fold g').span.stop =
        ((ChainTree.ofChain first links).fold g).span.stop + C.shift ∧
      C.nodes ((ChainTree.ofChain first links).fold g).nodes
        ((ChainTree.ofChain first' links').fold g').nodes := by
  have hfold := (Trees.ofChain hfirst hlinks).fold
  exact ⟨hfold.stop_eq, hfold.nodes⟩

end Fold

end Correspondence

end RuleScript
