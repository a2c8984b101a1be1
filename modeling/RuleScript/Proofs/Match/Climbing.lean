import Mathlib.Data.List.Induction
import RuleScript.Match.Matcher
import RuleScript.Proofs.Match.BottomUp
import RuleScript.Proofs.Match.Folding
import RuleScript.Proofs.Run

/-!
# Precedence climbing

`climb` folds a chain in one pass: it goes on as long as the next operator binds tightly enough,
folds the right side of each operator by climbing from one level above that operator, and hands on
the links it did not use.  A match attaches link after link to a tree and folds the tree at the
end.  This file proves the two equal, and says which tree it is.

## Strategy

`Climbed` is the order that both of them work by: what stands on the left of an operator does not
let it in, and what stands on its right does.  It is stated with `Precedence.next`, so it holds of
every chain, whatever its precedences are.

* Attaching a link keeps a tree climbed (`Climbed.attach`), so the reading of a chain is climbed.
* A climbed tree is the reading of the chain it spells (`ofChain_of_climbed`), so there is no other.
* Climbing over what a climbed tree spells comes to the fold of that tree (`climb_spelled`).  What
  follows the tree is a parameter of this, because the left side of an operator is followed by the
  operator itself.
* The fold of a tree is what the tree leaves from the bottom up (`annotates_iff`), which is how the
  result is put in the end.

Below the tightest precedence `next` is one more, and the climbed trees are those that order their
operators by precedence (`climbed_iff_isPrecedenceTree`).
-/

namespace RuleScript

namespace Precedence

theorem value_next_of_lt {p : Precedence} (h : p.value < 2147483647) :
    p.next.value = p.value + 1 := by
  rw [next, dif_pos h]

theorem next_of_highest {p : Precedence} (h : ¬ p.value < 2147483647) : p.next = p := by
  rw [next, dif_neg h]

theorem le_next (p : Precedence) : p ≤ p.next := by
  change p.value ≤ p.next.value
  by_cases h : p.value < 2147483647
  · rw [value_next_of_lt h]
    omega
  · exact Int.le_of_eq (congrArg value (next_of_highest h).symm)

theorem le_trans {p q r : Precedence} (h : p ≤ q) (h' : q ≤ r) : p ≤ r := Int.le_trans h h'

theorem next_le_iff {p q : Precedence} (h : p.value < 2147483647) :
    p.next ≤ q ↔ p.value < q.value := by
  change p.next.value ≤ q.value ↔ _
  rw [value_next_of_lt h]
  omega

end Precedence

namespace ChainTree

variable {α : Type}

/-! ## The chain a tree spells -/

/-- The leftmost operand. -/
def first : ChainTree → Operand
  | operand alone => alone
  | branch left _ _ _ => left.first

/-- All operators from left to right, each with the operand just after it. -/
def links : ChainTree → List Link
  | operand _ => []
  | branch left operator nodes right => left.links ++ ⟨operator, nodes, right.first⟩ :: right.links

theorem first_attach (tree : ChainTree) (link : Link) : (tree.attach link).first = tree.first := by
  cases tree with
  | operand alone => rfl
  | branch left operator nodes right =>
      rw [attach]
      split <;> rfl

theorem links_attach (tree : ChainTree) (link : Link) :
    (tree.attach link).links = tree.links ++ [link] := by
  induction tree with
  | operand alone => rfl
  | branch left operator nodes right _ ih =>
      rw [attach]
      split
      · rw [links, links, first_attach, ih, List.append_assoc, List.cons_append]
      · rfl

theorem ofChain_concat (head : Operand) (chain : List Link) (last : Link) :
    ofChain head (chain ++ [last]) = (ofChain head chain).attach last := by
  rw [ofChain, List.foldl_append]
  rfl

@[simp] theorem first_ofChain (head : Operand) (chain : List Link) :
    (ofChain head chain).first = head := by
  induction chain using List.reverseRecOn with
  | nil => rfl
  | append_singleton chain last ih => rw [ofChain_concat, first_attach, ih]

@[simp] theorem links_ofChain (head : Operand) (chain : List Link) :
    (ofChain head chain).links = chain := by
  induction chain using List.reverseRecOn with
  | nil => rfl
  | append_singleton chain last ih => rw [ofChain_concat, links_attach, ih]

/-! ## Orders of operators -/

/-- Whether every operator stands in a relation to all operators on its left, and in another to all
operators on its right. -/
def Arranged (onLeft onRight : Precedence → Precedence → Prop) : ChainTree → Prop
  | operand _ => True
  | branch left operator _ right =>
    left.Arranged onLeft onRight ∧ right.Arranged onLeft onRight ∧
      (∀ link ∈ left.links, onLeft operator.precedence link.operator.precedence) ∧
      ∀ link ∈ right.links, onRight operator.precedence link.operator.precedence

/-- Whether the operators on the left of an operator bind at least as tightly as it does, and those
on its right strictly tighter. -/
def IsPrecedenceTree : ChainTree → Prop :=
  Arranged (fun own other => own.value ≤ other.value) (fun own other => own.value < other.value)

/-- Whether no operator on the left of an operator leaves its right side to it, and the operator
leaves its own to all of those on its right. -/
def Climbed : ChainTree → Prop :=
  Arranged (fun own other => ¬ other.next ≤ own) (fun own other => own.next ≤ other)

theorem climbed_iff_isPrecedenceTree {tree : ChainTree}
    (h : ∀ link ∈ tree.links, link.operator.precedence.value < 2147483647) :
    tree.Climbed ↔ tree.IsPrecedenceTree := by
  induction tree with
  | operand alone => exact Iff.rfl
  | branch left operator nodes right ihleft ihright =>
      obtain ⟨hleft, hown, hright⟩ : (∀ link ∈ left.links, _) ∧ _ ∧ ∀ link ∈ right.links, _ := by
        simpa only [links, List.forall_mem_append, List.forall_mem_cons] using h
      refine and_congr (ihleft hleft) (and_congr (ihright hright) (and_congr ?_ ?_))
      · exact forall₂_congr fun link hlink =>
          (not_congr (Precedence.next_le_iff (hleft link hlink))).trans Int.not_lt
      · exact forall₂_congr fun link _ => Precedence.next_le_iff hown

/-! ## The reading of a chain -/

theorem attach_over {tree : ChainTree} {link : Link}
    (h : ∀ inner ∈ tree.links, ¬ inner.operator.precedence.next ≤ link.operator.precedence) :
    tree.attach link = branch tree link.operator link.nodes (operand link.right) := by
  cases tree with
  | operand alone => rfl
  | branch left operator nodes right =>
      have hown := h ⟨operator, nodes, right.first⟩
        (List.mem_append_right _ List.mem_cons_self)
      rw [attach, if_neg hown]

/-- Links that an operator lets in are attached to its right side. -/
theorem foldl_attach_within {left right : ChainTree} {operator : BinaryOperator}
    {nodes : List Node} {chain : List Link}
    (h : ∀ link ∈ chain, operator.precedence.next ≤ link.operator.precedence) :
    chain.foldl (fun tree link => tree.attach link) (branch left operator nodes right) =
      branch left operator nodes (chain.foldl (fun tree link => tree.attach link) right) := by
  induction chain generalizing right with
  | nil => rfl
  | cons link chain ih =>
      obtain ⟨hlink, hchain⟩ := List.forall_mem_cons.mp h
      rw [List.foldl_cons, List.foldl_cons, attach, if_pos hlink, ih hchain]

theorem Climbed.attach {tree : ChainTree} (h : tree.Climbed) (link : Link) :
    (tree.attach link).Climbed := by
  induction tree with
  | operand alone => exact ⟨trivial, trivial, List.forall_mem_nil _, List.forall_mem_nil _⟩
  | branch left operator nodes right _ ih =>
      obtain ⟨hleft, hright, honLeft, honRight⟩ := h
      rw [ChainTree.attach]
      split
      -- The new operator binds more tightly, and goes down to the right operand.
      next hin =>
        refine ⟨hleft, ih hright, honLeft, ?_⟩
        rw [links_attach, List.forall_mem_append, List.forall_mem_singleton]
        exact ⟨honRight, hin⟩
      -- It is loose enough to take the whole tree as its left operand.
      next hout =>
        refine ⟨⟨hleft, hright, honLeft, honRight⟩, trivial, ?_, List.forall_mem_nil _⟩
        have hloose : link.operator.precedence.value < operator.precedence.next.value :=
          Int.not_le.mp hout
        rw [links, List.forall_mem_append, List.forall_mem_cons]
        refine ⟨fun inner hinner hle => ?_, hout, fun inner hinner hle => ?_⟩
        · -- An operator that has any on its left is not the tightest, so it is one below its next.
          have hbelow : operator.precedence.value < inner.operator.precedence.next.value :=
            Int.not_le.mp (honLeft inner hinner)
          have hnext := Precedence.value_next_of_lt
            (Int.lt_of_lt_of_le hbelow inner.operator.precedence.next.le_highest)
          have hle' : inner.operator.precedence.next.value ≤ link.operator.precedence.value := hle
          omega
        · have htight : operator.precedence.next.value ≤ inner.operator.precedence.next.value :=
            Precedence.le_trans (honRight inner hinner) (Precedence.le_next _)
          exact absurd (Int.le_trans htight hle) (Int.not_le.mpr hloose)

theorem climbed_ofChain (head : Operand) (chain : List Link) :
    (ofChain head chain).Climbed := by
  induction chain using List.reverseRecOn with
  | nil => exact trivial
  | append_singleton chain last ih =>
      rw [ofChain_concat]
      exact ih.attach last

/-- A climbed tree is the reading of the chain it spells. -/
theorem ofChain_of_climbed {tree : ChainTree} (h : tree.Climbed) :
    ofChain tree.first tree.links = tree := by
  induction tree with
  | operand alone => rfl
  | branch left operator nodes right ihleft ihright =>
      obtain ⟨hleft, hright, honLeft, honRight⟩ := h
      calc ofChain left.first (left.links ++ ⟨operator, nodes, right.first⟩ :: right.links)
        _ = right.links.foldl (fun tree link => tree.attach link)
              ((ofChain left.first left.links).attach ⟨operator, nodes, right.first⟩) := by
            rw [ofChain, List.foldl_append, List.foldl_cons]
            rfl
        _ = right.links.foldl (fun tree link => tree.attach link)
              (branch left operator nodes (.operand right.first)) := by
            rw [ihleft hleft, attach_over honLeft]
        _ = branch left operator nodes (ofChain right.first right.links) :=
            foldl_attach_within honRight
        _ = branch left operator nodes right := by rw [ihright hright]

theorem Climbed.eq_ofChain {tree : ChainTree} (h : tree.Climbed) {head : Operand}
    {chain : List Link} (hfirst : tree.first = head) (hlinks : tree.links = chain) :
    tree = ofChain head chain := by
  rw [← hfirst, ← hlinks, ofChain_of_climbed h]

/-! ## Climbing -/

/-- Fold `left` with the links after it as long as they bind as tightly as `least`; the links that
are left over are no more than there were. -/
def climbOn (g : Graph α) (least : Precedence) (left : Operand) (chain : List Link) :
    Operand × { rest : List Link // rest.length ≤ chain.length } :=
  match chain with
  | [] => (left, ⟨[], Nat.le_refl _⟩)
  | link :: chain =>
    if least ≤ link.operator.precedence then
      let right := climbOn g link.operator.precedence.next link.right chain
      let whole := climbOn g least (combine g link.operator link.nodes left right.1) right.2.val
      (whole.1, ⟨whole.2.val, Nat.le_succ_of_le (Nat.le_trans whole.2.property right.2.property)⟩)
    else (left, ⟨link :: chain, Nat.le_refl _⟩)
termination_by chain.length
decreasing_by
  · exact Nat.lt_succ_self chain.length
  · exact Nat.lt_succ_of_le right.2.property

/-- An operand folded with the links after it as long as they bind as tightly as `least`, and the
links that are left over. -/
def climb (g : Graph α) (least : Precedence) (left : Operand) (chain : List Link) :
    Operand × List Link :=
  let whole := climbOn g least left chain
  (whole.1, whole.2.val)

variable {g : Graph α}

@[simp] theorem climb_nil (least : Precedence) (left : Operand) :
    climb g least left [] = (left, []) := by
  rw [climb, climbOn]

theorem climb_cons (least : Precedence) (left : Operand) (link : Link) (chain : List Link) :
    climb g least left (link :: chain) =
      if least ≤ link.operator.precedence then
        let right := climb g link.operator.precedence.next link.right chain
        climb g least (combine g link.operator link.nodes left right.1) right.2
      else (left, link :: chain) := by
  rw [climb, climbOn]
  split <;> rfl

theorem climb_of_loose {least : Precedence} {left : Operand} {chain : List Link}
    (h : ∀ next ∈ chain.head?, ¬ least ≤ next.operator.precedence) :
    climb g least left chain = (left, chain) := by
  cases chain with
  | nil => exact climb_nil least left
  | cons link chain => rw [climb_cons, if_neg (h link rfl)]

/-- Climbing over what a climbed tree spells comes to the fold of the tree, if `least` lets all of
its operators in and none of them lets in what comes after the tree. -/
theorem climb_spelled {tree : ChainTree} (h : tree.Climbed) {least : Precedence}
    {rest : List Link} (hleast : ∀ link ∈ tree.links, least ≤ link.operator.precedence)
    (hrest : ∀ next ∈ rest.head?, ∀ link ∈ tree.links,
      ¬ link.operator.precedence.next ≤ next.operator.precedence) :
    climb g least tree.first (tree.links ++ rest) = climb g least (tree.fold g) rest := by
  induction tree generalizing least rest with
  | operand alone => rfl
  | branch left operator nodes right ihleft ihright =>
      obtain ⟨hleft, hright, honLeft, honRight⟩ := h
      simp only [links, List.forall_mem_append, List.forall_mem_cons] at hleast hrest
      obtain ⟨hleastLeft, hleastOwn, -⟩ := hleast
      -- The right operand is climbed from the next precedence on, and stops in front of what is left.
      have hrightSide : climb g operator.precedence.next right.first (right.links ++ rest) =
          (right.fold g, rest) := by
        rw [ihright hright honRight fun next hnext => (hrest next hnext).2.2]
        exact climb_of_loose fun next hnext => (hrest next hnext).2.1
      -- The left operand first; then the operator takes the right one, and both are combined.
      calc climb g least left.first
            (left.links ++ ⟨operator, nodes, right.first⟩ :: right.links ++ rest)
        _ = climb g least (left.fold g)
              (⟨operator, nodes, right.first⟩ :: (right.links ++ rest)) := by
            rw [List.append_assoc, List.cons_append]
            exact ihleft hleft hleastLeft fun next hnext => by
              obtain rfl := Option.some.inj hnext
              exact honLeft
        _ = climb g least (combine g operator nodes (left.fold g) (right.fold g)) rest := by
            rw [climb_cons, if_pos hleastOwn, hrightSide]

/-- Climbing from the loosest precedence uses up a chain, and comes to the fold of its reading. -/
theorem climb_lowest (head : Operand) (chain : List Link) :
    climb g .lowest head chain = ((ofChain head chain).fold g, []) := by
  have hleast : ∀ link ∈ (ofChain head chain).links,
      Precedence.lowest ≤ link.operator.precedence :=
    fun link _ => link.operator.precedence.lowest_le
  have hend : ∀ next ∈ ([] : List Link).head?, ∀ link ∈ (ofChain head chain).links,
      ¬ link.operator.precedence.next ≤ next.operator.precedence :=
    fun next hnext => nomatch hnext
  have hspelled := climb_spelled (g := g) (climbed_ofChain head chain) hleast hend
  rwa [first_ofChain, links_ofChain, List.append_nil, climb_nil] at hspelled

end ChainTree

/-! ## Chains of a match -/

namespace Match

variable {α : Type} {sub : RuleId → Nat → Run Outcome} {form : ChainForm}

/-- Whether the operand and the links are what a chain at `start` is made of, for a match that has
left the one trace before it and leaves the other after it. -/
def Collects (sub : RuleId → Nat → Run Outcome) (form : ChainForm) (size start : Nat)
    (before : Trace) (first : Operand) (links : List Link) (after : Trace) : Prop :=
  ∃ between, first.span.start = start ∧
    (firstOf sub start form.operands).result before =
      (.ok (.success first.span.len first.nodes), between) ∧
    (extend sub form (size - start) (start + first.span.len) #[]).result between =
      (.ok links.toArray, after)

theorem Collects.result_chain {size start : Nat} {before after : Trace} {first : Operand}
    {links : List Link} (h : Collects sub form size start before first links after)
    (g : Graph α) :
    (chain sub form g size start).result before =
      (.ok (.success (((ChainTree.ofChain first links).fold g).span.stop - start)
        ((ChainTree.ofChain first links).fold g).nodes), after) := by
  obtain ⟨between, rfl, hfirst, hlinks⟩ := h
  rw [chain, Run.result_bind_ok hfirst]
  exact Run.result_bind_ok hlinks _

/-- For every chain whose precedences are below the tightest there is one tree that spells it and
orders its operators by precedence.  From the bottom up the tree leaves one list of nodes.  Climbing
uses the chain up and comes to the same nodes, and so does every match that is made of the chain. -/
theorem fold_precedenceTree (g : Graph α) (first : Operand) (links : List Link)
    (hbelow : ∀ link ∈ links, link.operator.precedence.value < 2147483647) :
    ∃ (tree : ChainTree) (span : Span) (nodes : List Node),
      (tree.first = first ∧ tree.links = links ∧ tree.IsPrecedenceTree) ∧
      (∀ other : ChainTree, other.first = first → other.links = links → other.IsPrecedenceTree →
        other = tree) ∧
      (∀ span' nodes', tree.Annotates g span' nodes' ↔ span' = span ∧ nodes' = nodes) ∧
      ChainTree.climb g .lowest first links = (⟨span, nodes⟩, []) ∧
      ∀ (sub : RuleId → Nat → Run Outcome) (form : ChainForm) (size start : Nat)
        (before after : Trace), Collects sub form size start before first links after →
        (chain sub form g size start).result before =
          (.ok (.success (span.stop - start) nodes), after) := by
  have hlinks : (ChainTree.ofChain first links).links = links := ChainTree.links_ofChain ..
  refine ⟨ChainTree.ofChain first links, ((ChainTree.ofChain first links).fold g).span,
    ((ChainTree.ofChain first links).fold g).nodes, ⟨ChainTree.first_ofChain .., hlinks, ?_⟩, ?_, ?_,
    ChainTree.climb_lowest .., fun sub form size start before after h => h.result_chain g⟩
  · rw [← ChainTree.climbed_iff_isPrecedenceTree (by rwa [hlinks])]
    exact ChainTree.climbed_ofChain first links
  · -- Every tree in order is one that climbing makes, and climbing makes only one of the chain.
    intro other hfirst hother hordered
    have hclimbed : other.Climbed :=
      (ChainTree.climbed_iff_isPrecedenceTree (by rwa [hother])).mpr hordered
    exact hclimbed.eq_ofChain hfirst hother
  · intro span nodes
    rw [ChainTree.annotates_iff, Operand.mk.injEq, eq_comm (a := span), eq_comm (a := nodes)]

end Match

namespace Graph

/-- Sums and products, where a product binds tighter.  The signs leave nodes, and so does a sum, but a
product leaves just what is in it. -/
def arithmetic : Graph Char where
  rules := #[.named "n" (.ofKind (.single 'n')),
    .named "plus" (.ofKind (.single '+')), .named "times" (.ofKind (.single '*')),
    .named "add" (.withPrecedence ⟨10, by decide, by decide⟩ (.ofKind (.sequence [⟨0⟩, ⟨1⟩, ⟨0⟩]))),
    .named "mult" (.withPrecedence ⟨100, by decide, by decide⟩
      (.pruned .root (.ofKind (.sequence [⟨0⟩, ⟨2⟩, ⟨0⟩])))),
    .named "expr" (.ofKind (.evaluation [⟨3⟩, ⟨4⟩]))]
  root := some ⟨5⟩

/-- The `n` at a position. -/
def arithmetic.n (pos : Nat) : Operand := ⟨⟨pos, 1⟩, [.leaf ⟨0⟩ ⟨pos, 1⟩]⟩

/-- What follows the first `n` of `n+n*n`. -/
def arithmetic.sumOfProduct : List Link :=
  [⟨arithmetic.operatorOf ⟨3⟩ ⟨0⟩ ⟨1⟩ ⟨0⟩, [.leaf ⟨1⟩ ⟨1, 1⟩], n 2⟩,
    ⟨arithmetic.operatorOf ⟨4⟩ ⟨0⟩ ⟨2⟩ ⟨0⟩, [.leaf ⟨2⟩ ⟨3, 1⟩], n 4⟩]

/-- The product in it. -/
def arithmetic.product : ChainTree :=
  .branch (.operand (n 2)) (arithmetic.operatorOf ⟨4⟩ ⟨0⟩ ⟨2⟩ ⟨0⟩) [.leaf ⟨2⟩ ⟨3, 1⟩] (.operand (n 4))

/-- The product is the right side of the sum, and its nodes come right below those of the sum. -/
theorem arithmetic_fold_precedenceTree :
    (∀ link ∈ arithmetic.sumOfProduct, link.operator.precedence.value < 2147483647) ∧
      Match.Collects (arithmetic.runWithin #['n', '+', 'n', '*', 'n'] 2 1)
        (.ofEvaluation arithmetic ⟨5⟩ [⟨3⟩, ⟨4⟩]) 5 0 {} (arithmetic.n 0) arithmetic.sumOfProduct
        ⟨5, #[]⟩ ∧
      (Match.chain (arithmetic.runWithin #['n', '+', 'n', '*', 'n'] 2 1)
        (.ofEvaluation arithmetic ⟨5⟩ [⟨3⟩, ⟨4⟩]) arithmetic 5 0).result {} =
        (.ok (.success 5 [⟨⟨3⟩, ⟨0, 5⟩, [.leaf ⟨0⟩ ⟨0, 1⟩, .leaf ⟨1⟩ ⟨1, 1⟩, .leaf ⟨0⟩ ⟨2, 1⟩,
          .leaf ⟨2⟩ ⟨3, 1⟩, .leaf ⟨0⟩ ⟨4, 1⟩]⟩]), ⟨5, #[]⟩) := by
  have hbelow : ∀ link ∈ arithmetic.sumOfProduct,
      link.operator.precedence.value < 2147483647 := by decide +kernel
  have hcollects : Match.Collects (arithmetic.runWithin #['n', '+', 'n', '*', 'n'] 2 1)
      (.ofEvaluation arithmetic ⟨5⟩ [⟨3⟩, ⟨4⟩]) 5 0 {} (arithmetic.n 0) arithmetic.sumOfProduct
      ⟨5, #[]⟩ :=
    ⟨⟨0, #[]⟩, rfl, by decide +kernel, by decide +kernel⟩
  obtain ⟨tree, span, nodes, -, hunique, hnodes, -, hmatch⟩ :=
    Match.fold_precedenceTree arithmetic (arithmetic.n 0) arithmetic.sumOfProduct hbelow
  -- The tree is named by its properties: the product is the right operand of the sum.
  obtain rfl : ChainTree.branch (.operand (arithmetic.n 0)) (arithmetic.operatorOf ⟨3⟩ ⟨0⟩ ⟨1⟩ ⟨0⟩)
      [.leaf ⟨1⟩ ⟨1, 1⟩] arithmetic.product = tree :=
    hunique _ rfl rfl (by
      simp only [ChainTree.IsPrecedenceTree, ChainTree.Arranged, arithmetic.product, ChainTree.links]
      decide +kernel)
  have hlog : arithmetic.isLog ⟨4⟩ = false := by decide +kernel
  -- The root of the product is pruned, so its three nodes stand for it.
  have hproduct : arithmetic.product.Annotates arithmetic ⟨2, 3⟩
      [.leaf ⟨0⟩ ⟨2, 1⟩, .leaf ⟨2⟩ ⟨3, 1⟩, .leaf ⟨0⟩ ⟨4, 1⟩] :=
    .branch (.operand (arithmetic.n 2)) (.operand (arithmetic.n 4)) rfl rfl (.root hlog)
  obtain ⟨rfl, rfl⟩ := (hnodes ⟨0, 5⟩ _).mp
    (.branch (.operand (arithmetic.n 0)) hproduct rfl rfl .none)
  exact ⟨hbelow, hcollects, hmatch _ _ _ _ _ _ hcollects⟩

end Graph

end RuleScript
