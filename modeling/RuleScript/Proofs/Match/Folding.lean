import RuleScript.Match.Precedence

/-!
# What every reading of a chain has in common

The reading of a chain depends on the precedences of its operators, but much of what a fold leaves
does not.  `ChainTree.fold_ofChain` carries a property of operands through a fold: it is enough
that one operator passes it on from its two sides.  `ChainTree.frontier` and `ChainTree.stop` are
the parts of a reading that only depend on the chain: all nodes in the order of matching, and where
the last of the operands ends.
-/

namespace RuleScript

namespace ChainTree

variable {α : Type}

/-! ## Properties of all parts -/

/-- Whether all operands and all operators of a tree have a property. -/
def All (P : Operand → Prop) (Q : BinaryOperator → List Node → Prop) : ChainTree → Prop
  | operand alone => P alone
  | branch left operator nodes right => left.All P Q ∧ Q operator nodes ∧ right.All P Q

variable {P : Operand → Prop} {Q : BinaryOperator → List Node → Prop}

theorem All.attach {tree : ChainTree} {link : Link} (h : tree.All P Q)
    (hoperator : Q link.operator link.nodes) (hright : P link.right) :
    (tree.attach link).All P Q := by
  induction tree with
  | operand alone => exact ⟨h, hoperator, hright⟩
  | branch left operator nodes right _ ih =>
      rw [ChainTree.attach]
      split
      · exact ⟨h.1, h.2.1, ih h.2.2⟩
      · exact ⟨h, hoperator, hright⟩

theorem All.ofChain {first : Operand} {links : List Link} (hfirst : P first)
    (hlinks : ∀ link ∈ links, Q link.operator link.nodes ∧ P link.right) :
    (ofChain first links).All P Q := by
  -- The links are attached to a tree that grows, so the induction is about any tree.
  suffices h : ∀ tree : ChainTree, tree.All P Q →
      (links.foldl (fun tree link => tree.attach link) tree).All P Q from h (.operand first) hfirst
  induction links with
  | nil => exact fun _ htree => htree
  | cons link links ih =>
      intro tree htree
      obtain ⟨hoperator, hright⟩ := hlinks link List.mem_cons_self
      exact ih (fun link hlink => hlinks link (List.mem_cons_of_mem _ hlink)) _
        (htree.attach hoperator hright)

theorem All.fold {g : Graph α} {tree : ChainTree} (h : tree.All P Q)
    (hcombine : ∀ operator nodes left right, Q operator nodes → P left → P right →
      P (combine g operator nodes left right)) : P (tree.fold g) := by
  induction tree with
  | operand alone => exact h
  | branch left operator nodes right ihleft ihright =>
      exact hcombine operator nodes _ _ h.2.1 (ihleft h.1) (ihright h.2.2)

theorem fold_ofChain {g : Graph α} {first : Operand} {links : List Link} (hfirst : P first)
    (hlinks : ∀ link ∈ links, Q link.operator link.nodes ∧ P link.right)
    (hcombine : ∀ operator nodes left right, Q operator nodes → P left → P right →
      P (combine g operator nodes left right)) : P ((ofChain first links).fold g) :=
  (All.ofChain hfirst hlinks).fold hcombine

/-! ## Nodes in the order of matching -/

/-- The nodes of all operands and operators, from left to right. -/
def frontier : ChainTree → List Node
  | operand alone => alone.nodes
  | branch left _ nodes right => left.frontier ++ nodes ++ right.frontier

theorem frontier_attach (tree : ChainTree) (link : Link) :
    (tree.attach link).frontier = tree.frontier ++ (link.nodes ++ link.right.nodes) := by
  induction tree with
  | operand alone => exact List.append_assoc ..
  | branch left operator nodes right _ ih =>
      rw [attach]
      split
      · rw [frontier, frontier, ih, List.append_assoc _ right.frontier]
      · exact List.append_assoc ..

theorem frontier_ofChain (first : Operand) (links : List Link) :
    (ofChain first links).frontier =
      first.nodes ++ links.flatMap fun link => link.nodes ++ link.right.nodes := by
  suffices h : ∀ tree : ChainTree,
      (links.foldl (fun tree link => tree.attach link) tree).frontier =
        tree.frontier ++ links.flatMap fun link => link.nodes ++ link.right.nodes from
    h (.operand first)
  induction links with
  | nil => exact fun tree => (List.append_nil _).symm
  | cons link links ih =>
      intro tree
      rw [List.foldl_cons, ih, frontier_attach, List.flatMap_cons, List.append_assoc]

/-! ## Where a reading ends -/

/-- Where the last of the operands ends. -/
def stop : ChainTree → Nat
  | operand alone => alone.span.stop
  | branch left _ _ right => max left.stop right.stop

theorem stop_attach (tree : ChainTree) (link : Link) :
    (tree.attach link).stop = max tree.stop link.right.span.stop := by
  induction tree with
  | operand alone => rfl
  | branch left operator nodes right _ ih =>
      rw [attach]
      split
      · rw [stop, stop, ih, Nat.max_assoc]
      · rfl

theorem stop_ofChain (first : Operand) (links : List Link) :
    (ofChain first links).stop =
      links.foldl (fun stop link => max stop link.right.span.stop) first.span.stop := by
  suffices h : ∀ tree : ChainTree, (links.foldl (fun tree link => tree.attach link) tree).stop =
      links.foldl (fun stop link => max stop link.right.span.stop) tree.stop from h (.operand first)
  induction links with
  | nil => exact fun _ => rfl
  | cons link links ih =>
      intro tree
      rw [List.foldl_cons, List.foldl_cons, ih, stop_attach]

theorem stop_fold (g : Graph α) (tree : ChainTree) : (tree.fold g).span.stop = tree.stop := by
  induction tree with
  | operand alone => rfl
  | branch left operator nodes right ihleft ihright =>
      rw [fold, stop, ← ihleft, ← ihright]
      exact Span.stop_cover _ _

/-- A folded chain does not end before its first operand does. -/
theorem stop_le_stop_fold (g : Graph α) (first : Operand) (links : List Link) :
    first.span.stop ≤ ((ofChain first links).fold g).span.stop := by
  have hle : ∀ stop : Nat,
      stop ≤ links.foldl (fun stop link => max stop link.right.span.stop) stop := by
    induction links with
    | nil => exact fun stop => Nat.le_refl stop
    | cons link links ih =>
        intro stop
        exact Nat.le_trans (Nat.le_max_left stop link.right.span.stop) (ih _)
  rw [stop_fold, stop_ofChain]
  exact hle first.span.stop

end ChainTree

end RuleScript
