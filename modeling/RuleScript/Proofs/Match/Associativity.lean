import RuleScript.Proofs.Match.Climbing

/-!
# Operators of one precedence

A chain whose operators all have the same precedence is read from the left: its last operator is on
top, with everything before it on the left side.  The one exception is the tightest precedence.
An operator takes over the right operand of the one before it if it binds at least as tightly as
the precedence after that one's, and the tightest precedence comes after itself.  So there the first
operator is on top, and everything after it is on its right side.
-/

namespace RuleScript

namespace ChainTree

variable {p : Precedence} {head : Operand} {chain : List Link} {last : Link}

/-- Below the tightest precedence the last operator goes on top. -/
theorem ofChain_concat_of_lt (hlt : p.value < 2147483647)
    (h : ∀ link ∈ chain ++ [last], link.operator.precedence = p) :
    ofChain head (chain ++ [last]) =
      branch (ofChain head chain) last.operator last.nodes (operand last.right) := by
  have hlast : last.operator.precedence = p := h last (List.mem_append_right _ List.mem_cons_self)
  rw [ofChain_concat]
  refine attach_over fun inner hinner => ?_
  rw [links_ofChain] at hinner
  rw [h inner (List.mem_append_left _ hinner), hlast, Precedence.next_le_iff hlt]
  exact Int.lt_irrefl _

/-- At the tightest precedence the first operator stays on top. -/
theorem ofChain_cons_of_highest {link : Link} (hhighest : p.value = 2147483647)
    (h : ∀ other ∈ link :: chain, other.operator.precedence = p) :
    ofChain head (link :: chain) =
      branch (operand head) link.operator link.nodes (ofChain link.right chain) := by
  obtain ⟨hlink, hchain⟩ := List.forall_mem_cons.mp h
  have hnext : p.next = p := Precedence.next_of_highest (by omega)
  refine foldl_attach_within fun other hother => ?_
  rw [hlink, hchain other hother, hnext]
  exact Int.le_refl _

theorem ofChain_concat_eq_iff (h : ∀ link ∈ chain ++ [last], link.operator.precedence = p) :
    ofChain head (chain ++ [last]) =
        branch (ofChain head chain) last.operator last.nodes (operand last.right) ↔
      p.value < 2147483647 ∨ chain = [] := by
  constructor
  · intro hleft
    by_contra hnot
    obtain ⟨hge, hne⟩ := not_or.mp hnot
    have hhighest : p.value = 2147483647 := Int.le_antisymm p.le_highest (Int.not_lt.mp hge)
    obtain ⟨link, rest, rfl⟩ := List.exists_cons_of_ne_nil hne
    have hchain : ∀ other ∈ link :: rest, other.operator.precedence = p :=
      fun other hother => h other (List.mem_append_left _ hother)
    -- One reading has a lone operand on the left, the other a whole chain.
    rw [List.cons_append] at h hleft
    rw [ofChain_cons_of_highest hhighest h, ofChain_cons_of_highest hhighest hchain] at hleft
    cases hleft
  · rintro (hlt | rfl)
    · exact ofChain_concat_of_lt hlt h
    · rfl

end ChainTree

namespace Match

open ChainTree in
/-- A chain of operators of one precedence has its last operator on top, over the reading of the
rest of the chain, just if the precedence is not the tightest or there is no other operator.  Below
the tightest precedence a match of the chain leaves the last operator over the fold of the rest.  At
the tightest precedence the first operator is on top instead, over the reading of what comes after
it. -/
theorem fold_equal_precedence {α : Type} (g : Graph α) {p : Precedence} (first : Operand)
    {links : List Link} {last : Link}
    (h : ∀ link ∈ links ++ [last], link.operator.precedence = p) :
    (ofChain first (links ++ [last]) =
        branch (ofChain first links) last.operator last.nodes (operand last.right) ↔
      p.value < 2147483647 ∨ links = []) ∧
    (p.value < 2147483647 →
      ∀ (sub : RuleId → Nat → Run Outcome) (form : ChainForm) (size start : Nat)
        (before after : Trace),
        Collects sub form size start before first (links ++ [last]) after →
        let whole := combine g last.operator last.nodes ((ofChain first links).fold g) last.right
        (chain sub form g size start).result before =
          (.ok (.success (whole.span.stop - start) whole.nodes), after)) ∧
    (p.value = 2147483647 → ∀ link rest, links ++ [last] = link :: rest →
      ofChain first (links ++ [last]) =
        branch (operand first) link.operator link.nodes (ofChain link.right rest)) := by
  refine ⟨ofChain_concat_eq_iff h, ?_, ?_⟩
  · intro hlt sub form size start before after hcollects
    rw [hcollects.result_chain g, ofChain_concat_of_lt hlt h]
    rfl
  · intro hhighest link rest heq
    rw [heq] at h ⊢
    exact ofChain_cons_of_highest hhighest h

end Match

namespace Graph

/-- Sums with an operator of the given precedence. -/
def sumsBinding (p : Precedence) : Graph Char where
  rules := #[.named "n" (.ofKind (.single 'n')), .pruned .all (.ofKind (.single '+')),
    .named "add" (.withPrecedence p (.ofKind (.sequence [⟨0⟩, ⟨1⟩, ⟨0⟩]))),
    .named "expr" (.ofKind (.evaluation [⟨2⟩]))]
  root := some ⟨3⟩

namespace sumsBinding

def ten : Precedence := (Precedence.ofInt? 10).getD .zero

/-- The tightest precedence. -/
def tightest : Precedence := (Precedence.ofInt? 2147483647).getD .zero

/-- The `n` at a position. -/
def n (pos : Nat) : Operand := ⟨⟨pos, 1⟩, [.leaf ⟨0⟩ ⟨pos, 1⟩]⟩

/-- A plus sign and the `n` at a position. -/
def plus (p : Precedence) (pos : Nat) : Link :=
  ⟨(sumsBinding p).operatorOf ⟨2⟩ ⟨0⟩ ⟨1⟩ ⟨0⟩, [], n pos⟩

/-- The tree of `(n+n)+n`. -/
def onLeft : Node :=
  ⟨⟨2⟩, ⟨0, 5⟩, [⟨⟨2⟩, ⟨0, 3⟩, [.leaf ⟨0⟩ ⟨0, 1⟩, .leaf ⟨0⟩ ⟨2, 1⟩]⟩, .leaf ⟨0⟩ ⟨4, 1⟩]⟩

/-- The tree of `n+(n+n)`. -/
def onRight : Node :=
  ⟨⟨2⟩, ⟨0, 5⟩, [.leaf ⟨0⟩ ⟨0, 1⟩, ⟨⟨2⟩, ⟨2, 3⟩, [.leaf ⟨0⟩ ⟨2, 1⟩, .leaf ⟨0⟩ ⟨4, 1⟩]⟩]⟩

/-- How the rules inside a match of `n+n+n` match. -/
def sub (p : Precedence) : RuleId → Nat → Run Outcome :=
  (sumsBinding p).runWithin #['n', '+', 'n', '+', 'n'] 2 1

/-- The form of the chains of sums. -/
def form (p : Precedence) : Match.ChainForm := .ofEvaluation (sumsBinding p) ⟨3⟩ [⟨2⟩]

end sumsBinding

open sumsBinding in
/-- With a precedence of ten the last plus sign is on top. -/
theorem sumsBinding_ten_equal_precedence :
    (∀ link ∈ [plus ten 2] ++ [plus ten 4], link.operator.precedence = ten) ∧
      Match.Collects (sub ten) (form ten) 5 0 {} (n 0) ([plus ten 2] ++ [plus ten 4]) ⟨5, #[]⟩ ∧
      (Match.chain (sub ten) (form ten) (sumsBinding ten) 5 0).result {} =
        (.ok (.success 5 [onLeft]), ⟨5, #[]⟩) := by
  have hequal : ∀ link ∈ [plus ten 2] ++ [plus ten 4], link.operator.precedence = ten := by
    decide +kernel
  have hcollects : Match.Collects (sub ten) (form ten) 5 0 {} (n 0) ([plus ten 2] ++ [plus ten 4])
      ⟨5, #[]⟩ :=
    ⟨⟨0, #[]⟩, rfl, by decide +kernel, by decide +kernel⟩
  obtain ⟨-, hleft, -⟩ := Match.fold_equal_precedence (sumsBinding ten) (n 0) hequal
  exact ⟨hequal, hcollects, (hleft (by decide) _ _ _ _ _ _ hcollects).trans (by decide +kernel)⟩

open sumsBinding in
/-- With the tightest precedence the first plus sign is on top. -/
theorem sumsBinding_tightest_folds_right :
    (∀ link ∈ [plus tightest 2] ++ [plus tightest 4], link.operator.precedence = tightest) ∧
      (ChainTree.ofChain (n 0) ([plus tightest 2] ++ [plus tightest 4])).fold
          (sumsBinding tightest) ≠
        ChainTree.combine (sumsBinding tightest) (plus tightest 4).operator []
          ((ChainTree.ofChain (n 0) [plus tightest 2]).fold (sumsBinding tightest)) (n 4) ∧
      ((sumsBinding tightest).matchAt #['n', '+', 'n', '+', 'n'] 2 ⟨3⟩ 0).1 =
        .ok (.success 5 [onRight]) ∧
      onRight ≠ onLeft := by
  decide +kernel

end Graph

end RuleScript
