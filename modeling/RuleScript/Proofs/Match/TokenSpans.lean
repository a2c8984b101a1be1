import RuleScript.Proofs.Match.Nesting
import RuleScript.Proofs.Match.Tokens

/-!
# Spans over tokens as spans over characters

Where no lookahead leaves nodes, tokens stand in the order of the text (`Tokenized.IsOrdered`): they
come from the nodes that a match left, and those are nested.  It does not matter whether the root left
a node to look through, nor that tokens may be over nothing.

So where tokens start and stop only grows along them, and a span over tokens becomes a span over
characters from the start of its first token to the end of its last, with the bounds never reversed.
Inclusion and order of spans are kept on the way (`Graph.tokenize_coherent`).  An empty span only has
a place, and that is in front of a token, which is why it need not stay inside what includes it: what
lies between two tokens belongs to neither.
-/

namespace RuleScript

/-! ## Nested nodes -/

namespace Node.Nested

variable {lo hi : Nat} {forest : List Node} {node : Node}

theorem bounds (h : Node.Nested lo hi forest) (hnode : node ∈ forest) :
    lo ≤ node.span.start ∧ node.span.stop ≤ hi := by
  induction h with
  | nil => cases hnode
  | @cons lo hi rule span children rest hlo hhi hchildren hrest _ ih =>
      rcases List.mem_cons.mp hnode with rfl | hnode
      · exact ⟨hlo, hhi⟩
      · obtain ⟨hstart, hstop⟩ := ih hnode
        exact ⟨Nat.le_trans hlo (Nat.le_trans span.start_le_stop hstart), hstop⟩

theorem pairwise (h : Node.Nested lo hi forest) :
    forest.Pairwise fun first second => first.span.stop ≤ second.span.start := by
  induction h with
  | nil => exact .nil
  | cons _ _ _ hrest _ ih => exact .cons (fun _ hnode => (hrest.bounds hnode).1) ih

theorem children (h : Node.Nested lo hi [node]) : Node.Nested lo hi node.children := by
  cases h with
  | cons hlo hhi hchildren _ => exact hchildren.mono hlo hhi

end Node.Nested

namespace Tokenized

variable {t : Tokenized} {n i j : Nat} {s u : Span}

/-! ## Tokens in order -/

/-- The tokens stand one after the other in what was consumed of the text. -/
structure IsOrdered (t : Tokenized) : Prop where
  ordered : t.tokens.toList.Pairwise fun first second => first.span.stop ≤ second.span.start
  inside : ∀ token ∈ t.tokens, token.span.stop ≤ t.len

theorem ofOutcome_isOrdered {g : Graph Char} {farthest : Nat} {outcome : Outcome}
    (h : outcome.Nested 0) : (ofOutcome g farthest outcome).IsOrdered := by
  cases outcome with
  | failure => exact ⟨.nil, fun token htoken => absurd htoken (Array.not_mem_empty token)⟩
  | success len nodes =>
      have hnested : Node.Nested 0 len nodes := by simpa [Outcome.Nested] using h
      -- The tokens are the nodes of one nested forest that are no log entries.
      have htokens : ∃ forest, Node.Nested 0 len forest ∧ tokensOf g nodes =
          ((forest.filter fun node => !g.isLog node.rule).map Token.mk).toArray := by
        rcases nodes with _ | ⟨node, _ | ⟨next, rest⟩⟩
        · exact ⟨_, hnested, rfl⟩
        · rw [tokensOf]
          split
          · exact ⟨_, hnested.children, rfl⟩
          · exact ⟨_, hnested, rfl⟩
        · exact ⟨_, hnested, rfl⟩
      obtain ⟨forest, hforest, htokens⟩ := htokens
      refine ⟨?_, ?_⟩
      · rw [ofOutcome, htokens]
        exact List.pairwise_map.mpr (hforest.pairwise.filter _)
      · intro token htoken
        rw [ofOutcome, htokens, List.mem_toArray, List.mem_map] at htoken
        obtain ⟨node, hnode, rfl⟩ := htoken
        exact (hforest.bounds (List.mem_filter.mp hnode).1).2

namespace IsOrdered

theorem disjoint (h : t.IsOrdered) :
    t.tokens.toList.Pairwise fun first second => first.span.intersect? second.span = none := by
  refine h.ordered.imp fun {first second} hle => ?_
  rw [Span.intersect?, if_neg]
  omega

theorem stopOf_le_startOf (h : t.IsOrdered) (hij : i < j) (hj : j < t.tokens.size) :
    t.stopOf n i ≤ t.startOf n j := by
  rw [stopOf, startOf, Array.getElem?_eq_getElem (Nat.lt_trans hij hj),
    Array.getElem?_eq_getElem hj]
  exact List.pairwise_iff_getElem.mp h.ordered i j (Nat.lt_trans hij hj) hj hij

end IsOrdered

theorem startOf_le_stopOf (t : Tokenized) (n i : Nat) : t.startOf n i ≤ t.stopOf n i := by
  rw [startOf, stopOf]
  split
  · exact Span.start_le_stop _
  · exact Nat.le_refl n

namespace IsOrdered

theorem startOf_mono (h : t.IsOrdered) (hij : i ≤ j) (hj : j < t.tokens.size) :
    t.startOf n i ≤ t.startOf n j := by
  rcases Nat.eq_or_lt_of_le hij with rfl | hlt
  · exact Nat.le_refl _
  · exact Nat.le_trans (t.startOf_le_stopOf n i) (h.stopOf_le_startOf hlt hj)

theorem stopOf_mono (h : t.IsOrdered) (hij : i ≤ j) (hj : j < t.tokens.size) :
    t.stopOf n i ≤ t.stopOf n j := by
  rcases Nat.eq_or_lt_of_le hij with rfl | hlt
  · exact Nat.le_refl _
  · exact Nat.le_trans (h.stopOf_le_startOf hlt hj) (t.startOf_le_stopOf n j)

end IsOrdered

/-! ## Characters under tokens -/

theorem start_charSpan (t : Tokenized) (n : Nat) (s : Span) :
    (t.charSpan n s).start = t.startOf n s.start := by
  rw [charSpan]
  split <;> rfl

/-- The bounds of a span over tokens are never reversed, so it ends where its last token does. -/
theorem IsOrdered.stop_charSpan (h : t.IsOrdered) (hs : 0 < s.len) (hsize : s.stop ≤ t.tokens.size) :
    (t.charSpan n s).stop = t.stopOf n (s.stop - 1) := by
  have hempty : ¬ s.isEmpty := by simp [Span.isEmpty, Nat.ne_of_gt hs]
  have hstop : s.stop = s.start + s.len := rfl
  rw [charSpan, if_neg hempty]
  refine Span.stop_ofBounds ?_
  exact Nat.le_trans (h.startOf_mono (by omega) (by omega)) (t.startOf_le_stopOf n _)

/-- How spans over the tokens of a text of `n` characters come out as spans over the characters. -/
structure Coherent (n : Nat) (t : Tokenized) : Prop extends t.IsOrdered where
  disjoint : t.tokens.toList.Pairwise fun first second => first.span.intersect? second.span = none
  len_le : t.len ≤ n
  within : ∀ s : Span, s.stop ≤ t.tokens.size → (t.charSpan n s).Within 0 n
  ends : ∀ s : Span, 0 < s.len → s.stop ≤ t.tokens.size →
    ∃ first last, t.tokens[s.start]? = some first ∧ t.tokens[s.stop - 1]? = some last ∧
      (t.charSpan n s).start = first.span.start ∧ (t.charSpan n s).stop = last.span.stop
  includes : ∀ s u : Span, 0 < s.len → u.stop ≤ t.tokens.size → u.includes s →
    (t.charSpan n u).includes (t.charSpan n s)
  before : ∀ s u : Span, 0 < s.len → 0 < u.len → u.stop ≤ t.tokens.size → s.stop ≤ u.start →
    (t.charSpan n s).stop ≤ (t.charSpan n u).start

theorem IsOrdered.coherent (h : t.IsOrdered) (hwithin : t.Within n) : t.Coherent n where
  toIsOrdered := h
  disjoint := h.disjoint
  len_le := hwithin.len
  within s _ := charSpan_within hwithin s
  ends s hs hsize := by
    have hstop : s.stop = s.start + s.len := rfl
    have hstart : s.start < t.tokens.size := by omega
    have hend : s.stop - 1 < t.tokens.size := by omega
    have hfirst := Array.getElem?_eq_getElem hstart
    have hlast := Array.getElem?_eq_getElem hend
    refine ⟨_, _, hfirst, hlast, ?_, ?_⟩
    · rw [start_charSpan, startOf, hfirst]
    · rw [h.stop_charSpan hs hsize, stopOf, hlast]
  -- A span that is not empty starts and stops at tokens, whose places are in order.
  includes s u hs hu hincludes := by
    simp only [Span.includes, Bool.and_eq_true, decide_eq_true_eq] at hincludes ⊢
    obtain ⟨hstart, hstop⟩ := hincludes
    have hs' : s.stop = s.start + s.len := rfl
    have hu' : u.stop = u.start + u.len := rfl
    rw [start_charSpan, start_charSpan, h.stop_charSpan hs (by omega),
      h.stop_charSpan (by omega) hu]
    exact ⟨h.startOf_mono hstart (by omega), h.stopOf_mono (by omega) (by omega)⟩
  before s u hs hu hsize hle := by
    have hs' : s.stop = s.start + s.len := rfl
    have hu' : u.stop = u.start + u.len := rfl
    rw [h.stop_charSpan hs (by omega), start_charSpan]
    exact h.stopOf_le_startOf (by omega) (by omega)

end Tokenized

namespace Graph

theorem runRoot_nested {α : Type} [Element α] {g : Graph α} (hfree : g.LookaheadFree)
    (input : Array α) (limit : Nat) : (g.runRoot input limit).Yields (·.Nested 0) := by
  rw [runRoot]
  split
  · exact .throw trivial
  · exact runWithin_nested hfree input limit limit _ 0

/-- **Spans over tokens fit the text**: in a graph without lookaheads that leave nodes, what a text is
split into is in order and apart, and telling a span over tokens as one over characters keeps where it
starts and ends, what it includes and what it comes before.  A text is always split, unless the match
of the root is aborted. -/
theorem tokenize_coherent {g : Graph Char} (hfree : g.LookaheadFree) (chars : Array Char)
    (limit : Nat) :
    match (g.tokenize chars limit).1 with
    | .ok t => t.Coherent chars.size
    | .error cause => (g.matchRoot chars limit).1 = .error cause := by
  have hwithin := g.tokenize_within chars limit
  unfold tokenize at hwithin ⊢
  rcases hresult : g.matchRoot chars limit with ⟨cause | outcome, trace⟩
  · rfl
  · rw [hresult] at hwithin
    have hnested := (runRoot_nested hfree chars limit).of_result hresult
    exact (Tokenized.ofOutcome_isOrdered hnested).coherent hwithin

/-- Words with an empty token after each, and blanks that are skipped. -/
def gappedWords : Graph Char where
  rules := #[
    .ofKind (.range 'a' 'z'),
    (Rule.ofKind (.count ⟨0⟩ 1 0)).pruned .children,
    .ofKind (.literal []),
    (Rule.ofKind (.single ' ')).pruned .all,
    (Rule.ofKind (.optional ⟨3⟩)).pruned .root,
    (Rule.ofKind (.sequence [⟨1⟩, ⟨2⟩, ⟨4⟩])).pruned .root,
    (Rule.ofKind (.count ⟨5⟩ 1 0)).pruned .root]
  root := some ⟨6⟩

theorem gappedWords_tokenize_coherent :
    let chars := #['a', 'b', ' ', 'c']
    let t : Tokenized := {
      tokens := #[⟨.leaf ⟨1⟩ ⟨0, 2⟩⟩, ⟨.leaf ⟨2⟩ ⟨2, 0⟩⟩, ⟨.leaf ⟨1⟩ ⟨3, 1⟩⟩, ⟨.leaf ⟨2⟩ ⟨4, 0⟩⟩]
      len := 4
      farthest := 4 }
    gappedWords.LookaheadFree ∧ (gappedWords.tokenize chars 5).1 = .ok t ∧
      t.Coherent 4 ∧ t.charSpan 4 ⟨1, 2⟩ = ⟨2, 2⟩ ∧ t.charSpan 4 ⟨2, 1⟩ = ⟨3, 1⟩ := by
  intro chars t
  have hfree : gappedWords.LookaheadFree := by decide
  have hresult : (gappedWords.tokenize chars 5).1 = .ok t := by decide +kernel
  have hcoherent := tokenize_coherent hfree chars 5
  rw [hresult] at hcoherent
  exact ⟨hfree, hresult, hcoherent, by decide, by decide⟩

end Graph

end RuleScript
