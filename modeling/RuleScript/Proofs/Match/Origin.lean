import RuleScript.Proofs.Match.Adequacy
import RuleScript.Proofs.Match.Passing
import RuleScript.Proofs.Match.Tokens

/-!
# Where nodes come from

Each node that a match of a primitive graph leaves, at whatever depth, is a log entry or lies over
what its rule comes to there: `Graph.Sourced`.  Nothing else brings nodes up: a rule passes on what the
rules inside leave, with a node of its own over what it matched, and pruning drops nodes and empties
them.

The same induction tells that only one thing stops such a match before its end, which is that rules
are nested too deep (`Run.Gives`).  For a text split into tokens the two together say that each
token is a match of its rule (`Graph.tokenize_sourced`).
-/

namespace RuleScript

/-- Rules were nested deeper than allowed. -/
def Abort.IsDepth : Abort → Prop
  | depthExceeded .. => True
  | _ => False

/-- Unless rules are nested too deep, the run comes to a value, and the value is `ok`. -/
def Run.Gives {β : Type} (run : Run β) (ok : β → Prop) : Prop :=
  run.Meets (fun _ => True) Abort.IsDepth ok

namespace Run.Gives

variable {β : Type} {run : Run β} {ok : β → Prop} {trace after : Trace}

protected theorem record (event : Event) : (record event).Gives fun _ => True :=
  Meets.record trivial fun _ _ => trivial

theorem of_result {value : β} (h : run.Gives ok) (hresult : run.result trace = (.ok value, after)) :
    ok value := by
  have hend := (h trace trivial).2
  rw [hresult] at hend
  exact hend

theorem of_error {cause : Abort} (h : run.Gives ok)
    (hresult : run.result trace = (.error cause, after)) : cause.IsDepth := by
  have hend := (h trace trivial).2
  rw [hresult] at hend
  exact hend

end Run.Gives

/-! ## Sources -/

variable {α : Type} [Element α] {g : Graph α} {input : Array α}

namespace Graph

/-- Each node of a forest, at any depth, is a log entry or lies over what its rule comes to. -/
def Sourced (g : Graph α) (input : Array α) (forest : List Node) : Prop :=
  ∀ node ∈ Node.preorderAll forest, g.isLog node.rule = false →
    Derives g input node.rule node.span.start (some node.span.len)

theorem sourced_additive : Node.Additive (g.Sourced input) where
  nil _ hnode := nomatch hnode
  append hfirst hsecond node hnode := by
    rw [Node.preorderAll_append, List.mem_append] at hnode
    exact hnode.elim (hfirst node) (hsecond node)

theorem Sourced.prune {forest : List Node} (h : g.Sourced input forest) (pruning : Pruning) :
    g.Sourced input (g.prune pruning forest) := by
  intro node hnode hlog
  obtain ⟨origin, hmem, hrule, hspan⟩ := exists_origin_of_mem_prune hnode
  rw [← hrule, ← hspan]
  exact h origin hmem (hrule ▸ hlog)

theorem sourced_log {id : RuleId} (hlog : g.isLog id) (span : Span) :
    g.Sourced input [.leaf id span] := by
  intro node hnode hnot
  obtain rfl := List.mem_singleton.mp hnode
  exact Bool.noConfusion (hlog.symm.trans hnot)

/-- A rule may put a node over what it comes to. -/
theorem Sourced.of_madeOf {id : RuleId} {start : Nat} {outcome : Outcome}
    (h : outcome.MadeOf g (g.Sourced input) id start)
    (hderives : Derives g input id start outcome.verdict) : g.Sourced input outcome.nodes := by
  cases outcome with
  | failure => exact sourced_additive.nil
  | success len nodes =>
      rcases h with hnodes | ⟨inner, hnodes, rfl⟩ | ⟨hlog, span, rfl⟩
      · exact hnodes
      · intro node hnode hlog
        rw [Outcome.nodes, Node.preorderAll_singleton] at hnode
        rcases List.mem_cons.mp hnode with rfl | hnode
        · exact hderives
        · exact hnodes node hnode hlog
      · exact sourced_log hlog span

end Graph

namespace Graph

/-- A primitive graph leaves nodes that have a source, and is stopped by its depth only. -/
theorem runWithin_gives (hprimitive : g.Primitive) (limit depth : Nat) (id : RuleId)
    (start : Nat) :
    (g.runWithin input limit depth id start).Gives fun outcome =>
      g.Sourced input outcome.nodes := by
  refine runWithin_induction (P := fun _ _ run =>
    run.Gives fun outcome => g.Sourced input outcome.nodes) ?_ ?_ ?_ depth id start
  · intro id start hrule
    exact (Run.Gives.record _).bind fun _ _ => .pure sourced_additive.nil
  · intro id start
    exact .throw trivial
  · intro depth ih id rule hrule start
    have hkind := kind?_eq_some hrule
    -- The verdict tells what the rule has read, the nodes tell who has read it.
    have hderives : (Match.kind g input (g.runWithin input limit depth) id rule.kind start).Yields
        fun outcome => Derives g input id start outcome.verdict :=
      Match.kind_yields (runWithin_yields hprimitive.ordinary limit depth) hkind
        (hprimitive.ordinary.kind_isOrdinary hkind)
    have hmade : (Match.kind g input (g.runWithin input limit depth) id rule.kind start).Gives
        (·.MadeOf g (g.Sourced input) id start) :=
      Match.primitive_passes Trace.steady_true sourced_additive hkind
        (hprimitive.kind_isPrimitive hkind) fun one _ => ih one
    refine (hmade.and_yields hderives).map fun outcome houtcome => ?_
    have hnodes := (Sourced.of_madeOf houtcome.1 houtcome.2).prune rule.pruning
    cases outcome with
    | failure => exact sourced_additive.nil
    | success len nodes => exact hnodes

/-- A match from the root of a primitive graph leaves nodes that have a source, unless rules are
nested too deep. -/
theorem runRoot_gives (hprimitive : g.Primitive) (hroot : g.root.isSome) (input : Array α)
    (limit : Nat) :
    (g.runRoot input limit).Gives fun outcome => g.Sourced input outcome.nodes := by
  rw [runRoot]
  split
  · rename_i hnone
    rw [hnone] at hroot
    cases hroot
  · exact runWithin_gives hprimitive limit limit _ 0

/-- Each token of a text is a match of its rule. -/
theorem tokenize_sourced {g : Graph Char} (hprimitive : g.Primitive) (hroot : g.root.isSome)
    {chars : Array Char} {limit : Nat} {t : Tokenized} {journal : Journal}
    (h : g.tokenize chars limit = (.ok t, journal)) {token : Token} (htoken : token ∈ t.tokens) :
    Derives g chars token.kind token.span.start (some token.span.len) := by
  rcases hresult : g.matchRoot chars limit with ⟨cause | outcome, trace⟩
  · rw [tokenize, hresult] at h
    cases h
  · rw [tokenize, hresult] at h
    cases h
    have hnodes : g.Sourced chars outcome.nodes :=
      (runRoot_gives hprimitive hroot chars limit).of_result hresult
    cases outcome with
    | failure => exact absurd htoken (Array.not_mem_empty token)
    | success len nodes =>
        obtain ⟨hnode, hlog⟩ := Tokenized.node_of_mem_tokensOf htoken
        exact hnodes token.node hnode hlog

/-- Only rules that are nested too deep keep a text from being split into tokens. -/
theorem tokenize_error {g : Graph Char} (hprimitive : g.Primitive) (hroot : g.root.isSome)
    {chars : Array Char} {limit : Nat} {cause : Abort} {journal : Journal}
    (h : g.tokenize chars limit = (.error cause, journal)) : cause.IsDepth := by
  rcases hresult : g.matchRoot chars limit with ⟨cause' | outcome, trace⟩
  · rw [tokenize, hresult] at h
    cases h
    exact (runRoot_gives hprimitive hroot chars limit).of_error hresult
  · rw [tokenize, hresult] at h
    cases h

end Graph

end RuleScript
