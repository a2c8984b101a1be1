import RuleScript.Proofs.Match.Passing
import RuleScript.Proofs.Match.Promise

/-!
# How deep rules are nested

A rule that does not come to itself again has a height: no path from it along the rules that rules
refer to is longer.  With that much depth left a match of it cannot run out of it, and in a primitive
graph nothing else stops a match (`Graph.runWithin_returns`).

`Graph.allBelow` looks through the rules below a rule down to a height and tests each of them, so it
finds the height and what all the rules have in common at once.
-/

namespace RuleScript

namespace Graph

variable {α : Type} {g : Graph α} {test : RuleId → Bool} {height : Nat} {id : RuleId}

/-- Whether a rule is no higher than the given height and all rules below, itself included, pass a
test. -/
def allBelow (g : Graph α) (test : RuleId → Bool) : (height : Nat) → RuleId → Bool
  | 0, _ => false
  | height + 1, id => test id && (g.subs id).all (g.allBelow test height)

theorem allBelow_succ_iff :
    g.allBelow test (height + 1) id ↔
      test id ∧ ∀ sub ∈ g.subs id, g.allBelow test height sub := by
  rw [allBelow, Bool.and_eq_true, List.all_eq_true]

theorem allBelow_mono (h : g.allBelow test height id) {more : Nat} (hle : height ≤ more) :
    g.allBelow test more id := by
  induction height generalizing more id with
  | zero => cases h
  | succ height ih =>
      obtain ⟨more, rfl⟩ := Nat.exists_eq_add_of_le' (Nat.lt_of_lt_of_le (Nat.succ_pos _) hle)
      rw [allBelow_succ_iff] at h ⊢
      exact ⟨h.1, fun sub hsub => ih (h.2 sub hsub) (Nat.le_of_succ_le_succ hle)⟩

theorem logFree_additive : Node.Additive g.LogFree :=
  ⟨LogFree.nil, fun hfirst hsecond => LogFree.append_iff.mpr ⟨hfirst, hsecond⟩⟩

theorem LogFree.prune {forest : List Node} (h : g.LogFree forest) (pruning : Pruning) :
    g.LogFree (g.prune pruning forest) := by
  intro node hnode
  obtain ⟨origin, hmem, hrule, -⟩ := exists_origin_of_mem_prune hnode
  exact hrule ▸ h origin hmem

variable [Element α] {input : Array α}

/-- In a primitive graph a match comes to an outcome if there is depth for all the rules below. -/
theorem runWithin_returns (hprimitive : g.Primitive) {depth : Nat}
    (h : g.allBelow (fun _ => true) depth id) (limit start : Nat) :
    (g.runWithin input limit depth id start).Returns fun _ => True := by
  induction depth generalizing id start with
  | zero => cases h
  | succ depth ih =>
      cases hrule : g.rule? id with
      | none =>
          rw [runWithin_unknown hrule]
          exact (Run.Returns.record _).bind fun _ _ => .pure trivial
      | some rule =>
          have hkind := kind?_eq_some hrule
          have hsubs := (allBelow_succ_iff.mp h).2
          rw [subs_eq hrule] at hsubs
          rw [runWithin_succ hrule]
          refine Run.Meets.map (Match.primitive_passes Trace.steady_true Node.additive_true hkind
            (hprimitive.kind_isPrimitive hkind) fun one hone pos => ?_) fun _ _ => trivial
          exact ih (hsubs one hone) pos

/-- Where no rule below is a log, no log entry is left. -/
theorem promises_logFree (hprimitive : g.Primitive)
    (h : g.allBelow (fun id => !g.isLog id) height id) (input : Array α) (start : Nat) :
    g.Promises input id start fun outcome => g.LogFree outcome.nodes := by
  induction height generalizing id start with
  | zero => cases h
  | succ height ih =>
      obtain ⟨hlog, hsubs⟩ := allBelow_succ_iff.mp h
      have hlog : g.isLog id = false := by simpa using hlog
      intro limit depth
      cases hrule : g.rule? id with
      | none =>
          rw [runWithin_unknown hrule]
          exact (Run.Yields.record _).bind fun _ _ => .pure LogFree.nil
      | some rule =>
          have hkind := kind?_eq_some hrule
          rw [subs_eq hrule] at hsubs
          refine promises_of_rule hrule (fun sub hsub => ?_) limit depth
          refine (Match.primitive_passes Trace.steady_true logFree_additive hkind
            (hprimitive.kind_isPrimitive hkind) fun one hone pos =>
              hsub one pos _ (ih (hsubs one hone) pos)).mono (fun _ h => h) fun outcome hmade => ?_
          -- The node of the rule itself is no entry, and those below come from rules of less height.
          have hnodes : g.LogFree outcome.nodes := hmade.nodes LogFree.nil (fun _ h => h)
            (fun len inner hinner => LogFree.singleton_iff.mpr ⟨hlog, hinner⟩)
            fun hid => absurd hid (by simp [hlog])
          cases outcome with
          | failure => exact LogFree.nil
          | success len nodes => exact hnodes.prune rule.pruning

end Graph

end RuleScript
