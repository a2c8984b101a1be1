import Mathlib.Data.List.Chain
import RuleScript.Proofs.Graph.Reachability

/-!
# What named rules use

A rule uses another one if references lead from it to the other, all through rules without a name
(`Graph.Uses`).  The search for the named rules that a rule uses does not go on from a named rule, but
it comes to all that is used (`Graph.mem_namedUses_iff`).

A path of references between named rules can be cut at the named rules on it.  Each piece is a use, so
from a named root on, uses lead to just the named rules in reach (`Graph.Reaches.exists_uses`).
-/

namespace RuleScript.Graph

open Relation

variable {α : Type} {g : Graph α} {id next sub : RuleId}

/-- References lead from a rule to another one, and no rule in between has a name. -/
def Uses (g : Graph α) (id sub : RuleId) : Prop :=
  ∃ between : List RuleId, (id :: (between ++ [sub])).IsChain (fun one next => next ∈ g.subs one) ∧
    ∀ one ∈ between, ¬ g.isNamed one

/-! ## Paths through rules without a name -/

theorem Uses.direct (h : sub ∈ g.subs id) : g.Uses id sub :=
  ⟨[], List.isChain_pair.mpr h, fun _ hmem => (List.not_mem_nil hmem).elim⟩

theorem Uses.through (h : next ∈ g.subs id) (hnext : ¬ g.isNamed next) (huses : g.Uses next sub) :
    g.Uses id sub := by
  obtain ⟨between, hchain, hunnamed⟩ := huses
  exact ⟨next :: between, hchain.cons_cons h, List.forall_mem_cons.mpr ⟨hnext, hunnamed⟩⟩

/-! ## The search for what is used -/

/-- Where the search for what is used goes on: from rules without a name only. -/
def onward (g : Graph α) (id : RuleId) : List RuleId := if g.isNamed id then [] else g.subs id

theorem mem_onward_iff : sub ∈ g.onward id ↔ ¬ g.isNamed id ∧ sub ∈ g.subs id := by
  by_cases hid : g.isNamed id <;> simp [onward, hid]

/-- The search reaches just what is used. -/
theorem exists_reflTransGen_onward_iff :
    (∃ first ∈ g.subs id, ReflTransGen (fun one next => next ∈ g.onward one) first sub) ↔
      g.Uses id sub := by
  constructor
  · rintro ⟨first, hfirst, hpath⟩
    induction hpath using ReflTransGen.head_induction_on generalizing id with
    | refl => exact .direct hfirst
    | head hnext _ ih =>
        obtain ⟨hunnamed, hsub⟩ := mem_onward_iff.mp hnext
        exact .through hfirst hunnamed (ih hsub)
  · rintro ⟨between, hchain, hunnamed⟩
    induction between generalizing id with
    | nil => exact ⟨sub, List.isChain_pair.mp hchain, .refl⟩
    | cons next between ih =>
        obtain ⟨hnext, hrest⟩ := List.isChain_cons_cons.mp hchain
        obtain ⟨hfirst, hothers⟩ := List.forall_mem_cons.mp hunnamed
        obtain ⟨first, hsub, hpath⟩ := ih hrest hothers
        exact ⟨next, hnext, .head (mem_onward_iff.mpr ⟨hfirst, hsub⟩) hpath⟩

theorem Uses.reaches (h : g.Uses id sub) : g.Reaches id sub := by
  obtain ⟨first, hfirst, hpath⟩ := exists_reflTransGen_onward_iff.mpr h
  have hreaches : g.Reaches first sub :=
    ReflTransGen.mono (fun _ _ hnext => (mem_onward_iff.mp hnext).2) _ _ hpath
  exact .head hfirst hreaches

theorem nodup_namedUses (g : Graph α) (id : RuleId) : (g.namedUses id).Nodup :=
  (nodup_walk g _ _).filter _

theorem mem_namedUses_iff (hg : g.WellFormed) :
    sub ∈ g.namedUses id ↔ g.isNamed sub ∧ g.Uses id sub := by
  have hsubs (one next : RuleId) (hnext : next ∈ g.subs one) : g.contains next :=
    hg.contains_of_mem_subs hnext
  have hwalk : sub ∈ g.walk g.onward (g.subs id) ↔ g.Uses id sub :=
    (mem_walk_iff (hsubs id) fun one next hnext => hsubs one next (mem_onward_iff.mp hnext).2).trans
      exists_reflTransGen_onward_iff
  rw [← hwalk, and_comm]
  exact List.mem_filter

/-! ## Uses and reach -/

/-- A path to a named rule is empty or starts with a use of a named rule. -/
theorem Reaches.exists_uses (h : g.Reaches id sub) (hsub : g.isNamed sub) :
    id = sub ∨ ∃ next, g.isNamed next ∧ g.Uses id next ∧
      ReflTransGen (fun one next => g.isNamed next ∧ g.Uses one next) next sub := by
  induction h using ReflTransGen.head_induction_on with
  | refl => exact .inl rfl
  | @head id next hnext _ ih =>
      right
      by_cases hnamed : g.isNamed next
      · -- The path is cut at `next`.
        refine ⟨next, hnamed, .direct hnext, ?_⟩
        rcases ih with rfl | ⟨later, hlater, huses, hrest⟩
        · exact .refl
        · exact .head ⟨hlater, huses⟩ hrest
      · rcases ih with rfl | ⟨later, hlater, huses, hrest⟩
        · exact (hnamed hsub).elim
        · exact ⟨later, hlater, .through hnext hnamed huses, hrest⟩

/-- From a named rule on, uses lead to just the named rules in reach. -/
theorem reflTransGen_uses_iff (hid : g.isNamed id) :
    ReflTransGen (fun one next => g.isNamed next ∧ g.Uses one next) id sub ↔
      g.isNamed sub ∧ g.Reaches id sub := by
  constructor
  · intro h
    induction h with
    | refl => exact ⟨hid, .refl⟩
    | tail _ huses ih => exact ⟨huses.1, ih.2.trans huses.2.reaches⟩
  · rintro ⟨hsub, hreaches⟩
    rcases hreaches.exists_uses hsub with rfl | ⟨next, hnext, huses, hrest⟩
    · exact .refl
    · exact .head ⟨hnext, huses⟩ hrest

/-- **The uses that are drawn are exact.**  For every rule the search lists, each once, the named rules
that references lead to through rules without a name alone.  Where the root has a name, the named rules
in its reach are the root and what comes of following such uses from it. -/
theorem WellFormed.namedUses_exact (hg : g.WellFormed) :
    (∀ id, (g.namedUses id).Nodup ∧
      ∀ sub, sub ∈ g.namedUses id ↔ g.isNamed sub ∧ g.Uses id sub) ∧
    ∀ root ∈ g.root, g.isNamed root → ∀ id,
      (g.isNamed id ∧ g.reachable[id.index]? = some true ↔
        ReflTransGen (fun one next => next ∈ g.namedUses one) root id) := by
  refine ⟨fun id => ⟨nodup_namedUses g id, fun sub => mem_namedUses_iff hg⟩,
    fun root hroot hnamed id => ?_⟩
  have hfromRoot : g.FromRoot id ↔ g.Reaches root id := by
    constructor
    · rintro ⟨start, hstart, hreaches⟩
      cases hstart.symm.trans hroot
      exact hreaches
    · exact fun hreaches => ⟨root, hroot, hreaches⟩
  simp only [mem_namedUses_iff hg]
  rw [reachable_eq_true_iff hg, hfromRoot, reflTransGen_uses_iff hnamed]

/-- A list is an item and perhaps further items, and an item is a letter or a list again. -/
def nestedLists : Graph Char where
  rules := #[
    .named "list" (.ofKind (.sequence [⟨1⟩, ⟨2⟩])),
    .ofKind (.reference "item" (some ⟨4⟩)),
    .ofKind (.count ⟨3⟩ 0 1),
    .ofKind (.sequence [⟨1⟩, ⟨2⟩]),
    .named "item" (.ofKind (.oneOf [⟨5⟩, ⟨0⟩])),
    .ofKind (.single 'x')]
  root := some ⟨0⟩

theorem nestedLists_wellFormed : nestedLists.WellFormed where
  distinct := by decide +kernel
  edges := by decide +kernel
  root := by decide +kernel

/-- A list uses items through rules without a name, two of which refer to each other. -/
theorem nestedLists_namedUses :
    nestedLists.WellFormed ∧ (nestedLists.namedUses ⟨0⟩).Nodup ∧
      (nestedLists.isNamed ⟨4⟩ ∧ nestedLists.Uses ⟨0⟩ ⟨4⟩) ∧
      some (⟨0⟩ : RuleId) = nestedLists.root ∧ nestedLists.isNamed ⟨0⟩ ∧
      ReflTransGen (fun one next => next ∈ nestedLists.namedUses one) ⟨0⟩ ⟨4⟩ := by
  obtain ⟨huses, hreach⟩ := nestedLists_wellFormed.namedUses_exact
  obtain ⟨hnodup, hmem⟩ := huses ⟨0⟩
  have hnamed : nestedLists.isNamed ⟨0⟩ := by decide +kernel
  exact ⟨nestedLists_wellFormed, hnodup, (hmem ⟨4⟩).mp (by decide +kernel), rfl, hnamed,
    (hreach ⟨0⟩ rfl hnamed ⟨4⟩).mp (by decide +kernel)⟩

end RuleScript.Graph
