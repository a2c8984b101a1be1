import RuleScript.Proofs.Graph.WellFormed
import RuleScript.Proofs.Match.EmptyMatch

/-!
# The search for what is in reach

`Graph.visit` lists what it comes across.  What it has listed in the end is closed: whatever a listed
rule refers to is listed as well, if it was unvisited at the start (`Graph.visit_closed`).  So a walk
lists just what is reached from where it starts (`Graph.mem_walk_iff`), each once
(`Graph.nodup_walk`); from the root on that is the rules that the root reaches
(`Graph.mem_reached_iff`).

On the way every visited rule is taken from the unvisited ones, so there are never more left than
rules that may still be counted.
-/

namespace RuleScript

namespace Graph

variable {next : RuleId → List RuleId} {count : Nat} {unvisited stack : List RuleId} {id sub : RuleId}

/-- What is visited next, or that all on the stack has been visited. -/
theorem visit_cases (count : Nat) (unvisited stack : List RuleId) :
    (visit next (count + 1) unvisited stack = [] ∧ ∀ id ∈ stack, id ∉ unvisited) ∨
      ∃ id rest, id ∈ unvisited ∧ id ∈ stack ∧ rest ⊆ stack ∧
        (∀ other ∈ stack, other ∈ unvisited → other = id ∨ other ∈ rest) ∧
        visit next (count + 1) unvisited stack =
          id :: visit next count (unvisited.erase id) (next id ++ rest) := by
  -- The walk goes on at the first rule of the stack that it has not visited.
  have hsplit := List.takeWhile_append_dropWhile (p := (· ∉ unvisited)) (l := stack)
  have hvisited : ∀ other ∈ stack.takeWhile (· ∉ unvisited), other ∉ unvisited := fun other hother =>
    of_decide_eq_true (List.all_eq_true.mp List.all_takeWhile other hother)
  rw [visit]
  cases hdrop : stack.dropWhile (· ∉ unvisited) with
  | nil =>
      rw [hdrop, List.append_nil] at hsplit
      rw [hsplit] at hvisited
      exact .inl ⟨rfl, hvisited⟩
  | cons id rest =>
      rw [hdrop] at hsplit
      have hid : id ∈ unvisited := by
        have hhead := List.head_dropWhile_not (p := (· ∉ unvisited)) (l := stack)
          (by rw [hdrop]; exact List.cons_ne_nil _ _)
        simp only [hdrop, List.head_cons, decide_eq_false_iff_not, not_not] at hhead
        exact hhead
      refine .inr ⟨id, rest, hid, ?_, fun other hother => ?_, fun other hother hmem => ?_, rfl⟩
      · rw [← hsplit]
        simp
      · rw [← hsplit]
        simp [hother]
      · rw [← hsplit, List.mem_append, List.mem_cons] at hother
        exact hother.resolve_left fun htaken => hvisited other htaken hmem

/-- Everything on the stack is visited, and everything that is referred to by what is visited. -/
theorem visit_closed (hcount : unvisited.length ≤ count) :
    (∀ id ∈ stack, id ∈ unvisited → id ∈ visit next count unvisited stack) ∧
      ∀ id ∈ visit next count unvisited stack, ∀ sub ∈ next id, sub ∈ unvisited →
        sub ∈ visit next count unvisited stack := by
  induction count generalizing unvisited stack with
  | zero =>
      obtain rfl := List.eq_nil_of_length_eq_zero (Nat.le_zero.mp hcount)
      exact ⟨fun _ _ h => (List.not_mem_nil h).elim, fun _ _ _ _ h => (List.not_mem_nil h).elim⟩
  | succ count ih =>
      rcases visit_cases count unvisited stack with ⟨hvisit, hall⟩ | hmore
      · rw [hvisit]
        exact ⟨fun id hid hmem => (hall id hid hmem).elim, fun _ h => (List.not_mem_nil h).elim⟩
      · obtain ⟨id, rest, hid, -, -, hstack, hvisit⟩ := hmore
        rw [hvisit]
        have hlength : (unvisited.erase id).length ≤ count := by
          rw [List.length_erase_of_mem hid]
          omega
        obtain ⟨honstack, hclosed⟩ := @ih _ (next id ++ rest) hlength
        -- Another rule that was unvisited still is.
        have hleft {other : RuleId} (hmem : other ∈ unvisited) (hne : other ≠ id) :
            other ∈ unvisited.erase id := (List.mem_erase_of_ne hne).mpr hmem
        refine ⟨fun other hother hmem => ?_, fun other hother sub hsub hmem => ?_⟩
        · by_cases hne : other = id
          · exact hne ▸ List.mem_cons_self
          · refine List.mem_cons_of_mem _ (honstack other ?_ (hleft hmem hne))
            exact List.mem_append_right _ ((hstack other hother hmem).resolve_left hne)
        · by_cases hne : sub = id
          · exact hne ▸ List.mem_cons_self
          · refine List.mem_cons_of_mem _ ?_
            rcases List.mem_cons.mp hother with rfl | hother
            · exact honstack sub (List.mem_append_left _ hsub) (hleft hmem hne)
            · exact hclosed other hother sub hsub (hleft hmem hne)

/-- What is visited is reached from something on the stack. -/
theorem exists_of_mem_visit (h : id ∈ visit next count unvisited stack) :
    ∃ start ∈ stack, Relation.ReflTransGen (fun id sub => sub ∈ next id) start id := by
  induction count generalizing unvisited stack with
  | zero => exact (List.not_mem_nil h).elim
  | succ count ih =>
      rcases visit_cases count unvisited stack with ⟨hvisit, -⟩ | hmore
      · rw [hvisit] at h
        exact (List.not_mem_nil h).elim
      · obtain ⟨first, rest, -, hfirst, hrest, -, hvisit⟩ := hmore
        rw [hvisit] at h
        rcases List.mem_cons.mp h with rfl | h
        · exact ⟨_, hfirst, .refl⟩
        · obtain ⟨start, hstart, hreaches⟩ := ih h
          rcases List.mem_append.mp hstart with hstart | hstart
          · exact ⟨first, hfirst, .head hstart hreaches⟩
          · exact ⟨start, hrest hstart, hreaches⟩

theorem visit_subset (count : Nat) (unvisited stack : List RuleId) :
    visit next count unvisited stack ⊆ unvisited := by
  induction count generalizing unvisited stack with
  | zero => exact List.nil_subset _
  | succ count ih =>
      rcases visit_cases count unvisited stack with ⟨hvisit, -⟩ | ⟨first, rest, hfirst, -, -, -, hvisit⟩
      · rw [hvisit]
        exact List.nil_subset _
      · rw [hvisit]
        have hmore := ih (unvisited.erase first) (next first ++ rest)
        refine List.cons_subset.mpr ⟨hfirst, ?_⟩
        intro one hone
        exact List.mem_of_mem_erase (hmore hone)

/-- Nothing is visited twice. -/
theorem nodup_visit (h : unvisited.Nodup) : (visit next count unvisited stack).Nodup := by
  induction count generalizing unvisited stack with
  | zero => exact List.nodup_nil
  | succ count ih =>
      rcases visit_cases count unvisited stack with ⟨hvisit, -⟩ | ⟨first, rest, -, -, -, -, hvisit⟩
      · rw [hvisit]
        exact List.nodup_nil
      · rw [hvisit]
        refine List.nodup_cons.mpr ⟨fun hagain => ?_, ih (h.erase first)⟩
        exact (h.mem_erase_iff.mp (visit_subset _ _ _ hagain)).1 rfl

variable {α : Type} {g : Graph α}

theorem nodup_walk (g : Graph α) (next : RuleId → List RuleId) (start : List RuleId) :
    (g.walk next start).Nodup :=
  nodup_visit (List.nodup_range.map fun _ _ heq => congrArg RuleId.index heq)

/-- A walk lists just what is reached from where it starts, as long as it stays in the graph. -/
theorem mem_walk_iff {start : List RuleId} (hstart : ∀ id ∈ start, g.contains id)
    (hnext : ∀ id, ∀ sub ∈ next id, g.contains sub) :
    id ∈ g.walk next start ↔
      ∃ first ∈ start, Relation.ReflTransGen (fun id sub => sub ∈ next id) first id := by
  have hlength : g.ids.length ≤ g.size := by simp [ids]
  obtain ⟨hstack, hclosed⟩ := @visit_closed next _ _ start hlength
  have hids {id : RuleId} (hid : g.contains id) : id ∈ g.ids := mem_ids.mpr (contains_iff.mp hid)
  constructor
  · exact exists_of_mem_visit
  · rintro ⟨first, hfirst, hreaches⟩
    induction hreaches with
    | refl => exact hstack _ hfirst (hids (hstart _ hfirst))
    | tail _ hsub ih => exact hclosed _ ih _ hsub (hids (hnext _ _ hsub))

theorem WellFormed.contains_of_mem_subs (h : g.WellFormed) (hsub : sub ∈ g.subs id) :
    g.contains sub := by
  rw [subs] at hsub
  split at hsub
  · rename_i rule hrule
    exact h.edges rule (Array.mem_of_getElem? hrule) sub hsub
  · exact (List.not_mem_nil hsub).elim

theorem WellFormed.contains_of_reaches (h : g.WellFormed) (hid : g.contains id)
    (hreaches : g.Reaches id sub) : g.contains sub := by
  cases hreaches with
  | refl => exact hid
  | tail _ hsub => exact h.contains_of_mem_subs hsub

theorem WellFormed.contains_of_fromRoot (h : g.WellFormed) (hid : g.FromRoot id) : g.contains id := by
  obtain ⟨root, hroot, hreaches⟩ := hid
  exact h.contains_of_reaches (h.root _ hroot) hreaches

theorem mem_reached_iff (h : g.WellFormed) : id ∈ g.reached ↔ g.FromRoot id := by
  rw [reached, mem_walk_iff (fun root hroot => h.root root (Option.mem_toList.mp hroot))
    fun _ _ hsub => h.contains_of_mem_subs hsub]
  exact exists_congr fun root => and_congr_left fun _ => Option.mem_toList

/-- The table marks just what the root reaches. -/
theorem reachable_eq_true_iff (hg : g.WellFormed) :
    g.reachable[id.index]? = some true ↔ g.FromRoot id := by
  rw [← mem_reached_iff hg, reachable, List.getElem?_map]
  constructor
  · intro h
    obtain ⟨one, hone, hreached⟩ := Option.map_eq_some_iff.mp h
    obtain ⟨hlt, hget⟩ := List.getElem?_eq_some_iff.mp hone
    have hsame : one = id := by simpa [ids] using hget.symm
    rw [hsame] at hreached
    exact List.contains_iff_mem.mp hreached
  · intro h
    have hlt := contains_iff.mp (hg.contains_of_fromRoot ((mem_reached_iff hg).mp h))
    have hget : g.ids[id.index]? = some id := by simp [ids, hlt]
    rw [hget, Option.map_some, List.contains_iff_mem.mpr h]

end Graph

end RuleScript
