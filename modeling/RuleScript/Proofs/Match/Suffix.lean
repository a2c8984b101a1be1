import RuleScript.Proofs.Forest
import RuleScript.Proofs.Match.Agreement
import RuleScript.Proofs.Match.Promise

/-!
# Matches further on in an input

What comes before the start of a match has no influence on it: over the input `u ++ v` a match from
inside of `v` is that over `v` alone, moved on by the length of `u` (`Graph.returns_append`).  The
two matches agree rule by rule, by the correspondence `Correspondence.movedOn`.
-/

namespace RuleScript

namespace Node

mutual

/-- The same tree so many positions further on. -/
def movedOn (distance : Nat) : Node → Node
  | ⟨rule, span, children⟩ =>
    ⟨rule, ⟨span.start + distance, span.len⟩, forestMovedOn distance children⟩

/-- The same forest so many positions further on. -/
def forestMovedOn (distance : Nat) : List Node → List Node
  | [] => []
  | node :: rest => node.movedOn distance :: forestMovedOn distance rest

end

variable {distance : Nat}

@[simp] theorem forestMovedOn_nil : forestMovedOn distance [] = [] := rfl

theorem forestMovedOn_append (first second : List Node) :
    forestMovedOn distance (first ++ second) =
      forestMovedOn distance first ++ forestMovedOn distance second := by
  induction first with
  | nil => rfl
  | cons node rest ih => rw [List.cons_append, forestMovedOn, ih, forestMovedOn, List.cons_append]

theorem forestLogEntries_movedOn (isLog : RuleId → Bool) (forest : List Node) :
    forestLogEntries isLog (forestMovedOn distance forest) =
      forestMovedOn distance (forestLogEntries isLog forest) := by
  induction forest using forest_induction with
  | nil => rfl
  | cons rule span children rest ihchildren ihrest =>
      rw [forestMovedOn, forestLogEntries_cons, forestLogEntries_cons, forestMovedOn_append, ihrest,
        movedOn]
      congr 1
      split
      · rfl
      · exact ihchildren

end Node

open Node

theorem Pruning.keep_movedOn (isLog : RuleId → Bool) {distance : Nat} (pruning : Pruning)
    (node : Node) :
    pruning.keep isLog (node.movedOn distance) = forestMovedOn distance (pruning.keep isLog node) := by
  obtain ⟨rule, span, children⟩ := node
  cases pruning with
  | none => rfl
  | root =>
      rw [movedOn, keep, keep]
      split <;> rfl
  | all =>
      rw [keep, keep, ← forestLogEntries_singleton, ← forestLogEntries_singleton,
        ← forestLogEntries_movedOn]
      rfl
  | children =>
      rw [movedOn, keep, keep]
      split
      · rfl
      · rw [forestLogEntries_movedOn]
        rfl

theorem Graph.prune_movedOn {α : Type} (g : Graph α) {distance : Nat} (pruning : Pruning)
    (forest : List Node) :
    g.prune pruning (forestMovedOn distance forest) =
      forestMovedOn distance (g.prune pruning forest) := by
  induction forest with
  | nil => rfl
  | cons node rest ih =>
      have hcons (first : Node) (others : List Node) :
          g.prune pruning (first :: others) = pruning.keep g.isLog first ++ g.prune pruning others :=
        List.flatMap_cons
      rw [forestMovedOn, hcons, hcons, forestMovedOn_append, ih, Pruning.keep_movedOn]

/-- The same outcome, its nodes so many positions further on. -/
def Outcome.movedOn (distance : Nat) (outcome : Outcome) : Outcome :=
  outcome.mapNodes (forestMovedOn distance)

/-- Matches of which the second goes on so many positions after the first. -/
def Correspondence.movedOn (distance : Nat) : Correspondence where
  traces _ _ := True
  aborts _ _ := True
  excuses _ := False
  ids := Eq
  shift := distance
  nodes found found' := found' = forestMovedOn distance found
  nodes_nil := forestMovedOn_nil.symm
  nodes_append := by
    rintro _ _ _ _ rfl rfl
    exact (forestMovedOn_append _ _).symm
  nodes_single := by
    rintro _ _ _ _ _ _ rfl rfl
    rfl

namespace Graph

variable {α : Type} [Element α] {g : Graph α} {v : Array α}

omit [Element α] in
theorem movedOn_graphs (g : Graph α) (u v : Array α) :
    (Correspondence.movedOn u.size).Graphs g g v (u ++ v) := by
  have hrecords (event event' : Event) :
      (Correspondence.movedOn u.size).Records event event' := fun _ _ _ => trivial
  have hmisses (pos pos' : Nat) :
      (Correspondence.movedOn u.size).Misses pos pos' := fun _ _ _ => trivial
  refine .self rfl ⟨fun pos => ?_, fun pos => ?_, fun _ => hmisses _ _, hmisses _ _,
    fun _ _ _ => hrecords _ _, fun _ _ _ _ => hrecords _ _, fun _ _ _ _ _ _ _ => hrecords _ _,
    fun _ _ _ _ _ _ _ => hrecords _ _, fun _ _ _ _ _ _ => hrecords _ _, fun _ _ _ => trivial,
    fun _ => trivial⟩ ?_
  · rw [show pos + (Correspondence.movedOn u.size).shift = u.size + pos from Nat.add_comm ..,
      Array.getElem?_append_right (Nat.le_add_right ..), Nat.add_sub_cancel_left]
  · rw [show pos + (Correspondence.movedOn u.size).shift = u.size + pos from Nat.add_comm ..,
      Array.size_append, Nat.add_sub_add_left]
  · rintro pruning found _ rfl
    exact g.prune_movedOn pruning found

/-- What every match of a rule over the second of two inputs comes to, every match over both comes
to as well, further on by the length of the first. -/
theorem returns_append {limit depth : Nat} {id : RuleId} {start : Nat} {outcome : Outcome}
    (h : (g.runWithin v limit depth id start).Returns (· = outcome)) (u : Array α) :
    (g.runWithin (u ++ v) limit depth id (start + u.size)).Returns
      (· = outcome.movedOn u.size) := by
  have hagree := Correspondence.runWithin_agree_of_aborts (g.movedOn_graphs u v) limit limit
    (fun _ => trivial) depth id id rfl start
  refine hagree.returns (fun trace => ⟨trace, trivial⟩) h ?_
  rintro value value' hvalues rfl
  cases hvalues with
  | failure => rfl
  | success len hfound => exact congrArg _ hfound

end Graph

end RuleScript
