import RuleScript.Pipeline.Include
import RuleScript.Proofs.Match.Agreement

/-!
# Steps of a compilation with includes

What the single steps of compiling a unit with its includes come to, so that no proof has to look at
how they pass their state along; and what they put on record.  The record tells which units were
compiled, because a unit is compiled in one step, which records it at most once, and no match records
anything of that sort (`compiledUnits_compile`).
-/

namespace RuleScript

/-! ## What is recorded -/

/-- The unit that was compiled, for the record of it. -/
def Event.compiledUnit? : Event → Option String
  | compiled unit .. => some unit
  | _ => none

/-- The units that were compiled, by what is on record. -/
def compiledUnits (journal : Journal) : List String := journal.toList.filterMap (·.compiledUnit?)

theorem compiledUnits_append (first second : Journal) :
    compiledUnits (first ++ second) = compiledUnits first ++ compiledUnits second := by
  rw [compiledUnits, Array.toList_append, List.filterMap_append]
  rfl

theorem compiledUnits_push (journal : Journal) (event : Event) :
    compiledUnits (journal.push event) = compiledUnits journal ++ event.compiledUnit?.toList := by
  rw [compiledUnits, Array.toList_push, List.filterMap_append]
  cases h : event.compiledUnit? <;> simp [compiledUnits, h]

theorem compiledUnits_map {β : Type} (list : List β) (f : β → Event)
    (h : ∀ a, (f a).compiledUnit? = none) (journal : Journal) :
    compiledUnits (journal ++ list.map f) = compiledUnits journal := by
  rw [compiledUnits, Array.toList_appendList, List.filterMap_append]
  have hnone : (list.map f).filterMap (·.compiledUnit?) = [] :=
    List.filterMap_eq_nil_iff.mpr fun event hevent => by
      obtain ⟨a, -, rfl⟩ := List.mem_map.mp hevent
      exact h a
  rw [hnone, List.append_nil]
  rfl

namespace Graph

variable {α : Type} [Element α]

/-- No match records that a unit was compiled. -/
theorem compiledUnits_runWithin (g : Graph α) (input : Array α) (limit depth : Nat) (id : RuleId)
    (start : Nat) :
    compiledUnits ((g.runWithin input limit depth id start).result {}).2.journal = [] := by
  -- A run is compared with itself, so only what it records is at issue.
  let quiet : Run.Comparison :=
    ⟨fun trace _ => compiledUnits trace.journal = [], Eq, fun _ => False⟩
  have hrecords {event : Event} (h : event.compiledUnit? = none) (event' : Event) :
      quiet.Records event event' := by
    intro trace _ htrace
    show compiledUnits (trace.journal.push event) = []
    rw [compiledUnits_push, h, Option.toList_none, List.append_nil]
    exact htrace
  have hmisses (pos pos' : Nat) : quiet.Misses pos pos' := fun _ _ htrace => htrace
  have hsetting : (Correspondence.identical quiet).Setting g g input input :=
    ⟨fun _ => rfl, fun _ => rfl, fun _ => hmisses _ _, hmisses _ _, fun _ _ _ => hrecords rfl _,
      fun _ _ _ _ => hrecords rfl _, fun _ _ _ _ _ _ _ => hrecords rfl _,
      fun _ _ _ _ _ _ _ => hrecords rfl _, fun _ _ _ _ _ _ => hrecords rfl _, fun _ _ _ => rfl,
      fun _ => rfl⟩
  have hgraphs : (Correspondence.identical quiet).Graphs g g input input := by
    refine .self rfl hsetting ?_
    rintro pruning found _ rfl
    rfl
  have hagree := Correspondence.runWithin_agree_of_aborts hgraphs limit limit (fun _ => rfl) depth id
    id rfl start
  have hstart : quiet.traces {} {} := rfl
  exact (hagree.result_eq hstart (fun _ _ h => h) fun _ _ h => h).2

theorem compiledUnits_matchRoot (g : Graph α) (input : Array α) (limit : Nat) :
    compiledUnits (g.matchRoot input limit).2.journal = [] := by
  rw [matchRoot, runRoot]
  cases g.root with
  | none => rfl
  | some root => exact g.compiledUnits_runWithin input limit limit root 0

end Graph

section Compile

variable {α : Type} {terminals : Terminals α}

open Script

/-- What compiling a unit records is that it was compiled, and that at most once. -/
theorem compiledUnits_compile (unit source : String) (limit : Nat) :
    (compiledUnits (compile terminals unit source limit).2).Sublist [unit] := by
  have hscan : compiledUnits (scan source limit).2 = [] := tokenizer.compiledUnits_matchRoot _ limit
  -- The only event that tells of a unit is the one at the end.
  have hfinish (d : Draught α) : (d.finish unit).2.compiledUnit? = some unit := rfl
  rw [compile]
  split
  · rename_i journal heq
    rw [heq] at hscan
    rw [hscan]
    exact List.nil_sublist _
  · rename_i s journal heq
    rw [heq] at hscan
    have hmatch := grammar.compiledUnits_matchRoot s.tokens.kinds limit
    dsimp only
    split
    · rename_i trace htrace
      rw [htrace] at hmatch
      dsimp only
      rw [compiledUnits_push, compiledUnits_append, compiledUnits_map _ _ fun _ => rfl, hscan, hmatch,
        hfinish]
      exact List.Sublist.refl _
    · rename_i outcome trace htrace
      rw [htrace] at hmatch
      dsimp only
      rw [compiledUnits_push, compiledUnits_map _ _ fun _ => rfl, compiledUnits_append,
        compiledUnits_map _ _ fun _ => rfl, hscan, hmatch, hfinish]
      exact List.Sublist.refl _

end Compile

/-! ## Results step by step -/

namespace Including

variable {α β γ : Type}

/-- What a computation comes to from a state. -/
def result (run : Including α β) (state : IncludeState α) :
    Except PipelineError β × IncludeState α :=
  StateT.run (ExceptT.run run) state

variable {run : Including α β} {state after : IncludeState α}

theorem result_bind_ok {value : β} (h : run.result state = (.ok value, after))
    (next : β → Including α γ) : (run >>= next).result state = (next value).result after := by
  unfold result at h ⊢
  simp only [ExceptT.run_bind, StateT.run_bind, h]
  rfl

theorem result_bind_error {error : PipelineError} (h : run.result state = (.error error, after))
    (next : β → Including α γ) : (run >>= next).result state = (.error error, after) := by
  unfold result at h ⊢
  simp only [ExceptT.run_bind, StateT.run_bind, h]
  rfl

theorem result_note (key : String) (graph : Option (Graph α)) (state : IncludeState α) :
    (note key graph).result state =
      (.ok (), { state with units := (key, graph) :: state.units }) := rfl

theorem result_report (ds : List Diagnostic) (state : IncludeState α) :
    (report ds : Including α Unit).result state =
      (.ok (), { state with diagnostics := state.diagnostics ++ ds }) := rfl

theorem result_compileAlone (terminals : Terminals α) (limit : Nat) (source : Source)
    (state : IncludeState α) :
    (compileAlone terminals limit source).result state =
      ((compile terminals source.key source.text limit).1.mapError .compile,
        { state with
          journal := state.journal ++ (compile terminals source.key source.text limit).2 }) := by
  rw [compileAlone]
  rcases compile terminals source.key source.text limit with ⟨failure | compiled, journal⟩
  · rfl
  · rfl

end Including

end RuleScript
