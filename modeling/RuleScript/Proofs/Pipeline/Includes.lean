import RuleScript.Proofs.Pipeline.Including

/-!
# Includes are resolved first come, first served

The result about scripts with includes.  Whatever the sources are and however they include one another,
compiling one of them ends, and goes the one way there is through the sources below it
(`compileSource_firstCome`).  On that way

* no source is compiled twice;
* an include statement is warned about just if it leads to a unit that is open; and
* the graph has the names that the visited units define, each with the definition of the unit that was
  visited first of those that define it.
-/

namespace RuleScript

variable {α : Type}

/-- A graph holds the rules of units, first come, first served: all of them but those with a name that
an earlier unit defines, with what they refer to moved along; and the names lead to those rules. -/
structure FirstCome (vs : List (Visit α)) (graph : Graph α) : Prop where
  wellFormed : graph.WellFormed
  mem_names_iff : ∀ name, name ∈ graph.names ↔ ∃ v ∈ vs, v.defines name
  carries : ∀ v ∈ vs, ∃ place,
    Graph.Carries place (fun name => vs.find? (·.defines name) = some v) v.unit.graph graph

section Includes

variable {loader : Loader} {terminals : Terminals α} {limit : Nat}

theorem MergeOf.firstCome {vs : List (Visit α)} {graph : Graph α}
    (hbase : terminals.base.WellFormed) (h : MergeOf terminals limit vs graph) : FirstCome vs graph :=
  ⟨h.wellFormed hbase, fun _ => h.mem_names_iff, fun _ hv => h.carries hbase hv⟩

/-- Lists have the same members if whatever is looked up in them is found alike. -/
theorem mem_of_find? {β : Type} {first second : List β} {b : β}
    (hfind : ∀ p, first.find? p = second.find? p) (h : b ∈ first) : b ∈ second := by
  classical
  have hsome : (first.find? fun other => decide (other = b)).isSome :=
    List.find?_isSome.mpr ⟨b, h, decide_eq_true rfl⟩
  rw [hfind] at hsome
  obtain ⟨other, hother, heq⟩ := List.find?_isSome.mp hsome
  exact of_decide_eq_true heq ▸ hother

/-- Only where a unit comes first matters for whose definitions count. -/
theorem FirstCome.of_find? {vs ws : List (Visit α)} {graph : Graph α} (h : FirstCome vs graph)
    (hfind : ∀ p, vs.find? p = ws.find? p) : FirstCome ws graph := by
  have hmem (p : Visit α → Bool) : (∃ v ∈ vs, p v) ↔ ∃ v ∈ ws, p v := by
    rw [← List.find?_isSome, ← List.find?_isSome, hfind p]
  refine ⟨h.wellFormed, fun name => (h.mem_names_iff name).trans (hmem _), fun v hv => ?_⟩
  simp only [← hfind]
  exact h.carries v (mem_of_find? (fun p => (hfind p).symm) hv)

/-- At the start the outermost unit has been begun. -/
theorem tracks_start (terminals : Terminals α) (limit : Nat) (key : String) :
    Tracks terminals limit [key] [key] [] ({ units := [(key, none)] } : IncludeState α) := by
  refine ⟨fun other => ?_, fun other => ?_, fun other graph hother => ?_⟩
  · by_cases heq : other = key
    · simp [heq]
    · simp [lookup_cons_of_ne heq, heq]
  · by_cases heq : other = key
    · simp [heq]
    · simp [lookup_cons_of_ne heq, heq]
  · by_cases heq : other = key
    · simp [heq] at hother
    · simp [lookup_cons_of_ne heq] at hother

section Ends

variable {source : Source} {state : IncludeState α}

theorem compileSource_of_error {error : PipelineError}
    (h : (compileNested loader terminals limit loader.keys.length true source).result
      { units := [(source.key, none)] } = (.error error, state)) :
    compileSource loader terminals limit source = (.error error, state.journal) := by
  rw [Including.result] at h
  rw [compileSource]
  dsimp only
  rw [h]

theorem compileSource_of_ok {graph : Graph α}
    (h : (compileNested loader terminals limit loader.keys.length true source).result
      { units := [(source.key, none)] } = (.ok graph, state)) :
    compileSource loader terminals limit source =
      (((CompiledUnit.mk graph [] state.diagnostics).finish source.key).mapError .compile,
        state.journal) := by
  rw [Including.result] at h
  rw [compileSource]
  dsimp only
  rw [h]
  dsimp only
  cases (CompiledUnit.mk graph [] state.diagnostics).finish source.key <;> rfl

end Ends

/-- A compilation with includes goes the way through them, and finishes a graph merged from units that
come first in the same order as the visited ones. -/
theorem compileSource_visits (loader : Loader) (terminals : Terminals α) (limit : Nat)
    (source : Source) :
    ∃ steps error?, Visits loader terminals limit [] [] source steps error? ∧
      (compiledUnits (compileSource loader terminals limit source).2).Sublist (keysOf steps) ∧
      match error? with
      | some error => (compileSource loader terminals limit source).1 = .error error
      | none => ∃ graph order, MergeOf terminals limit order graph ∧
          (∀ p, order.find? p = (visitsOf steps).find? p) ∧
          (compileSource loader terminals limit source).1 =
            ((CompiledUnit.mk graph [] (steps.flatMap (·.diagnostics))).finish
              source.key).mapError .compile := by
  -- The nested compilation takes one walk through the loader, starting with nothing seen.
  have htakes : Takes terminals limit (Visits loader terminals limit [] [] source) [source.key] [] [] []
      _ ((compileNested loader terminals limit loader.keys.length true source).result
        { units := [(source.key, none)] }) :=
    compileNested_takes rfl (List.length_filter_le _ _) (tracks_start terminals limit source.key)
  obtain ⟨steps, error?, hvisits, ⟨hdiagnostics, units, hsub, hjournal⟩, hdelivers, -⟩ := htakes
  refine ⟨steps, error?, hvisits, ?_⟩
  cases error? with
  | some error =>
      rw [compileSource_of_error (Prod.ext hdelivers rfl), hjournal]
      exact ⟨hsub, rfl⟩
  | none =>
      obtain ⟨graph, order, hok, hmerge, -, hfind⟩ := hdelivers
      rw [compileSource_of_ok (Prod.ext hok rfl), hjournal, hdiagnostics]
      exact ⟨hsub, graph, order, hmerge, hfind, rfl⟩

/-- What a source compiles to is merged from the units on the way through it, and nothing is
missing. -/
theorem exists_visits_of_compileSource {source : Source} {compilation : Compilation α}
    (h : (compileSource loader terminals limit source).1 = .ok compilation) :
    ∃ steps vs graph, Visits loader terminals limit [] [] source steps none ∧
      vs ⊆ visitsOf steps ∧ MergeOf terminals limit vs graph ∧ graph.resolve.1 = .ok () ∧
      compilation.graph = graph.link := by
  obtain ⟨steps, error?, hvisits, -, hends⟩ := compileSource_visits loader terminals limit source
  cases error? with
  | some error => exact nomatch h.symm.trans hends
  | none =>
      -- A compilation is there only if no step has failed.
      obtain ⟨graph, order, hmerge, hfind, hfinish⟩ := hends
      rw [hfinish] at h
      cases hdone : (CompiledUnit.mk graph [] (steps.flatMap (·.diagnostics))).finish source.key with
      | error failure =>
          rw [hdone] at h
          cases h
      | ok done =>
          rw [hdone] at h
          obtain rfl : done = compilation := Except.ok.inj h
          obtain ⟨hresolve, -, hgraph⟩ := CompiledUnit.finish_eq_ok hdone
          exact ⟨steps, order, graph, hvisits, fun _ hv => mem_of_find? hfind hv, hmerge, hresolve, hgraph⟩

/-- What a source compiles to is merged from units, and nothing is missing. -/
theorem exists_mergeOf_of_compileSource {source : Source} {compilation : Compilation α}
    (h : (compileSource loader terminals limit source).1 = .ok compilation) :
    ∃ vs graph, MergeOf terminals limit vs graph ∧ graph.resolve.1 = .ok () ∧
      compilation.graph = graph.link := by
  obtain ⟨_, vs, graph, -, -, hmerge⟩ := exists_visits_of_compileSource h
  exact ⟨vs, graph, hmerge⟩

/-- **Includes are resolved first come, first served.**  There is a way through the sources below a
script, and no other (`Visits.unique`); no source is compiled twice on it, and none is on record twice.
The compilation ends with an error if the way does.  Otherwise it finishes a graph that holds the rules
of the visited units, first come, first served, and what is reported is what there is to say about the
units, with a warning for each include statement that leads to an open unit. -/
theorem compileSource_firstCome (hbase : terminals.base.WellFormed) (source : Source) :
    ∃ steps error?, Visits loader terminals limit [] [] source steps error? ∧
      (keysOf steps).Nodup ∧
      (compiledUnits (compileSource loader terminals limit source).2).Sublist (keysOf steps) ∧
      match error? with
      | some error => (compileSource loader terminals limit source).1 = .error error
      | none => ∃ graph, FirstCome (visitsOf steps) graph ∧
          (compileSource loader terminals limit source).1 =
            ((CompiledUnit.mk graph [] (steps.flatMap (·.diagnostics))).finish
              source.key).mapError .compile := by
  obtain ⟨steps, error?, hvisits, hsub, hends⟩ := compileSource_visits loader terminals limit source
  refine ⟨steps, error?, hvisits, (hvisits.keys_fresh List.not_mem_nil).1, hsub, ?_⟩
  cases error? with
  | some error => exact hends
  | none =>
      obtain ⟨graph, order, hmerge, hfind, hfinish⟩ := hends
      exact ⟨graph, (hmerge.firstCome hbase).of_find? hfind, hfinish⟩

/-- Two sources that include each other, and both define the same rule. -/
def mutualIncludes : Loader :=
  .ofTable [("digits", "include 'letters'; one = '1'; sign = '+';"),
    ("letters", "include 'digits'; two = '2'; sign = '-';")]

theorem mutualIncludes_firstCome :
    charTerminals.base.WellFormed ∧
      ∃ steps error?, Visits mutualIncludes charTerminals 100 [] []
          ⟨"all", "all = one | two | sign; include 'letters';"⟩ steps error? ∧
        (keysOf steps).Nodup ∧
        (compiledUnits (compileSource mutualIncludes charTerminals 100
          ⟨"all", "all = one | two | sign; include 'letters';"⟩).2).Sublist (keysOf steps) ∧
        match error? with
        | some error => (compileSource mutualIncludes charTerminals 100
            ⟨"all", "all = one | two | sign; include 'letters';"⟩).1 = .error error
        | none => ∃ graph, FirstCome (visitsOf steps) graph ∧
            (compileSource mutualIncludes charTerminals 100
              ⟨"all", "all = one | two | sign; include 'letters';"⟩).1 =
              ((CompiledUnit.mk graph [] (steps.flatMap (·.diagnostics))).finish "all").mapError
                .compile :=
  ⟨Graph.empty_wellFormed, compileSource_firstCome Graph.empty_wellFormed _⟩

end Includes

end RuleScript
