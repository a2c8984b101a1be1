import RuleScript.Proofs.Pipeline.Merges
import RuleScript.Proofs.Pipeline.Recording

/-!
# Compiling a unit goes the way through its includes

`compileNested` runs on a number of levels that sources may be nested, and looks up in a table which
sources it has seen.  Here it is shown to go the way of `Visits`, which knows neither: every new source
is one key fewer that has not been seen, so levels never run out as long as there are no fewer of them
than such keys (`compileNested_takes`).

What is known of the table is in `Tracks`: a unit that is open has no graph yet, and one that is
complete has a graph that was merged from units visited before.  What a computation leaves is told by
`Reports` and `Delivers`.  The latter has the order in which a graph was merged, where units may come up
again; in front of units visited before, that order is as good as the order of the visits.  An include
statement leads to a unit that is open, complete or new, with a lemma for each (`FollowsAll.cons_open`,
`FollowsAll.cons_complete`, `FollowsAll.cons_new`).
-/

namespace RuleScript

variable {α : Type}

/-! ## What is known on the way -/

section Invariants

variable (terminals : Terminals α) (limit : Nat)

/-- In a state the units of the chain are open, the sources with certain keys have been seen, and
those that are complete were merged from certain units. -/
structure Tracks (chain seen : List String) (vs : List (Visit α)) (state : IncludeState α) :
    Prop where
  isOpen : ∀ key, state.units.lookup key = some none ↔ key ∈ chain
  isSeen : ∀ key, (state.units.lookup key).isSome ↔ key ∈ seen
  complete : ∀ key graph, state.units.lookup key = some (some graph) →
    ∃ order, MergeOf terminals limit order graph ∧ order ⊆ vs

/-- What there was to say about steps has been reported, and each source that was compiled on the way
is on record once at most. -/
structure Reports (steps : List (Step α)) (state state' : IncludeState α) : Prop where
  diagnostics : state'.diagnostics = state.diagnostics ++ steps.flatMap (·.diagnostics)
  journal : ∃ units, units.Sublist (keysOf steps) ∧
    compiledUnits state'.journal = compiledUnits state.journal ++ units

/-- A way that ended early comes to its error.  Any other leads from a graph that was merged of some
units `before` to one that more were merged into; and to ask which unit comes first, of those visited
before and of these, one may as well ask it of the visits in their order. -/
def Delivers (before vs : List (Visit α)) (steps : List (Step α)) (error? : Option PipelineError)
    (result : Except PipelineError (Graph α)) : Prop :=
  match error? with
  | some error => result = .error error
  | none => ∃ graph more, result = .ok graph ∧ MergeOf terminals limit (before ++ more) graph ∧
      more ⊆ vs ++ visitsOf steps ∧ ∀ p, (vs ++ more).find? p = (vs ++ visitsOf steps).find? p

end Invariants

section Invariants

variable {terminals : Terminals α} {limit : Nat} {chain seen : List String} {vs : List (Visit α)}
variable {state state' state'' : IncludeState α} {steps steps' : List (Step α)}

theorem lookup_cons_of_ne {β : Type} {key other : String} (h : other ≠ key) (value : β)
    (list : List (String × β)) : List.lookup other ((key, value) :: list) = list.lookup other := by
  rw [List.lookup_cons, beq_false_of_ne h]

namespace Tracks

theorem chain_subset (h : Tracks terminals limit chain seen vs state) : chain ⊆ seen := by
  intro key hkey
  rw [← h.isSeen, (h.isOpen key).mpr hkey, Option.isSome_some]

theorem of_seen (h : Tracks terminals limit chain seen vs state) {seen' : List String}
    (hseen : ∀ key, key ∈ seen' ↔ key ∈ seen) : Tracks terminals limit chain seen' vs state :=
  ⟨h.isOpen, fun key => (h.isSeen key).trans (hseen key).symm, h.complete⟩

theorem of_units (h : Tracks terminals limit chain seen vs state)
    (hunits : state'.units = state.units) : Tracks terminals limit chain seen vs state' := by
  obtain ⟨hopen, hseen, hcomplete⟩ := h
  rw [← hunits] at hopen hseen hcomplete
  exact ⟨hopen, hseen, hcomplete⟩

theorem mono (h : Tracks terminals limit chain seen vs state) {ws : List (Visit α)} (hvs : vs ⊆ ws) :
    Tracks terminals limit chain seen ws state := by
  refine ⟨h.isOpen, h.isSeen, fun key graph hkey => ?_⟩
  obtain ⟨order, hmerge, horder⟩ := h.complete key graph hkey
  exact ⟨order, hmerge, List.Subset.trans horder hvs⟩

/-- A new source is begun. -/
theorem begun (h : Tracks terminals limit chain seen vs state) (key : String) :
    Tracks terminals limit (key :: chain) (key :: seen) vs
      { state with units := (key, none) :: state.units } := by
  refine ⟨fun other => ?_, fun other => ?_, fun other graph hother => ?_⟩
  · by_cases heq : other = key
    · simp [heq]
    · rw [lookup_cons_of_ne heq, h.isOpen, List.mem_cons, or_iff_right heq]
  · by_cases heq : other = key
    · simp [heq]
    · rw [lookup_cons_of_ne heq, h.isSeen, List.mem_cons, or_iff_right heq]
  · by_cases heq : other = key
    · simp [heq] at hother
    · rw [lookup_cons_of_ne heq] at hother
      exact h.complete other graph hother

/-- The innermost unit is complete. -/
theorem closed {key : String} (h : Tracks terminals limit (key :: chain) seen vs state)
    (hkey : key ∉ chain) {graph : Graph α} {order : List (Visit α)}
    (hmerge : MergeOf terminals limit order graph) (horder : order ⊆ vs) :
    Tracks terminals limit chain seen vs
      { state with units := (key, some graph) :: state.units } := by
  refine ⟨fun other => ?_, fun other => ?_, fun other graph' hother => ?_⟩
  · by_cases heq : other = key
    · simp [heq, hkey]
    · rw [lookup_cons_of_ne heq, h.isOpen, List.mem_cons, or_iff_right heq]
  · by_cases heq : other = key
    · simpa [heq] using h.chain_subset List.mem_cons_self
    · rw [lookup_cons_of_ne heq, h.isSeen]
  · by_cases heq : other = key
    · obtain rfl : graph = graph' := by simpa [heq] using hother
      exact ⟨order, hmerge, horder⟩
    · rw [lookup_cons_of_ne heq] at hother
      exact h.complete other graph' hother

end Tracks

namespace Reports

theorem quiet (hdiagnostics : state'.diagnostics = state.diagnostics ++ steps.flatMap (·.diagnostics))
    (hjournal : compiledUnits state'.journal = compiledUnits state.journal) :
    Reports steps state state' :=
  ⟨hdiagnostics, [], List.nil_sublist _, hjournal.trans (List.append_nil _).symm⟩

theorem refl (state : IncludeState α) : Reports [] state state :=
  .quiet (List.append_nil _).symm rfl

theorem trans (h : Reports steps state state') (h' : Reports steps' state' state'') :
    Reports (steps ++ steps') state state'' := by
  obtain ⟨units, hsub, hunits⟩ := h.journal
  obtain ⟨units', hsub', hunits'⟩ := h'.journal
  refine ⟨?_, units ++ units', ?_, ?_⟩
  · rw [h'.diagnostics, h.diagnostics, List.flatMap_append, List.append_assoc]
  · rw [keysOf, List.filterMap_append]
    exact hsub.append hsub'
  · rw [hunits', hunits, List.append_assoc]

theorem of_quiet (h : Reports steps state state')
    (hdiagnostics : state''.diagnostics = state'.diagnostics)
    (hjournal : compiledUnits state''.journal = compiledUnits state'.journal) :
    Reports steps state state'' := by
  obtain ⟨units, hsub, hunits⟩ := h.journal
  exact ⟨hdiagnostics.trans h.diagnostics, units, hsub, hjournal.trans hunits⟩

end Reports

theorem visitsOf_append (steps steps' : List (Step α)) :
    visitsOf (steps ++ steps') = visitsOf steps ++ visitsOf steps' := List.filterMap_append

theorem keysOf_append (steps steps' : List (Step α)) :
    keysOf (steps ++ steps') = keysOf steps ++ keysOf steps' := List.filterMap_append

/-- What comes up again is not found first. -/
theorem find?_append_of_subset {β : Type} {first second : List β} (h : second ⊆ first)
    (p : β → Bool) : (first ++ second).find? p = first.find? p := by
  rw [List.find?_append]
  cases hfirst : first.find? p with
  | some a => rfl
  | none =>
      rw [Option.none_or, List.find?_eq_none]
      exact fun a ha => List.find?_eq_none.mp hfirst a (h ha)

end Invariants

section Results

open Including

variable {loader : Loader} {terminals : Terminals α} {limit : Nat}
variable {nested : Option (Source → Including α (Graph α))} {unit : String} {i : Include}
variable {rest : List Include} {source : Source} {graph : Graph α} {state : IncludeState α}

/-- What an include statement comes to depends on what is known of the source it leads to. -/
theorem result_mergeIncludes_cons (hload : loader.load i.path = .ok source) :
    (mergeIncludes loader nested unit (i :: rest) graph).result state =
      (match state.units.lookup source.key, nested with
        | some (some included), _ => do
          let (_, merged) ← mergeInto graph included
          mergeIncludes loader nested unit rest merged
        | none, some compileNested => do
          note source.key none
          let included ← compileNested source
          let (report, merged) ← mergeInto graph included
          record (.included source.key unit report.added report.shadowed.length)
          note source.key (some included)
          mergeIncludes loader nested unit rest merged
        | _, _ => do
          record (.circularInclude i.path unit)
          report [⟨.warning, s!"circular include of '{i.path}' skipped", i.location⟩]
          mergeIncludes loader nested unit rest graph : Including α (Graph α)).result state := by
  rw [mergeIncludes, hload]
  rfl

theorem result_mergeIncludes_error {error : PipelineError} (hload : loader.load i.path = .error error) :
    (mergeIncludes loader nested unit (i :: rest) graph).result state = (.error error, state) := by
  rw [mergeIncludes, hload]
  rfl

/-- The state after a graph was merged. -/
def IncludeState.merging (state : IncludeState α) (graph included : Graph α) : IncludeState α :=
  { state with journal := state.journal.push (graph.merge included).1.event }

theorem Reports.merging {steps : List (Step α)} {state' : IncludeState α}
    (h : Reports steps state state') (graph included : Graph α) :
    Reports steps state (state'.merging graph included) :=
  h.of_quiet rfl ((compiledUnits_push _ _).trans (List.append_nil _))

theorem result_mergeIncludes_complete {included : Graph α} (hload : loader.load i.path = .ok source)
    (hlookup : state.units.lookup source.key = some (some included)) :
    (mergeIncludes loader nested unit (i :: rest) graph).result state =
      (mergeIncludes loader nested unit rest (graph.merge included).2).result
        (state.merging graph included) := by
  rw [result_mergeIncludes_cons hload, hlookup]
  rfl

/-- The state after an include statement was skipped. -/
def IncludeState.skipping (state : IncludeState α) (i : Include) (unit : String) : IncludeState α :=
  { state with
    journal := state.journal.push (.circularInclude i.path unit)
    diagnostics := state.diagnostics ++
      [⟨.warning, s!"circular include of '{i.path}' skipped", i.location⟩] }

theorem IncludeState.reports_skipping {chain : List String} {key : String} (state : IncludeState α)
    (i : Include) (unit : String) (hopen : key ∈ chain) :
    Reports [.included chain i key] state (state.skipping i unit) := by
  refine .quiet ?_ ((compiledUnits_push _ _).trans (List.append_nil _))
  rw [List.flatMap_singleton, Step.diagnostics, if_pos hopen]
  rfl

theorem result_mergeIncludes_open (hload : loader.load i.path = .ok source)
    (hlookup : state.units.lookup source.key = some none) :
    (mergeIncludes loader nested unit (i :: rest) graph).result state =
      (mergeIncludes loader nested unit rest graph).result (state.skipping i unit) := by
  rw [result_mergeIncludes_cons hload, hlookup]
  rfl

theorem result_mergeIncludes_stopped {compileNested : Source → Including α (Graph α)}
    {error : PipelineError} {after : IncludeState α} (hload : loader.load i.path = .ok source)
    (hlookup : state.units.lookup source.key = none) (hnested : nested = some compileNested)
    (h : (compileNested source).result { state with units := (source.key, none) :: state.units } =
      (.error error, after)) :
    (mergeIncludes loader nested unit (i :: rest) graph).result state = (.error error, after) := by
  rw [result_mergeIncludes_cons hload, hlookup, hnested]
  dsimp only
  rw [result_bind_ok (result_note _ _ _), result_bind_error h]

/-- The state after a new source was included. -/
def IncludeState.including (state : IncludeState α) (key unit : String) (graph included : Graph α) :
    IncludeState α :=
  { state with
    units := (key, some included) :: state.units
    journal := (state.journal.push (graph.merge included).1.event).push
      (.included key unit (graph.merge included).1.added (graph.merge included).1.shadowed.length) }

theorem Reports.including {steps : List (Step α)} {state' : IncludeState α}
    (h : Reports steps state state') (key unit : String) (graph included : Graph α) :
    Reports steps state (state'.including key unit graph included) := by
  refine h.of_quiet rfl ?_
  rw [IncludeState.including, compiledUnits_push, compiledUnits_push]
  exact (List.append_nil _).trans (List.append_nil _)

/-- An include statement whose target is new. -/
theorem result_mergeIncludes_new {compileNested : Source → Including α (Graph α)}
    {included : Graph α} {after : IncludeState α} (hload : loader.load i.path = .ok source)
    (hlookup : state.units.lookup source.key = none) (hnested : nested = some compileNested)
    (h : (compileNested source).result { state with units := (source.key, none) :: state.units } =
      (.ok included, after)) :
    (mergeIncludes loader nested unit (i :: rest) graph).result state =
      (mergeIncludes loader nested unit rest (graph.merge included).2).result
        (after.including source.key unit graph included) := by
  rw [result_mergeIncludes_cons hload, hlookup, hnested]
  dsimp only
  rw [result_bind_ok (result_note _ _ _), result_bind_ok h]
  rfl

/-- Coming to an include statement is not reported, unless what it leads to is open. -/
theorem reports_included {chain : List String} {key : String} {state' : IncludeState α} (i : Include)
    (hclosed : key ∉ chain) (hdiagnostics : state'.diagnostics = state.diagnostics)
    (hjournal : state'.journal = state.journal) :
    Reports [.included chain i key] state state' := by
  refine .quiet ?_ (congrArg compiledUnits hjournal)
  rw [hdiagnostics, List.flatMap_singleton, Step.diagnostics, if_neg hclosed, List.append_nil]

end Results

/-! ## Along the way -/

section Takes

variable (terminals : Terminals α) (limit : Nat)

/-- A computation took a way: it reported and delivered what goes with it, and unless it ended early it
has left certain units open. -/
def Takes (way : List (Step α) → Option PipelineError → Prop) (chain seen : List String)
    (before vs : List (Visit α)) (state : IncludeState α)
    (ended : Except PipelineError (Graph α) × IncludeState α) : Prop :=
  ∃ steps error?, way steps error? ∧ Reports steps state ended.2 ∧
    Delivers terminals limit before vs steps error? ended.1 ∧
    (error? = none →
      Tracks terminals limit chain (keysOf steps ++ seen) (vs ++ visitsOf steps) ended.2)

end Takes

section Takes

variable {terminals : Terminals α} {limit : Nat} {chain seen : List String}
variable {before order vs : List (Visit α)} {state state' : IncludeState α}

/-- What is left of a way is taken after some steps, on which one more graph was merged. -/
theorem Takes.after {way way' : List (Step α) → Option PipelineError → Prop}
    {ended : Except PipelineError (Graph α) × IncludeState α} {steps : List (Step α)}
    (hway : ∀ steps' error?, way' steps' error? → way (steps ++ steps') error?)
    (hreports : Reports steps state state') (horder : order ⊆ vs ++ visitsOf steps)
    (hfind : ∀ p, (vs ++ order).find? p = (vs ++ visitsOf steps).find? p)
    (h : Takes terminals limit way' chain (keysOf steps ++ seen) (before ++ order)
      (vs ++ visitsOf steps) state' ended) :
    Takes terminals limit way chain seen before vs state ended := by
  obtain ⟨steps', error?, hsteps', hreports', hdelivers, htracks⟩ := h
  refine ⟨steps ++ steps', error?, hway _ _ hsteps', hreports.trans hreports', ?_, fun hnone => ?_⟩
  · cases error? with
    | some error => exact hdelivers
    | none =>
        obtain ⟨graph, more, hresult, hmerge, hmore, hfind'⟩ := hdelivers
        rw [List.append_assoc] at hmerge
        rw [Delivers, visitsOf_append, ← List.append_assoc]
        refine ⟨graph, order ++ more, hresult, hmerge, ?_, fun p => ?_⟩
        · -- What is merged first stays first, also in front of what the later steps add.
          exact List.append_subset.mpr ⟨List.subset_append_of_subset_left _ horder, hmore⟩
        · rw [← hfind' p, ← List.append_assoc, List.find?_append, hfind p, ← List.find?_append]
  · have htracks := htracks hnone
    rw [List.append_assoc, ← visitsOf_append] at htracks
    refine htracks.of_seen fun key => ?_
    simp only [keysOf_append, List.mem_append]
    tauto

end Takes

section Follows

variable (loader : Loader) (terminals : Terminals α) (limit : Nat)
variable (nested : Option (Source → Including α (Graph α))) (unit : String) (chain start : List String)

/-- Each new source is compiled with all below it, when at least the sources in `start` have been seen. -/
def VisitsNew : Prop :=
  ∀ (source : Source) seen vs state, source.key ∈ loader.keys → source.key ∉ seen → start ⊆ seen →
    Tracks terminals limit (source.key :: chain) (source.key :: seen) vs state →
    ∃ compileNested, nested = some compileNested ∧
      Takes terminals limit (Visits loader terminals limit chain seen source)
        (source.key :: chain) seen [] vs state ((compileNested source).result state)

/-- Include statements of a unit are followed, whatever else than `start` has been seen. -/
def FollowsAll (includes : List Include) : Prop :=
  ∀ seen before vs graph state, start ⊆ seen → Tracks terminals limit chain seen vs state →
    MergeOf terminals limit before graph →
    Takes terminals limit (Follows loader terminals limit chain seen includes) chain seen before vs
      state ((mergeIncludes loader nested unit includes graph).result state)

end Follows

section Follows

variable {loader : Loader} {terminals : Terminals α} {limit : Nat} {chain seen start : List String}
variable {nested : Option (Source → Including α (Graph α))} {unit : String} {source : Source}
variable {before vs : List (Visit α)} {graph : Graph α} {state : IncludeState α}
variable {i : Include} {rest : List Include}

theorem followsAll_nil : FollowsAll loader terminals limit nested unit chain start [] := by
  intro seen before vs graph state _ htracks hgraph
  refine ⟨[], none, .done, .refl state, ⟨graph, [], rfl, ?_, List.nil_subset _, fun _ => rfl⟩,
    fun _ => htracks.mono (List.subset_append_left vs [])⟩
  rwa [List.append_nil]

/-- An include statement that leads to an open unit is passed over. -/
theorem FollowsAll.cons_open (h : FollowsAll loader terminals limit nested unit chain start rest)
    (hload : loader.load i.path = .ok source)
    (hlookup : state.units.lookup source.key = some none) (hstart : start ⊆ seen)
    (htracks : Tracks terminals limit chain seen vs state)
    (hgraph : MergeOf terminals limit before graph) :
    Takes terminals limit (Follows loader terminals limit chain seen (i :: rest)) chain seen before vs
      state ((mergeIncludes loader nested unit (i :: rest) graph).result state) := by
  have hopen : source.key ∈ chain := (htracks.isOpen _).mp hlookup
  have htracks' : Tracks terminals limit chain seen (vs ++ []) (state.skipping i unit) :=
    (htracks.mono (List.subset_append_left vs [])).of_units rfl
  rw [result_mergeIncludes_open hload hlookup]
  exact Takes.after (fun _ _ hrest => .passed hload (htracks.chain_subset hopen) hrest)
    (state.reports_skipping i unit hopen) (List.nil_subset _) (fun _ => rfl)
    (h seen _ _ _ _ hstart htracks' ((List.append_nil before).symm ▸ hgraph))

/-- An include statement that leads to a complete unit has its graph merged.  What was merged before is
merged again, which changes nothing of what comes first. -/
theorem FollowsAll.cons_complete {included : Graph α}
    (h : FollowsAll loader terminals limit nested unit chain start rest)
    (hload : loader.load i.path = .ok source)
    (hlookup : state.units.lookup source.key = some (some included)) (hstart : start ⊆ seen)
    (htracks : Tracks terminals limit chain seen vs state)
    (hgraph : MergeOf terminals limit before graph) :
    Takes terminals limit (Follows loader terminals limit chain seen (i :: rest)) chain seen before vs
      state ((mergeIncludes loader nested unit (i :: rest) graph).result state) := by
  have hseen : source.key ∈ seen := by
    rw [← htracks.isSeen, hlookup]
    rfl
  -- A unit that is complete is not open any more.
  have hclosed : source.key ∉ chain := fun hchain =>
    nomatch hlookup.symm.trans ((htracks.isOpen _).mpr hchain)
  obtain ⟨order, hmerge, horder⟩ := htracks.complete _ _ hlookup
  have htracks' : Tracks terminals limit chain seen (vs ++ []) (state.merging graph included) :=
    (htracks.mono (List.subset_append_left vs [])).of_units rfl
  have hcomes : Reports [.included chain i source.key] state state :=
    reports_included i hclosed rfl rfl
  rw [result_mergeIncludes_complete hload hlookup]
  refine Takes.after (fun _ _ hrest => .passed hload hseen hrest) (hcomes.merging _ _)
    (List.subset_append_of_subset_left _ horder) (fun p => ?_)
    (h seen _ _ _ _ hstart htracks' (hgraph.merge hmerge))
  rw [find?_append_of_subset horder]
  exact congrArg _ (List.append_nil vs).symm

/-- An include statement that leads to a new source has it compiled with all below it. -/
theorem FollowsAll.cons_new (h : FollowsAll loader terminals limit nested unit chain start rest)
    (hnested : VisitsNew loader terminals limit nested chain start)
    (hload : loader.load i.path = .ok source) (hlookup : state.units.lookup source.key = none)
    (hstart : start ⊆ seen) (htracks : Tracks terminals limit chain seen vs state)
    (hgraph : MergeOf terminals limit before graph) :
    Takes terminals limit (Follows loader terminals limit chain seen (i :: rest)) chain seen before vs
      state ((mergeIncludes loader nested unit (i :: rest) graph).result state) := by
  have hnew : source.key ∉ seen := by
    rw [← htracks.isSeen, hlookup]
    exact Bool.false_ne_true
  have hclosed : source.key ∉ chain := fun hchain => hnew (htracks.chain_subset hchain)
  -- The unit is compiled first, with its own includes.
  obtain ⟨compileNested, hsome, steps, error?, hvisits, hreports, hdelivers, hafter⟩ :=
    hnested source seen vs _ (loader.key_mem hload) hnew hstart (htracks.begun source.key)
  have hbegins : Reports [.included chain i source.key] state
      { state with units := (source.key, none) :: state.units } :=
    reports_included i hclosed rfl rfl
  cases error? with
  -- Its error ends the walk.
  | some error =>
      rw [result_mergeIncludes_stopped hload hlookup hsome (Prod.ext hdelivers rfl)]
      exact ⟨_, some error, .stopped hload hnew hvisits, hbegins.trans hreports, rfl,
        fun h => (Option.some_ne_none _ h).elim⟩
  | none =>
      obtain ⟨included, order, hok, hmerge, horder, hfind⟩ := hdelivers
      -- It is closed then, and merged into what was there before.
      have htracks' : Tracks terminals limit chain (keysOf steps ++ seen) (vs ++ visitsOf steps)
          (((compileNested source).result _).2.including source.key unit graph included) :=
        ((hafter rfl).closed hclosed hmerge horder).of_units rfl
      have hmerged : MergeOf terminals limit (before ++ order) (graph.merge included).2 :=
        hgraph.merge hmerge
      rw [result_mergeIncludes_new hload hlookup hsome (Prod.ext hok rfl)]
      refine Takes.after ?_ ((hbegins.trans hreports).including _ _ _ _) horder hfind
        (h _ _ _ _ _ (List.subset_append_of_subset_right _ hstart) htracks' hmerged)
      exact fun _ _ hrest => .visited hload hnew hvisits hrest

/-- **The include statements of a unit are followed in order**, when each new source that they lead to
is compiled with all below it. -/
theorem mergeIncludes_takes (hnested : VisitsNew loader terminals limit nested chain start)
    (includes : List Include) : FollowsAll loader terminals limit nested unit chain start includes := by
  induction includes with
  | nil => exact followsAll_nil
  | cons i rest ih =>
      intro seen before vs graph state hstart htracks hgraph
      cases hload : loader.load i.path with
      | error error =>
          rw [result_mergeIncludes_error hload]
          exact ⟨[], some error, .notFound hload, .refl state, rfl, fun h => (Option.some_ne_none _ h).elim⟩
      | ok source =>
          rcases hlookup : state.units.lookup source.key with _ | _ | included
          · exact ih.cons_new hnested hload hlookup hstart htracks hgraph
          · exact ih.cons_open hload hlookup hstart htracks hgraph
          · exact ih.cons_complete hload hlookup hstart htracks hgraph

end Follows

/-! ## Levels never run out -/

section Below

variable (loader : Loader) (terminals : Terminals α) (limit : Nat)

/-- What compiles new sources below a unit, if there are levels left. -/
def compileBelow : (levels : Nat) → Option (Source → Including α (Graph α))
  | 0 => none
  | levels + 1 => some (compileNested loader terminals limit levels false)

theorem compileNested_eq (levels : Nat) (isTop : Bool) (source : Source) :
    compileNested loader terminals limit levels isTop source = (do
      let compiled ← Including.compileAlone terminals limit source
      Including.report (if isTop then compiled.diagnostics
        else compiled.diagnostics.map (·.within source.key))
      mergeIncludes loader (compileBelow loader terminals limit levels) source.key compiled.includes
        compiled.graph) := by
  cases levels <;> rfl

end Below

section Nested

variable {loader : Loader} {terminals : Terminals α} {limit levels : Nat} {isTop : Bool}
variable {source : Source} {chain seen : List String} {vs : List (Visit α)} {state : IncludeState α}

/-- The state after a source was compiled by itself. -/
def IncludeState.compiling (state : IncludeState α) (terminals : Terminals α) (limit : Nat)
    (source : Source) (diagnostics : List Diagnostic) : IncludeState α :=
  { state with
    diagnostics := state.diagnostics ++ diagnostics
    journal := state.journal ++ (compile terminals source.key source.text limit).2 }

theorem IncludeState.reports_compiling (state : IncludeState α)
    (result : Except CompileFailure (CompiledUnit α)) :
    Reports [.compiled chain source result] state
      (state.compiling terminals limit source (Step.compiled chain source result).diagnostics) := by
  have hunit :
      (compiledUnits (compile terminals source.key source.text limit).2).Sublist [source.key] :=
    compiledUnits_compile source.key source.text limit
  refine ⟨?_, _, hunit, ?_⟩
  · rw [compiling, List.flatMap_singleton]
  · rw [compiling, compiledUnits_append]

theorem result_compileNested_error {failure : CompileFailure}
    (hcompile : (compile terminals source.key source.text limit).1 = .error failure) :
    (compileNested loader terminals limit levels isTop source).result state =
      (.error (.compile failure), state.compiling terminals limit source []) := by
  have halone := Including.result_compileAlone terminals limit source state
  rw [hcompile] at halone
  rw [compileNested_eq, Including.result_bind_error halone, IncludeState.compiling, List.append_nil]

/-- A source that compiles. -/
theorem result_compileNested_ok {unit : CompiledUnit α} (htop : isTop = chain.isEmpty)
    (hcompile : (compile terminals source.key source.text limit).1 = .ok unit) :
    (compileNested loader terminals limit levels isTop source).result state =
      (mergeIncludes loader (compileBelow loader terminals limit levels) source.key unit.includes
        unit.graph).result (state.compiling terminals limit source
          (Step.compiled chain source (.ok unit)).diagnostics) := by
  have halone := Including.result_compileAlone terminals limit source state
  rw [hcompile] at halone
  rw [compileNested_eq, Including.result_bind_ok halone,
    Including.result_bind_ok (Including.result_report _ _), htop]
  rfl

/-- One key fewer has not been seen as soon as a source with one of the keys is begun. -/
theorem length_filter_unseen_lt {keys start : List String} {key : String} (hkey : key ∈ keys)
    (hnew : key ∉ seen) (hstart : start ⊆ seen) :
    (keys.filter (· ∉ key :: seen)).length < (keys.filter (· ∉ start)).length := by
  have hagain : keys.filter (· ∉ key :: seen) =
      (keys.filter (· ∉ start)).filter (· ∉ key :: seen) := by
    rw [List.filter_filter]
    refine List.filter_congr fun other _ => ?_
    by_cases hother : other ∈ start
    · simp [hother, hstart hother]
    · simp [hother]
  rw [hagain, List.length_filter_lt_length_iff_exists]
  refine ⟨key, List.mem_filter.mpr ⟨hkey, ?_⟩, by simp⟩
  exact decide_eq_true fun hmem => hnew (hstart hmem)

/-- A source is compiled with all below it, if each new source is that its includes lead to. -/
theorem compileNested_takes_of_below (htop : isTop = chain.isEmpty)
    (htracks : Tracks terminals limit (source.key :: chain) (source.key :: seen) vs state)
    (hbelow : VisitsNew loader terminals limit (compileBelow loader terminals limit levels)
      (source.key :: chain) (source.key :: seen)) :
    Takes terminals limit (Visits loader terminals limit chain seen source) (source.key :: chain) seen
      [] vs state ((compileNested loader terminals limit levels isTop source).result state) := by
  cases hcompile : (compile terminals source.key source.text limit).1 with
  | error failure =>
      rw [result_compileNested_error hcompile]
      exact ⟨_, _, .failure hcompile, state.reports_compiling (.error failure), rfl,
        fun h => (Option.some_ne_none _ h).elim⟩
  | ok unit =>
      have htracks' : Tracks terminals limit (source.key :: chain) (source.key :: seen)
          (vs ++ [⟨source.key, unit⟩]) (state.compiling terminals limit source
            (Step.compiled chain source (.ok unit)).diagnostics) :=
        (htracks.mono (List.subset_append_left _ _)).of_units rfl
      rw [result_compileNested_ok htop hcompile]
      -- The unit comes first, and its includes are followed with it already there.
      refine Takes.after ?_ (state.reports_compiling (.ok unit)) (List.subset_append_right _ _)
        (fun _ => rfl) (mergeIncludes_takes hbelow unit.includes _ _ _ _ _ (List.Subset.refl _)
          htracks' (.unit hcompile))
      exact fun _ _ hfollows => .unit hcompile hfollows

/-- **A source is compiled with all below it**, when there are no fewer levels than keys that have not
been seen. -/
theorem compileNested_takes (htop : isTop = chain.isEmpty)
    (hlevels : (loader.keys.filter (· ∉ source.key :: seen)).length ≤ levels)
    (htracks : Tracks terminals limit (source.key :: chain) (source.key :: seen) vs state) :
    Takes terminals limit (Visits loader terminals limit chain seen source) (source.key :: chain) seen
      [] vs state ((compileNested loader terminals limit levels isTop source).result state) := by
  induction levels generalizing chain seen vs state isTop source with
  | zero =>
      refine compileNested_takes_of_below htop htracks fun other seen' _ _ hkey hnew hstart _ => ?_
      exact absurd (Nat.lt_of_lt_of_le (length_filter_unseen_lt hkey hnew hstart) hlevels)
        (Nat.not_lt_zero _)
  | succ levels ih =>
      refine compileNested_takes_of_below htop htracks fun other seen' _ _ hkey hnew hstart htracks' =>
        ⟨_, rfl, ih rfl ?_ htracks'⟩
      exact Nat.le_of_lt_succ (Nat.lt_of_lt_of_le (length_filter_unseen_lt hkey hnew hstart) hlevels)

end Nested

end RuleScript
