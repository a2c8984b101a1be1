import Mathlib.Data.List.Nodup
import RuleScript.Pipeline.Include

/-!
# The way through includes

How the sources below a script are come to, told without a bound on how deep they are nested: a
source is compiled and its include statements are followed in order; one that leads to a source seen
before is passed over, and any other leads to that source, which is visited in the same way
(`Visits`, `Follows`).  The way is a list of steps.  It says which sources were compiled in which
order, and of each include statement what it led to and which units were open then.

There is one way at most (`Visits.unique`), and on it no source is compiled twice
(`Visits.keys_fresh`).
-/

namespace RuleScript

/-- A source that compiled, and what it compiled to. -/
structure Visit (α : Type) where
  key : String
  unit : CompiledUnit α

/-- What happens on the way through includes.  The chain are the units that are open, the innermost
first. -/
inductive Step (α : Type) where
  /-- A source was compiled. -/
  | compiled (chain : List String) (source : Source)
      (result : Except CompileFailure (CompiledUnit α))
  /-- An include statement of the innermost unit was come to, which leads to the source with a key. -/
  | included (chain : List String) (i : Include) (key : String)

namespace Step

variable {α : Type}

/-- The key of a source that was compiled. -/
def key? : Step α → Option String
  | compiled _ source _ => some source.key
  | included .. => none

/-- A source that was compiled and that there was nothing wrong with. -/
def visit? : Step α → Option (Visit α)
  | compiled _ source (.ok unit) => some ⟨source.key, unit⟩
  | _ => none

/-- What is reported of a step: what there is to say about a unit that compiles, under its name unless
it is the outermost one, and a warning where an include statement leads to a unit that is open. -/
def diagnostics : Step α → List Diagnostic
  | compiled chain source (.ok unit) =>
    if chain.isEmpty then unit.diagnostics else unit.diagnostics.map (·.within source.key)
  | compiled _ _ (.error _) => []
  | included chain i key =>
    if key ∈ chain then [⟨.warning, s!"circular include of '{i.path}' skipped", i.location⟩] else []

end Step

section Steps

variable {α : Type} (steps : List (Step α))

/-- The keys of the sources that were compiled, in order. -/
def keysOf : List String := steps.filterMap (·.key?)

/-- The units that compiled, in order. -/
def visitsOf : List (Visit α) := steps.filterMap (·.visit?)

end Steps

section Ways

variable {α : Type} (loader : Loader) (terminals : Terminals α) (limit : Nat)

mutual

/-- The way through a source and all below it, from where some units are open and some sources have
been seen.  It ends early if there is an error. -/
inductive Visits : (chain seen : List String) → Source → List (Step α) → Option PipelineError → Prop
  | failure {chain seen : List String} {source : Source} {failure : CompileFailure}
      (h : (compile terminals source.key source.text limit).1 = .error failure) :
      Visits chain seen source [.compiled chain source (.error failure)] (some (.compile failure))
  | unit {chain seen : List String} {source : Source} {unit : CompiledUnit α} {steps : List (Step α)}
      {error? : Option PipelineError}
      (h : (compile terminals source.key source.text limit).1 = .ok unit)
      (hfollows : Follows (source.key :: chain) (source.key :: seen) unit.includes steps error?) :
      Visits chain seen source (.compiled chain source (.ok unit) :: steps) error?

/-- The way along the include statements of the innermost unit. -/
inductive Follows : (chain seen : List String) → List Include → List (Step α) →
    Option PipelineError → Prop
  | done {chain seen : List String} : Follows chain seen [] [] none
  | notFound {chain seen : List String} {i : Include} {rest : List Include} {error : PipelineError}
      (h : loader.load i.path = .error error) : Follows chain seen (i :: rest) [] (some error)
  | passed {chain seen : List String} {i : Include} {rest : List Include} {source : Source}
      {steps : List (Step α)} {error? : Option PipelineError}
      (hload : loader.load i.path = .ok source) (hseen : source.key ∈ seen)
      (hrest : Follows chain seen rest steps error?) :
      Follows chain seen (i :: rest) (.included chain i source.key :: steps) error?
  | stopped {chain seen : List String} {i : Include} {rest : List Include} {source : Source}
      {steps : List (Step α)} {error : PipelineError}
      (hload : loader.load i.path = .ok source) (hseen : source.key ∉ seen)
      (hvisits : Visits chain seen source steps (some error)) :
      Follows chain seen (i :: rest) (.included chain i source.key :: steps) (some error)
  | visited {chain seen : List String} {i : Include} {rest : List Include} {source : Source}
      {steps steps' : List (Step α)} {error? : Option PipelineError}
      (hload : loader.load i.path = .ok source) (hseen : source.key ∉ seen)
      (hvisits : Visits chain seen source steps none)
      (hrest : Follows chain (keysOf steps ++ seen) rest steps' error?) :
      Follows chain seen (i :: rest) (.included chain i source.key :: (steps ++ steps')) error?

end

end Ways

section Ways

variable {α : Type} {loader : Loader} {terminals : Terminals α} {limit : Nat}

/-! ## One way -/

section Inversion

variable {chain seen : List String} {source : Source} {i : Include} {rest : List Include}
variable {steps : List (Step α)} {error? : Option PipelineError}

theorem Visits.of_error {failure : CompileFailure}
    (hcompile : (compile terminals source.key source.text limit).1 = .error failure)
    (h : Visits loader terminals limit chain seen source steps error?) :
    steps = [.compiled chain source (.error failure)] ∧ error? = some (.compile failure) := by
  cases h with
  | failure h =>
      rw [hcompile, Except.error.injEq] at h
      rw [h]
      exact ⟨rfl, rfl⟩
  | unit h => exact nomatch hcompile.symm.trans h

theorem Visits.of_ok {unit : CompiledUnit α}
    (hcompile : (compile terminals source.key source.text limit).1 = .ok unit)
    (h : Visits loader terminals limit chain seen source steps error?) :
    ∃ more, steps = .compiled chain source (.ok unit) :: more ∧
      Follows loader terminals limit (source.key :: chain) (source.key :: seen) unit.includes more
        error? := by
  cases h with
  | failure h => exact nomatch hcompile.symm.trans h
  | unit h hfollows =>
      rw [hcompile, Except.ok.injEq] at h
      subst h
      exact ⟨_, rfl, hfollows⟩

theorem Follows.of_nil (h : Follows loader terminals limit chain seen [] steps error?) :
    steps = [] ∧ error? = none := by
  cases h
  exact ⟨rfl, rfl⟩

theorem Follows.of_error {error : PipelineError} (hload : loader.load i.path = .error error)
    (h : Follows loader terminals limit chain seen (i :: rest) steps error?) :
    steps = [] ∧ error? = some error := by
  cases h with
  | notFound h =>
      rw [hload, Except.error.injEq] at h
      rw [h]
      exact ⟨rfl, rfl⟩
  | passed h => exact nomatch hload.symm.trans h
  | stopped h => exact nomatch hload.symm.trans h
  | visited h => exact nomatch hload.symm.trans h

theorem Follows.of_mem (hload : loader.load i.path = .ok source) (hseen : source.key ∈ seen)
    (h : Follows loader terminals limit chain seen (i :: rest) steps error?) :
    ∃ more, steps = .included chain i source.key :: more ∧
      Follows loader terminals limit chain seen rest more error? := by
  cases h with
  | notFound h => exact nomatch hload.symm.trans h
  | passed h _ hrest =>
      cases hload.symm.trans h
      exact ⟨_, rfl, hrest⟩
  | stopped h hnew =>
      cases hload.symm.trans h
      exact absurd hseen hnew
  | visited h hnew =>
      cases hload.symm.trans h
      exact absurd hseen hnew

theorem Follows.of_not_mem (hload : loader.load i.path = .ok source) (hseen : source.key ∉ seen)
    (h : Follows loader terminals limit chain seen (i :: rest) steps error?) :
    (∃ inner error, steps = .included chain i source.key :: inner ∧ error? = some error ∧
        Visits loader terminals limit chain seen source inner (some error)) ∨
      ∃ inner more, steps = .included chain i source.key :: (inner ++ more) ∧
        Visits loader terminals limit chain seen source inner none ∧
        Follows loader terminals limit chain (keysOf inner ++ seen) rest more error? := by
  cases h with
  | notFound h => exact nomatch hload.symm.trans h
  | passed h hmem =>
      cases hload.symm.trans h
      exact absurd hmem hseen
  | stopped h _ hvisits =>
      cases hload.symm.trans h
      exact .inl ⟨_, _, rfl, rfl, hvisits⟩
  | visited h _ hvisits hrest =>
      cases hload.symm.trans h
      exact .inr ⟨_, _, rfl, hvisits, hrest⟩

end Inversion

mutual

/-- There is one way through a source at most. -/
theorem Visits.unique {chain seen : List String} {source : Source} {steps steps' : List (Step α)}
    {error? error?' : Option PipelineError} :
    Visits loader terminals limit chain seen source steps error? →
      Visits loader terminals limit chain seen source steps' error?' →
        steps' = steps ∧ error?' = error?
  | .failure h, h' => h'.of_error h
  | .unit h hfollows, h' => by
      obtain ⟨more, rfl, hfollows'⟩ := h'.of_ok h
      obtain ⟨hmore, herror⟩ := hfollows.unique hfollows'
      rw [hmore]
      exact ⟨rfl, herror⟩

/-- There is one way along include statements at most. -/
theorem Follows.unique {chain seen : List String} {includes : List Include}
    {steps steps' : List (Step α)} {error? error?' : Option PipelineError} :
    Follows loader terminals limit chain seen includes steps error? →
      Follows loader terminals limit chain seen includes steps' error?' →
        steps' = steps ∧ error?' = error?
  | .done, h' => h'.of_nil
  | .notFound h, h' => h'.of_error h
  | .passed hload hseen hrest, h' => by
      -- Whether the unit was seen decides which way both go on.
      obtain ⟨more, rfl, hrest'⟩ := h'.of_mem hload hseen
      obtain ⟨hmore, herror⟩ := hrest.unique hrest'
      rw [hmore]
      exact ⟨rfl, herror⟩
  | .stopped hload hseen hvisits, h' => by
      rcases h'.of_not_mem hload hseen with
        ⟨inner, error, rfl, rfl, hvisits'⟩ | ⟨inner, _, -, hvisits', -⟩
      · obtain ⟨hinner, herror⟩ := hvisits.unique hvisits'
        rw [hinner]
        exact ⟨rfl, herror⟩
      · -- The visit cannot have failed for the one and succeeded for the other.
        exact nomatch (hvisits.unique hvisits').2
  | .visited hload hseen hvisits hrest, h' => by
      rcases h'.of_not_mem hload hseen with
        ⟨inner, error, -, -, hvisits'⟩ | ⟨inner, more, rfl, hvisits', hrest'⟩
      · exact nomatch (hvisits.unique hvisits').2
      · have hinner := (hvisits.unique hvisits').1
        rw [hinner] at hrest' ⊢
        obtain ⟨hmore, herror⟩ := hrest.unique hrest'
        rw [hmore]
        exact ⟨rfl, herror⟩

end

/-! ## No source twice -/

mutual

/-- A source that was not seen is compiled once, and so is each below it; none had been seen. -/
theorem Visits.keys_fresh {chain seen : List String} {source : Source} {steps : List (Step α)}
    {error? : Option PipelineError} :
    Visits loader terminals limit chain seen source steps error? → source.key ∉ seen →
      (keysOf steps).Nodup ∧ ∀ key ∈ keysOf steps, key ∉ seen
  | .failure _, hseen => by
      refine ⟨List.nodup_singleton _, fun key hkey => ?_⟩
      obtain rfl := List.mem_singleton.mp hkey
      exact hseen
  | .unit _ hfollows, hseen => by
      obtain ⟨hnodup, hfresh⟩ := hfollows.keys_fresh
      have hkeys (unit : CompiledUnit α) (steps : List (Step α)) :
          keysOf (.compiled chain source (.ok unit) :: steps) = source.key :: keysOf steps := rfl
      rw [hkeys, List.nodup_cons, List.forall_mem_cons]
      refine ⟨⟨fun hkey => hfresh _ hkey List.mem_cons_self, hnodup⟩, hseen, fun key hkey hmem => ?_⟩
      exact hfresh key hkey (List.mem_cons_of_mem _ hmem)

theorem Follows.keys_fresh {chain seen : List String} {includes : List Include}
    {steps : List (Step α)} {error? : Option PipelineError} :
    Follows loader terminals limit chain seen includes steps error? →
      (keysOf steps).Nodup ∧ ∀ key ∈ keysOf steps, key ∉ seen
  | .done => ⟨List.nodup_nil, fun _ h => nomatch h⟩
  | .notFound _ => ⟨List.nodup_nil, fun _ h => nomatch h⟩
  | .passed _ _ hrest => hrest.keys_fresh
  | .stopped _ hseen hvisits => hvisits.keys_fresh hseen
  | .visited _ hseen hvisits hrest => by
      obtain ⟨hnodup, hfresh⟩ := hvisits.keys_fresh hseen
      obtain ⟨hnodup', hfresh'⟩ := hrest.keys_fresh
      have hkeys (i : Include) (key : String) (steps steps' : List (Step α)) :
          keysOf (.included chain i key :: (steps ++ steps')) = keysOf steps ++ keysOf steps' :=
        List.filterMap_append
      rw [hkeys, List.nodup_append, List.forall_mem_append]
      refine ⟨⟨hnodup, hnodup', fun key hkey _ hkey' heq => ?_⟩, hfresh, fun key hkey hmem => ?_⟩
      · exact hfresh' _ hkey' (List.mem_append_left _ (heq ▸ hkey))
      · exact hfresh' key hkey (List.mem_append_right _ hmem)

end

/-! ## What is compiled -/

mutual

/-- What a source comes to on the way is what it compiles to. -/
theorem Visits.compile_of_mem {chain seen : List String} {source : Source} {steps : List (Step α)}
    {error? : Option PipelineError} {chain' : List String} {other : Source}
    {result : Except CompileFailure (CompiledUnit α)} :
    Visits loader terminals limit chain seen source steps error? →
      .compiled chain' other result ∈ steps →
        (compile terminals other.key other.text limit).1 = result
  | .failure h, hmem => by
      cases List.mem_singleton.mp hmem
      exact h
  | .unit h hfollows, hmem => by
      rcases List.mem_cons.mp hmem with heq | hmem
      · cases heq
        exact h
      · exact hfollows.compile_of_mem hmem

theorem Follows.compile_of_mem {chain seen : List String} {includes : List Include}
    {steps : List (Step α)} {error? : Option PipelineError} {chain' : List String} {other : Source}
    {result : Except CompileFailure (CompiledUnit α)} :
    Follows loader terminals limit chain seen includes steps error? →
      .compiled chain' other result ∈ steps →
        (compile terminals other.key other.text limit).1 = result
  | .done, hmem => nomatch hmem
  | .notFound _, hmem => nomatch hmem
  | .passed _ _ hrest, hmem =>
      hrest.compile_of_mem ((List.mem_cons.mp hmem).resolve_left nofun)
  | .stopped _ _ hvisits, hmem =>
      hvisits.compile_of_mem ((List.mem_cons.mp hmem).resolve_left nofun)
  | .visited _ _ hvisits hrest, hmem => by
      rcases List.mem_append.mp ((List.mem_cons.mp hmem).resolve_left nofun) with
        hmem | hmem
      · exact hvisits.compile_of_mem hmem
      · exact hrest.compile_of_mem hmem

end

mutual

/-- What holds of a source, and passes on to all that a source includes, holds of all sources that are
compiled on the way. -/
theorem Visits.source_induction {P : Source → Prop}
    (hinclude : ∀ source unit, P source →
      (compile terminals source.key source.text limit).1 = .ok unit → ∀ i ∈ unit.includes, ∀ other,
        loader.load i.path = .ok other → P other)
    {chain seen : List String} {source : Source} {steps : List (Step α)}
    {error? : Option PipelineError} {chain' : List String} {other : Source}
    {result : Except CompileFailure (CompiledUnit α)} :
    Visits loader terminals limit chain seen source steps error? → P source →
      .compiled chain' other result ∈ steps → P other
  | .failure _, hsource, hmem => by
      cases List.mem_singleton.mp hmem
      exact hsource
  | .unit h hfollows, hsource, hmem => by
      rcases List.mem_cons.mp hmem with heq | hmem
      · cases heq
        exact hsource
      · exact hfollows.source_induction hinclude (hinclude source _ hsource h) hmem

theorem Follows.source_induction {P : Source → Prop}
    (hinclude : ∀ source unit, P source →
      (compile terminals source.key source.text limit).1 = .ok unit → ∀ i ∈ unit.includes, ∀ other,
        loader.load i.path = .ok other → P other)
    {chain seen : List String} {includes : List Include} {steps : List (Step α)}
    {error? : Option PipelineError} {chain' : List String} {other : Source}
    {result : Except CompileFailure (CompiledUnit α)} :
    Follows loader terminals limit chain seen includes steps error? →
      (∀ i ∈ includes, ∀ source, loader.load i.path = .ok source → P source) →
        .compiled chain' other result ∈ steps → P other
  | .done, _, hmem => nomatch hmem
  | .notFound _, _, hmem => nomatch hmem
  | .passed _ _ hrest, hall, hmem =>
      hrest.source_induction hinclude (List.forall_mem_cons.mp hall).2
        ((List.mem_cons.mp hmem).resolve_left nofun)
  | .stopped hload _ hvisits, hall, hmem =>
      hvisits.source_induction hinclude ((List.forall_mem_cons.mp hall).1 _ hload)
        ((List.mem_cons.mp hmem).resolve_left nofun)
  | .visited hload _ hvisits hrest, hall, hmem => by
      rw [List.forall_mem_cons] at hall
      rcases List.mem_append.mp ((List.mem_cons.mp hmem).resolve_left nofun) with hmem | hmem
      · exact hvisits.source_induction hinclude (hall.1 _ hload) hmem
      · exact hrest.source_induction hinclude hall.2 hmem

end

/-- A unit that was visited was compiled on the way. -/
theorem exists_compiled_of_mem_visitsOf {steps : List (Step α)} {v : Visit α}
    (h : v ∈ visitsOf steps) :
    ∃ chain source, .compiled chain source (.ok v.unit) ∈ steps ∧ v.key = source.key := by
  obtain ⟨step, hstep, hvisit⟩ := List.mem_filterMap.mp h
  unfold Step.visit? at hvisit
  split at hvisit
  · rename_i chain source unit
    cases hvisit
    exact ⟨chain, source, hstep, rfl⟩
  · cases hvisit

end Ways

end RuleScript
