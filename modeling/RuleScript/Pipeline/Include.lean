import RuleScript.Graph.Merge
import RuleScript.Pipeline.Source
import RuleScript.Script.Compile

/-!
# Includes

The rules of an included script are merged into the script that includes it, which has been
compiled before, so a script's own rules come first and those of an earlier include before those
of a later one.  A source is compiled once however often it is included.  One that is included
from within itself is skipped with a warning.

Every source that is begun is a new one, so sources cannot be nested deeper than there are keys,
which is what the recursion runs on.
-/

namespace RuleScript

/-- What compiling a unit with its includes has come to so far. -/
structure IncludeState (α : Type) where
  /-- The units begun, latest first, with their graphs as soon as they are complete. -/
  units : List (String × Option (Graph α)) := []
  diagnostics : List Diagnostic := []
  journal : Journal := #[]

/-- A computation that compiles units. -/
abbrev Including (α β : Type) := ExceptT PipelineError (StateM (IncludeState α)) β

namespace Including

variable {α : Type}

def record (event : Event) : Including α Unit :=
  modify fun state => { state with journal := state.journal.push event }

/-- Add to the list of units. -/
def note (key : String) (graph : Option (Graph α)) : Including α Unit :=
  modify fun state => { state with units := (key, graph) :: state.units }

def report (diagnostics : List Diagnostic) : Including α Unit :=
  modify fun state => { state with diagnostics := state.diagnostics ++ diagnostics }

/-- Compile a script, its includes left aside. -/
def compileAlone (terminals : Terminals α) (limit : Nat) (source : Source) :
    Including α (CompiledUnit α) := do
  let (result, journal) := compile terminals source.key source.text limit
  modify fun state => { state with journal := state.journal ++ journal }
  match result with
  | .ok compiled => return compiled
  | .error failure => throw (.compile failure)

/-- Merge a graph that is included. -/
def mergeInto (graph included : Graph α) : Including α (MergeReport × Graph α) := do
  let (report, merged) := graph.merge included
  record report.event
  return (report, merged)

end Including

/-- A diagnostic of an included unit names the unit. -/
def Diagnostic.within (unit : String) (d : Diagnostic) : Diagnostic :=
  { d with message := s!"{unit}: {d.message}" }

section

open Including

variable {α : Type} (loader : Loader)

/-- Merge the includes of a unit in order.  `nested` compiles a source that has not been begun;
there is none as soon as all sources have been. -/
def mergeIncludes (nested : Option (Source → Including α (Graph α))) (unit : String) :
    List Include → Graph α → Including α (Graph α)
  | [], graph => return graph
  | i :: rest, graph => do
    let source ← loader.load i.path
    match (← get).units.lookup source.key, nested with
    | some (some included), _ =>
      let (_, merged) ← mergeInto graph included
      mergeIncludes nested unit rest merged
    | none, some compileNested =>
      note source.key none
      let included ← compileNested source
      let (report, merged) ← mergeInto graph included
      record (.included source.key unit report.added report.shadowed.length)
      note source.key (some included)
      mergeIncludes nested unit rest merged
    | _, _ =>
      record (.circularInclude i.path unit)
      report [⟨.warning, s!"circular include of '{i.path}' skipped", i.location⟩]
      mergeIncludes nested unit rest graph

/-- Compile a source and merge its includes, nested some `levels` deep at most. -/
def compileNested (terminals : Terminals α) (limit : Nat) :
    (levels : Nat) → (isTop : Bool) → Source → Including α (Graph α)
  | levels, isTop, source => do
    let compiled ← compileAlone terminals limit source
    report (if isTop then compiled.diagnostics
      else compiled.diagnostics.map (·.within source.key))
    let nested := match levels with
      | 0 => none
      | levels + 1 => some (compileNested terminals limit levels false)
    mergeIncludes loader nested source.key compiled.includes compiled.graph

/-- Compile a source with all it includes, and resolve and validate the result. -/
def compileSource (terminals : Terminals α) (limit : Nat) (source : Source) :
    Except PipelineError (Compilation α) × Journal :=
  let (result, state) :=
    (compileNested loader terminals limit loader.keys.length true source).run.run
      { units := [(source.key, none)] }
  let finished := match result with
    | .error error => .error error
    | .ok graph =>
      match (CompiledUnit.mk graph [] state.diagnostics).finish source.key with
      | .ok compilation => .ok compilation
      | .error failure => .error (.compile failure)
  (finished, state.journal)

end

end RuleScript
