import RuleScript.Pipeline.Error

/-!
# Sources

A loader finds the text of a script by a path.  Every source has a key, which is the same whatever
path it was found by, and there are only finitely many of them.
-/

namespace RuleScript

/-- The text of a script, and what identifies it. -/
structure Source where
  key : String
  text : String
  deriving DecidableEq

/-- Finds sources by path. -/
structure Loader where
  /-- The keys of all sources there are. -/
  keys : List String
  load : String → Except PipelineError Source
  key_mem : ∀ {path source}, load path = .ok source → source.key ∈ keys

namespace Loader

/-- The sources of a table, each under its path; of two for a path the later one counts. -/
def ofTable (table : List (String × String)) : Loader where
  keys := table.map (·.1)
  load path :=
    match table.reverse.find? (·.1 == path) with
    | some (key, text) => .ok ⟨key, text⟩
    | none => .error (.includeNotFound path [])
  key_mem {path source} h := by
    split at h
    · rename_i key text found
      cases h
      have := List.mem_of_find?_eq_some found
      exact List.mem_map.mpr ⟨(key, text), List.mem_reverse.mp this, rfl⟩
    · cases h

end Loader

end RuleScript
