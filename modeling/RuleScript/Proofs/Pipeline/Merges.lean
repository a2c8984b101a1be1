import RuleScript.Proofs.Graph.Merging
import RuleScript.Proofs.Pipeline.Traversal
import RuleScript.Proofs.Script.Growing

/-!
# The first definition of a name stays

A graph that was merged from the graphs of units, in any nesting, defines the names that the units
define.  Of several units that define a name the first in the order of the merges counts, because a
merge keeps what is there (`MergeOf.carries`).  That order may list a unit again and again, where it
was included more than once; it then only matters where it comes first.
-/

namespace RuleScript

variable {α : Type}

/-- Whether a unit has a rule with a name. -/
def Visit.defines (name : String) (v : Visit α) : Bool := v.unit.graph.hasName name

theorem Visit.defines_iff {name : String} {v : Visit α} :
    v.defines name ↔ name ∈ v.unit.graph.names :=
  Graph.hasName_iff

/-- The graph is merged from the graphs of units, those earlier in the list first. -/
inductive MergeOf (terminals : Terminals α) (limit : Nat) : List (Visit α) → Graph α → Prop
  | unit {key text : String} {unit : CompiledUnit α}
      (h : (compile terminals key text limit).1 = .ok unit) :
      MergeOf terminals limit [⟨key, unit⟩] unit.graph
  | merge {vs ws : List (Visit α)} {g other : Graph α} (hg : MergeOf terminals limit vs g)
      (hother : MergeOf terminals limit ws other) :
      MergeOf terminals limit (vs ++ ws) (g.merge other).2

namespace MergeOf

variable {terminals : Terminals α} {limit : Nat} {vs : List (Visit α)} {g : Graph α}

/-- What holds of the graph of every unit, and of a merge of two graphs that it holds of, holds of all
that is merged from units. -/
theorem graph_induction {P : Graph α → Prop} (h : MergeOf terminals limit vs g)
    (hunit : ∀ key text unit, (compile terminals key text limit).1 = .ok unit → P unit.graph)
    (hmerge : ∀ g other, P g → P other → P (g.merge other).2) : P g := by
  induction h with
  | unit h => exact hunit _ _ _ h
  | merge _ _ ih ihother => exact hmerge _ _ ih ihother

/-- The same of some units only, if it holds of the graph of each of them. -/
theorem graph_induction_of_mem {P : Graph α → Prop} (h : MergeOf terminals limit vs g)
    (hunit : ∀ v ∈ vs, P v.unit.graph) (hmerge : ∀ g other, P g → P other → P (g.merge other).2) :
    P g := by
  induction h with
  | @unit key _ unit => exact hunit ⟨key, unit⟩ List.mem_cons_self
  | merge _ _ ih ihother =>
      exact hmerge _ _ (ih fun v hv => hunit v (List.mem_append_left _ hv))
        (ihother fun v hv => hunit v (List.mem_append_right _ hv))

theorem wellFormed (hbase : terminals.base.WellFormed) (h : MergeOf terminals limit vs g) :
    g.WellFormed :=
  h.graph_induction (fun _ _ _ hcompile => (Script.compile_drawn hcompile).1 hbase)
    fun _ _ hg hother => hg.merge hother

/-- The names of the graph are those of the units. -/
theorem mem_names_iff (h : MergeOf terminals limit vs g) {name : String} :
    name ∈ g.names ↔ ∃ v ∈ vs, v.defines name := by
  induction h with
  | unit => simp [Visit.defines_iff]
  | @merge vs ws _ _ _ _ ih ihother =>
      rw [Graph.names_merge, List.mem_append, List.mem_filter, ihother, decide_eq_true_iff, ih]
      constructor
      · rintro (⟨v, hv, hname⟩ | ⟨⟨v, hv, hname⟩, -⟩)
        · exact ⟨v, List.mem_append_left _ hv, hname⟩
        · exact ⟨v, List.mem_append_right _ hv, hname⟩
      · intro hdefined
        obtain ⟨v, hv, hname⟩ := hdefined
        by_cases hearly : ∃ v ∈ vs, v.defines name
        · exact .inl hearly
        · refine .inr ⟨⟨v, (List.mem_append.mp hv).resolve_left fun hv => ?_, hname⟩, hearly⟩
          exact hearly ⟨v, hv, hname⟩

/-- **The rules of every unit are in the graph**, apart from those with a name that an earlier unit
defines; names lead to the rules of the first unit that defines them. -/
theorem carries (hbase : terminals.base.WellFormed) (h : MergeOf terminals limit vs g) {v : Visit α}
    (hv : v ∈ vs) :
    ∃ place, Graph.Carries place (fun name => vs.find? (·.defines name) = some v) v.unit.graph g := by
  induction h with
  | unit =>
      obtain rfl := List.mem_singleton.mp hv
      exact ⟨_, .refl _ _⟩
  | @merge vs ws g other hg hother ih ihother =>
      have hwell := hg.wellFormed hbase
      have hwell' := hother.wellFormed hbase
      by_cases hfirst : v ∈ vs
      · obtain ⟨place, hplace⟩ := ih hfirst
        have hmore := hplace.trans (Graph.carries_merge hwell hwell' fun _ => True) fun _ _ => trivial
        refine ⟨_, hmore.named, fun id rule hrule hkept => hmore.copied id rule hrule ?_⟩
        -- That `v` comes first among all units means that it does among those merged first.
        intro name hname
        have hfind := hkept name hname
        rw [List.find?_append, Option.or_eq_some_iff] at hfind
        refine hfind.resolve_right fun hlate => ?_
        have hdefines : v.defines name := Visit.defines_iff.mpr
          (Graph.mem_names_iff.mpr ⟨id, Graph.nameOf?_eq_some_iff.mpr ⟨rule, hrule, hname⟩⟩)
        exact absurd hdefines (List.find?_eq_none.mp hlate.1 v hfirst)
      · obtain ⟨place, hplace⟩ := ihother ((List.mem_append.mp hv).resolve_left hfirst)
        -- Then no unit that was merged first has a rule with the name.
        have hlate {name : String} (hfind : (vs ++ ws).find? (·.defines name) = some v) :
            vs.find? (·.defines name) = none ∧ ws.find? (·.defines name) = some v := by
          rw [List.find?_append, Option.or_eq_some_iff] at hfind
          exact hfind.resolve_left fun hearly => hfirst (List.mem_of_find?_eq_some hearly)
        have hplace' : Graph.Carries place
            (fun name => (vs ++ ws).find? (·.defines name) = some v) v.unit.graph other :=
          ⟨hplace.named, fun id rule hrule hkept => hplace.copied id rule hrule fun name hname =>
            (hlate (hkept name hname)).2⟩
        refine ⟨_, hplace'.trans (Graph.carries_merge_mapped hwell hwell') fun name hfind hmem => ?_⟩
        obtain ⟨w, hw, hdefines⟩ := hg.mem_names_iff.mp hmem
        exact absurd hdefines (List.find?_eq_none.mp (hlate hfind).1 w hw)

end MergeOf

end RuleScript
