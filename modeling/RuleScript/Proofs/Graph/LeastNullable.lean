import Mathlib.Data.Set.Basic
import Mathlib.Logic.Equiv.Basic
import Mathlib.Order.Bounds.Defs
import RuleScript.Proofs.Graph.Nullable

/-!
# The table of nullable rules is the least one

Where some rules are nullable, others are by what their kinds say (`Graph.madeNullable`).  Recursion
allows for several sets of rules that are closed under this.  The table marks the smallest of them,
which is the set of the rules that a finite derivation shows to be nullable (`Graph.Vanishes`).

A sweep works in place, so a mark may be due to marks of the sweep before or of the same one.  That
does not matter for the argument: every single mark stays within every closed set
(`Graph.marks_mem_of_closed`), and in the end there is nothing left to mark.

The smallest closed set knows nothing of the order in which rules are numbered, so renaming the ids
moves its members along (`Graph.marks_renumber`).
-/

namespace RuleScript

/-! ## What the kinds of rules say -/

namespace Kind

variable {α : Type} {kind : Kind α} {rules more : Set RuleId}

/-- Whether a rule of this kind is nullable where just the rules of a set are. -/
def NullableOver (rules : Set RuleId) : Kind α → Prop
  | any min _ => min = 0
  | single _ | set _ | range .. => False
  | literal values => values = []
  | sequence subs => ∀ sub ∈ subs, sub ∈ rules
  | oneOf subs | evaluation subs => ∃ sub ∈ subs, sub ∈ rules
  | count sub min _ => min = 0 ∨ sub ∈ rules
  | not _ | condition _ | log .. => True
  | skip stop stopBefore failOnEnd => stopBefore ∨ ¬ failOnEnd ∨ stop ∈ rules
  | breakpoint sub => sub ∈ rules
  | reference _ subject => ∃ sub ∈ subject, sub ∈ rules

theorem isNullable_iff {nullable : RuleId → Bool} (hrules : ∀ id, nullable id ↔ id ∈ rules) :
    kind.isNullable nullable ↔ kind.NullableOver rules := by
  cases kind with
  | reference target subject => cases subject <;> simp [isNullable, NullableOver, hrules]
  | _ => simp [isNullable, NullableOver, hrules, or_assoc]

/-- Only the rules that a kind refers to matter, and more of them do no harm. -/
theorem NullableOver.of_subs (h : kind.NullableOver rules)
    (hsubs : ∀ sub ∈ kind.subs, sub ∈ rules → sub ∈ more) : kind.NullableOver more := by
  cases kind with
  | any | single | set | range | literal | not | condition | log => exact h
  | sequence subs => exact fun sub hsub => hsubs sub hsub (h sub hsub)
  | oneOf subs | evaluation subs =>
      obtain ⟨sub, hmem, hsub⟩ := h
      exact ⟨sub, hmem, hsubs sub hmem hsub⟩
  | count sub min max => exact h.imp_right (hsubs sub List.mem_cons_self)
  | skip stop stopBefore failOnEnd =>
      exact h.imp_right (Or.imp_right (hsubs stop List.mem_cons_self))
  | breakpoint sub => exact hsubs sub List.mem_cons_self h
  | reference target subject =>
      obtain ⟨sub, hmem, hsub⟩ := h
      exact ⟨sub, hmem, hsubs sub (Option.mem_toList.mpr hmem) hsub⟩

theorem nullableOver_mapSubs {f : RuleId → RuleId} {renamed : Set RuleId}
    (hrenamed : ∀ id, f id ∈ renamed ↔ id ∈ rules) :
    (kind.mapSubs f).NullableOver renamed ↔ kind.NullableOver rules := by
  cases kind with
  | reference target subject => cases subject <;> simp [mapSubs, NullableOver, hrenamed]
  | _ => simp [mapSubs, NullableOver, hrenamed]

end Kind

namespace Graph

variable {α : Type} {g : Graph α} {rules : Set RuleId} {id : RuleId}

/-- The rules that are nullable by what their kinds say, where just the rules of a set are. -/
def madeNullable (g : Graph α) (rules : Set RuleId) : Set RuleId :=
  {id | ∃ kind ∈ g.kind? id, kind.NullableOver rules}

/-- The rules that a table marks. -/
def marked (table : Array Bool) : Set RuleId := {id | marks table id}

/-- A finite derivation shows that a rule is nullable: its kind says so where some rules are, and each
of these has a derivation of its own. -/
inductive Vanishes (g : Graph α) : RuleId → Prop
  | derive {id : RuleId} {kind : Kind α} (premises : List RuleId) (hkind : g.kind? id = some kind)
      (hnullable : kind.NullableOver {sub | sub ∈ premises})
      (hpremises : ∀ sub ∈ premises, g.Vanishes sub) : g.Vanishes id

theorem madeNullable_mono {more : Set RuleId} (hmore : rules ⊆ more) :
    g.madeNullable rules ⊆ g.madeNullable more := by
  rintro id ⟨kind, hkind, hnullable⟩
  exact ⟨kind, hkind, hnullable.of_subs fun _ _ hsub => hmore hsub⟩

theorem mem_madeNullable_marked_iff {table : Array Bool} :
    id ∈ g.madeNullable (marked table) ↔
      (g.rule? id).any (·.kind.isNullable (marks table)) := by
  rw [Option.any_eq_true]
  constructor
  · rintro ⟨kind, hkind, hnullable⟩
    obtain ⟨rule, hrule, rfl⟩ := Option.map_eq_some_iff.mp hkind
    exact ⟨rule, hrule, (Kind.isNullable_iff fun _ => Iff.rfl).mpr hnullable⟩
  · rintro ⟨rule, hrule, hnullable⟩
    exact ⟨rule.kind, kind?_eq_some hrule, (Kind.isNullable_iff fun _ => Iff.rfl).mp hnullable⟩

/-! ## The least closed set -/

/-- The marks make just the marked rules nullable. -/
theorem madeNullable_marked (g : Graph α) :
    g.madeNullable (marked g.nullableTable) = marked g.nullableTable := by
  ext id
  rw [mem_madeNullable_marked_iff]
  cases hrule : g.rule? id with
  | none => simp [marked, marks_eq_false_of_rule?_eq_none hrule]
  | some rule => exact (marks_iff_isNullable hrule).symm

/-- Marks stay within every closed set. -/
theorem marks_mem_of_closed (hclosed : g.madeNullable rules ⊆ rules) :
    ∀ id, marks g.nullableTable id → id ∈ rules := by
  refine nullableTable_induction (P := fun table => ∀ id, marks table id → id ∈ rules)
    (fun id hid => absurd hid (not_marks_replicate g.size id)) fun table id htable other hother => ?_
  rcases marks_or_isNullable_of_marks hother with hmarks | hnullable
  · exact htable other hmarks
  · exact hclosed (madeNullable_mono htable (mem_madeNullable_marked_iff.mpr hnullable))

theorem isLeast_marked (g : Graph α) :
    IsLeast {rules | g.madeNullable rules ⊆ rules} (marked g.nullableTable) :=
  ⟨(madeNullable_marked g).subset, fun _ hclosed => marks_mem_of_closed hclosed⟩

/-- What derivations lead to is closed. -/
theorem madeNullable_vanishes : g.madeNullable {id | g.Vanishes id} ⊆ {id | g.Vanishes id} := by
  classical
  rintro id ⟨kind, hkind, hnullable⟩
  -- The premises are the rules it refers to, less those without a derivation.
  refine .derive (kind.subs.filter fun sub => g.Vanishes sub) hkind ?_ ?_
  · exact hnullable.of_subs fun sub hmem hsub => List.mem_filter.mpr ⟨hmem, decide_eq_true hsub⟩
  · exact fun sub hsub => of_decide_eq_true (List.mem_filter.mp hsub).2

theorem marks_iff_vanishes : marks g.nullableTable id ↔ g.Vanishes id := by
  refine ⟨marks_mem_of_closed madeNullable_vanishes id, fun h => ?_⟩
  induction h with
  | @derive id kind premises hkind hnullable _ ih =>
      have hmade : id ∈ g.madeNullable (marked g.nullableTable) :=
        ⟨kind, hkind, hnullable.of_subs fun sub _ hsub => ih sub hsub⟩
      rwa [madeNullable_marked] at hmade

/-! ## Renaming ids -/

end Graph

namespace RuleId

variable {n : Nat}

/-- The ids of a graph with `n` rules. -/
def equivFin (n : Nat) : Fin n ≃ {id : RuleId // id.index < n} where
  toFun i := ⟨⟨i⟩, i.isLt⟩
  invFun id := ⟨id.1.index, id.2⟩
  left_inv _ := rfl
  right_inv _ := rfl

/-- Move the ids of a graph with `n` rules as `σ` says, and leave all others where they are. -/
def permute (σ : Equiv.Perm (Fin n)) : Equiv.Perm RuleId := σ.extendDomain (equivFin n)

theorem permute_mk (σ : Equiv.Perm (Fin n)) (i : Fin n) : permute σ ⟨i⟩ = ⟨σ i⟩ :=
  σ.extendDomain_apply_image (equivFin n) i

theorem permute_of_le (σ : Equiv.Perm (Fin n)) {id : RuleId} (h : n ≤ id.index) :
    permute σ id = id :=
  σ.extendDomain_apply_not_subtype (equivFin n) (Nat.not_lt.mpr h)

theorem index_permute_lt_iff (σ : Equiv.Perm (Fin n)) {id : RuleId} :
    (permute σ id).index < n ↔ id.index < n := by
  rcases Nat.lt_or_ge id.index n with hlt | hge
  · rw [permute_mk σ ⟨id.index, hlt⟩]
    exact iff_of_true (σ _).isLt hlt
  · rw [permute_of_le σ hge]

end RuleId

namespace Graph

variable {α : Type} {g : Graph α} {rules : Set RuleId} {id : RuleId}

/-- The graph with its ids renamed: the rule at position `i` moves to position `σ i`, and what refers to
it follows. -/
def renumber (g : Graph α) (σ : Equiv.Perm (Fin g.size)) : Graph α where
  rules := Array.ofFn fun i : Fin g.size =>
    have hbound : (σ.symm i).val < g.rules.size := (σ.symm i).isLt
    g.rules[(σ.symm i).val].mapSubs (RuleId.permute σ)
  root := g.root.map (RuleId.permute σ)

variable (σ : Equiv.Perm (Fin g.size))

theorem size_renumber : (g.renumber σ).size = g.size := Array.size_ofFn

theorem rule?_renumber (id : RuleId) :
    (g.renumber σ).rule? (RuleId.permute σ id) =
      (g.rule? id).map (·.mapSubs (RuleId.permute σ)) := by
  rcases Nat.lt_or_ge id.index g.size with hlt | hge
  · have hid : RuleId.permute σ id = ⟨σ ⟨id.index, hlt⟩⟩ := RuleId.permute_mk σ ⟨id.index, hlt⟩
    have hbound : id.index < g.rules.size := hlt
    simp [hid, rule?, renumber, hbound]
  · rw [RuleId.permute_of_le σ hge, rule?, rule?, Array.getElem?_eq_none hge]
    exact Array.getElem?_eq_none (by rwa [← size, size_renumber])

section Renamed

variable {σ} {renamed : Set RuleId} (hrenamed : ∀ id, RuleId.permute σ id ∈ renamed ↔ id ∈ rules)

include hrenamed

theorem mem_madeNullable_renumber_iff :
    RuleId.permute σ id ∈ (g.renumber σ).madeNullable renamed ↔ id ∈ g.madeNullable rules := by
  have hkind : (g.renumber σ).kind? (RuleId.permute σ id) =
      (g.kind? id).map (·.mapSubs (RuleId.permute σ)) := by
    rw [kind?, rule?_renumber, kind?, Option.map_map, Option.map_map]
    rfl
  simp only [madeNullable, Set.mem_ofPred_eq, hkind, Option.mem_map, exists_exists_and_eq_and,
    Kind.nullableOver_mapSubs hrenamed]

/-- A set is closed after renaming just if it was before, under the old ids. -/
theorem closed_renumber_iff :
    (g.renumber σ).madeNullable renamed ⊆ renamed ↔ g.madeNullable rules ⊆ rules := by
  constructor
  · intro hclosed id hid
    exact (hrenamed id).mp (hclosed ((mem_madeNullable_renumber_iff hrenamed).mpr hid))
  · intro hclosed new hnew
    obtain ⟨id, rfl⟩ := (RuleId.permute σ).surjective new
    exact (hrenamed id).mpr (hclosed ((mem_madeNullable_renumber_iff hrenamed).mp hnew))

end Renamed

/-- A renamed rule is marked just if the rule was. -/
theorem marks_renumber (id : RuleId) :
    marks (g.renumber σ).nullableTable (RuleId.permute σ id) ↔ marks g.nullableTable id := by
  constructor
  · -- The marked rules of either graph are a closed set of the other one, once their ids are renamed.
    let renamed : Set RuleId := {id | (RuleId.permute σ).symm id ∈ marked g.nullableTable}
    have hrenamed (id : RuleId) : RuleId.permute σ id ∈ renamed ↔ id ∈ marked g.nullableTable := by
      simp [renamed]
    intro hmarks
    exact (hrenamed id).mp
      (marks_mem_of_closed ((closed_renumber_iff hrenamed).mpr (isLeast_marked g).1) _ hmarks)
  · let old : Set RuleId := {id | RuleId.permute σ id ∈ marked (g.renumber σ).nullableTable}
    have hold : g.madeNullable old ⊆ old :=
      (closed_renumber_iff fun _ => Iff.rfl).mp (isLeast_marked (g.renumber σ)).1
    exact marks_mem_of_closed hold id

theorem getElem?_nullableTable (g : Graph α) (id : RuleId) :
    g.nullableTable[id.index]? =
      if id.index < g.size then some (marks g.nullableTable id) else none := by
  split
  · rename_i hlt
    rw [← size_nullableTable] at hlt
    rw [marks, Array.getElem?_eq_getElem hlt, Option.getD_some]
  · rename_i hge
    exact Array.getElem?_eq_none (by rw [size_nullableTable]; omega)

/-- **The table of nullable rules is the least fixed point.**  Sweeping without a bound ends with it,
after one sweep for each rule and one more at most.  The rules it marks are the smallest set that is
closed under what the kinds of rules say, and they make just themselves nullable; they are also what
finite derivations lead to.  So the order of the rules does not matter: renaming the ids by any
permutation moves the entries of the table along. -/
theorem nullableTable_isLeast (g : Graph α) :
    (∃ sweeps ≤ g.size + 1,
      g.SettlesIn sweeps (Array.replicate g.size false) g.nullableTable) ∧
    IsLeast {rules | g.madeNullable rules ⊆ rules} (marked g.nullableTable) ∧
    g.madeNullable (marked g.nullableTable) = marked g.nullableTable ∧
    (∀ id, marks g.nullableTable id ↔ g.Vanishes id) ∧
    ∀ (σ : Equiv.Perm (Fin g.size)) (id : RuleId),
      (g.renumber σ).nullableTable[(RuleId.permute σ id).index]? = g.nullableTable[id.index]? := by
  refine ⟨nullableTable_settlesIn g, isLeast_marked g, madeNullable_marked g,
    fun _ => marks_iff_vanishes, fun σ id => ?_⟩
  have hmarks := Bool.eq_iff_iff.mpr (marks_renumber σ id)
  simp only [getElem?_nullableTable, size_renumber, RuleId.index_permute_lt_iff, hmarks]

end Graph

end RuleScript
