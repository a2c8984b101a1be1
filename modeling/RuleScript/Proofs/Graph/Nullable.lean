import RuleScript.Graph.Nullable

/-!
# The table of nullable rules is closed

A sweep only ever adds marks, so a sweep that changes the table adds one, and there are no more
marks to add than there are rules.  `settle` is given one sweep more than that, so it stops because
a sweep changed nothing (`nullableTable_settlesIn`), not because its sweeps ran out.  A table that no
sweep changes marks every rule that its own marks make nullable (`marks_of_isNullable`).

It marks no other rule.  A rule is marked because of the marks there are by then, and marks that
come later take nothing away from that (`Kind.isNullable_mono`), so the table is a solution of what
the kinds of rules say (`marks_iff_isNullable`).
-/

namespace RuleScript

/-- A rule that some marks make nullable is nullable with more marks as well. -/
theorem Kind.isNullable_mono {α : Type} {kind : Kind α} {nullable more : RuleId → Bool}
    (hmore : ∀ id, nullable id → more id) (h : kind.isNullable nullable) :
    kind.isNullable more := by
  cases kind with
  | any min max => exact h
  | single value => exact h
  | set values => exact h
  | range lo hi => exact h
  | literal values => exact h
  | sequence subs =>
      have hall := List.all_eq_true.mp h
      exact List.all_eq_true.mpr fun sub hsub => hmore sub (hall sub hsub)
  | oneOf subs =>
      obtain ⟨sub, hsub, hnullable⟩ := List.any_eq_true.mp h
      exact List.any_eq_true.mpr ⟨sub, hsub, hmore sub hnullable⟩
  | evaluation alternatives =>
      obtain ⟨sub, hsub, hnullable⟩ := List.any_eq_true.mp h
      exact List.any_eq_true.mpr ⟨sub, hsub, hmore sub hnullable⟩
  | count sub min max =>
      simp only [isNullable, Bool.or_eq_true] at h ⊢
      exact h.imp_right (hmore sub)
  | not sub => rfl
  | condition sub => rfl
  | log severity message guard => rfl
  | skip stop stopBefore failOnEnd =>
      simp only [isNullable, Bool.or_eq_true] at h ⊢
      exact h.imp_right (hmore stop)
  | breakpoint sub => exact hmore sub h
  | reference target subject =>
      obtain ⟨sub, hsub, hnullable⟩ := (Option.any_eq_true _ _).mp h
      exact (Option.any_eq_true _ _).mpr ⟨sub, hsub, hmore sub hnullable⟩

namespace Graph

variable {α : Type} {g : Graph α}

/-- The second table has the marks of the first, and perhaps more. -/
structure Extends (table more : Array Bool) : Prop where
  size_eq : more.size = table.size
  marks_of_marks : ∀ id, marks table id → marks more id

namespace Extends

variable {table more most : Array Bool}

theorem refl (table : Array Bool) : Extends table table := ⟨rfl, fun _ h => h⟩

theorem trans (h : Extends table more) (h' : Extends more most) : Extends table most :=
  ⟨h'.size_eq.trans h.size_eq, fun id hid => h'.marks_of_marks id (h.marks_of_marks id hid)⟩

theorem antisymm (h : Extends table more) (h' : Extends more table) : more = table := by
  apply Array.ext h.size_eq
  intro i hmore htable
  have hmarks : marks more ⟨i⟩ = true ↔ marks table ⟨i⟩ = true :=
    ⟨h'.marks_of_marks ⟨i⟩, h.marks_of_marks ⟨i⟩⟩
  simp only [marks, Array.getElem?_eq_getElem hmore, Array.getElem?_eq_getElem htable,
    Option.getD_some] at hmarks
  exact Bool.eq_iff_iff.mpr hmarks

end Extends

/-! ## Sweeps add marks -/

theorem marks_set_of_marks {table : Array Bool} {id : RuleId} (index : Nat)
    (h : marks table id) : marks (table.setIfInBounds index true) id := by
  unfold marks at h ⊢
  rw [Array.getElem?_setIfInBounds]
  split
  · split
    · rfl
    · rename_i heq hout
      rw [Array.getElem?_eq_none (by omega)] at h
      exact absurd h (by simp)
  · exact h

theorem extends_markIfNullable (g : Graph α) (table : Array Bool) (id : RuleId) :
    Extends table (g.markIfNullable table id) := by
  rw [markIfNullable]
  split
  · exact ⟨Array.size_setIfInBounds, fun _ h => marks_set_of_marks id.index h⟩
  · exact .refl table

theorem extends_foldl_markIfNullable (g : Graph α) (ids : List RuleId) (table : Array Bool) :
    Extends table (ids.foldl g.markIfNullable table) := by
  induction ids generalizing table with
  | nil => exact .refl table
  | cons id ids ih => exact (extends_markIfNullable g table id).trans (ih _)

theorem extends_sweep (g : Graph α) (table : Array Bool) : Extends table (g.sweep table) :=
  extends_foldl_markIfNullable g g.ids table

/-- If marking rule after rule changes nothing in the end, no single rule changes anything. -/
theorem markIfNullable_eq_of_foldl_eq {ids : List RuleId} {table : Array Bool}
    (h : ids.foldl g.markIfNullable table = table) {id : RuleId} (hid : id ∈ ids) :
    g.markIfNullable table id = table := by
  induction ids with
  | nil => cases hid
  | cons first rest ih =>
      have hrest := extends_foldl_markIfNullable g rest (g.markIfNullable table first)
      rw [List.foldl_cons] at h
      have hfirst : g.markIfNullable table first = table := by
        rw [h] at hrest
        exact (extends_markIfNullable g table first).antisymm hrest
      rw [hfirst] at h
      rcases List.mem_cons.mp hid with rfl | hid
      · exact hfirst
      · exact ih h hid

theorem mem_ids {id : RuleId} : id ∈ g.ids ↔ id.index < g.size := by
  simp only [ids, List.mem_map, List.mem_range]
  constructor
  · rintro ⟨index, hindex, rfl⟩
    exact hindex
  · intro h
    exact ⟨id.index, h, rfl⟩

/-! ## Settling -/

/-- How many rules a table does not mark. -/
def unmarked (g : Graph α) (table : Array Bool) : Nat := g.ids.countP fun id => !marks table id

/-- A table with a further mark leaves fewer rules unmarked. -/
theorem unmarked_lt {table more : Array Bool} (h : Extends table more) {id : RuleId}
    (hid : id ∈ g.ids) (hmore : marks more id = true) (htable : marks table id = false) :
    g.unmarked more < g.unmarked table := by
  have hle (ids : List RuleId) :
      ids.countP (fun id => !marks more id) ≤ ids.countP fun id => !marks table id := by
    refine List.countP_mono_left fun id _ hunmarked => ?_
    rw [Bool.not_eq_true'] at hunmarked ⊢
    exact Bool.eq_false_iff.mpr fun hmarked => by
      simp [h.marks_of_marks id hmarked] at hunmarked
  obtain ⟨before, after, hids⟩ := List.append_of_mem hid
  have hbefore := hle before
  have hafter := hle after
  simp only [unmarked, hids, List.countP_append, List.countP_cons, hmore, htable, Bool.not_true,
    Bool.not_false, if_true, Bool.false_eq_true, if_false]
  omega

/-- A sweep that changes the table marks a rule that was not marked before. -/
theorem unmarked_sweep_lt {table : Array Bool} (hsize : table.size = g.size)
    (h : g.sweep table ≠ table) : g.unmarked (g.sweep table) < g.unmarked table := by
  have hextends := extends_sweep g table
  have hnew : ∃ id, marks (g.sweep table) id ∧ ¬ marks table id := by
    refine Classical.byContradiction fun hnone => h (hextends.antisymm ⟨hextends.size_eq.symm, ?_⟩)
    exact fun id hid => Classical.byContradiction fun hold => hnone ⟨id, hid, hold⟩
  obtain ⟨id, hid, hold⟩ := hnew
  have hindex : id.index < g.size := by
    refine Nat.lt_of_not_le fun hle => ?_
    rw [marks, Array.getElem?_eq_none (by rw [hextends.size_eq, hsize]; exact hle)] at hid
    cases hid
  exact unmarked_lt hextends (mem_ids.mpr hindex) hid (Bool.eq_false_iff.mpr hold)

/-- From a table on, sweeping without a bound comes to an end after so many sweeps: the last of them
changes nothing, and each one before it changes the table. -/
inductive SettlesIn (g : Graph α) : (sweeps : Nat) → (table settled : Array Bool) → Prop
  | last {table : Array Bool} (h : g.sweep table = table) : g.SettlesIn 1 table table
  | more {sweeps : Nat} {table settled : Array Bool} (h : g.sweep table ≠ table)
      (hrest : g.SettlesIn sweeps (g.sweep table) settled) : g.SettlesIn (sweeps + 1) table settled

theorem SettlesIn.sweep_eq {sweeps : Nat} {table settled : Array Bool}
    (h : g.SettlesIn sweeps table settled) : g.sweep settled = settled := by
  induction h with
  | last h => exact h
  | more _ _ ih => exact ih

theorem settle_settlesIn {sweeps : Nat} {table : Array Bool} (hsize : table.size = g.size)
    (h : g.unmarked table < sweeps) :
    ∃ taken ≤ sweeps, g.SettlesIn taken table (g.settle sweeps table) := by
  induction sweeps generalizing table with
  | zero => omega
  | succ sweeps ih =>
      simp only [settle]
      split
      · rename_i heq
        exact ⟨1, Nat.succ_pos sweeps, .last heq⟩
      · rename_i hne
        have hless := unmarked_sweep_lt hsize hne
        obtain ⟨taken, htaken, hsettles⟩ :=
          ih ((extends_sweep g table).size_eq.trans hsize) (by omega)
        exact ⟨taken + 1, Nat.succ_le_succ htaken, .more hne hsettles⟩

/-- The table of nullable rules is what sweeping comes to, after one sweep for each rule and one more
at most. -/
theorem nullableTable_settlesIn (g : Graph α) :
    ∃ sweeps ≤ g.size + 1,
      g.SettlesIn sweeps (Array.replicate g.size false) g.nullableTable := by
  refine settle_settlesIn Array.size_replicate ?_
  calc g.unmarked (Array.replicate g.size false)
      ≤ g.ids.length := List.countP_le_length
    _ = g.size := by rw [ids, List.length_map, List.length_range]
    _ < g.size + 1 := Nat.lt_succ_self g.size

theorem sweep_nullableTable (g : Graph α) : g.sweep g.nullableTable = g.nullableTable := by
  obtain ⟨_, _, hsettles⟩ := nullableTable_settlesIn g
  exact hsettles.sweep_eq

/-- What goes on to hold when a rule is marked holds of what sweeping comes to. -/
theorem SettlesIn.keeps {sweeps : Nat} {table settled : Array Bool} {P : Array Bool → Prop}
    (h : g.SettlesIn sweeps table settled)
    (hmark : ∀ table id, P table → P (g.markIfNullable table id)) (htable : P table) : P settled := by
  have hsweep (ids : List RuleId) (table : Array Bool) (htable : P table) :
      P (ids.foldl g.markIfNullable table) := by
    induction ids generalizing table with
    | nil => exact htable
    | cons id ids ih => exact ih _ (hmark table id htable)
  induction h with
  | last _ => exact htable
  | more _ _ ih => exact ih (hsweep g.ids _ htable)

/-- What holds of the table without marks, and goes on to hold when a rule is marked, holds of the
table of nullable rules. -/
theorem nullableTable_induction {P : Array Bool → Prop}
    (hnone : P (Array.replicate g.size false))
    (hmark : ∀ table id, P table → P (g.markIfNullable table id)) : P g.nullableTable := by
  obtain ⟨_, _, hsettles⟩ := nullableTable_settlesIn g
  exact hsettles.keeps hmark hnone

theorem size_nullableTable (g : Graph α) : g.nullableTable.size = g.size :=
  nullableTable_induction Array.size_replicate fun table id hsize =>
    (extends_markIfNullable g table id).size_eq.trans hsize

theorem marks_of_isNullable {id : RuleId} {rule : Rule α} (hrule : g.rule? id = some rule)
    (h : rule.kind.isNullable (marks g.nullableTable)) : marks g.nullableTable id := by
  have hindex : id.index < g.size := (Array.getElem?_eq_some_iff.mp hrule).1
  have hmark := markIfNullable_eq_of_foldl_eq (sweep_nullableTable g) (mem_ids.mpr hindex)
  rw [markIfNullable, hrule, Option.any_some, if_pos h] at hmark
  rw [← hmark, marks, Array.getElem?_setIfInBounds_self_of_lt (by rwa [size_nullableTable])]
  rfl

/-! ## No mark without a reason -/

theorem not_marks_replicate (size : Nat) (id : RuleId) :
    ¬ marks (Array.replicate size false) id := by
  rw [marks, Array.getElem?_replicate]
  split <;> exact Bool.false_ne_true

theorem eq_or_marks_of_marks_set {table : Array Bool} {index : Nat} {id : RuleId}
    (h : marks (table.setIfInBounds index true) id) : id.index = index ∨ marks table id := by
  unfold marks at h ⊢
  rw [Array.getElem?_setIfInBounds] at h
  split at h
  · rename_i heq
    exact .inl heq.symm
  · exact .inr h

/-- A rule that is marked after another step was marked before or is nullable by the marks so far. -/
theorem marks_or_isNullable_of_marks {table : Array Bool} {id other : RuleId}
    (h : marks (g.markIfNullable table id) other) :
    marks table other ∨ (g.rule? other).any (·.kind.isNullable (marks table)) := by
  rw [markIfNullable] at h
  split at h
  · rename_i hnullable
    rcases eq_or_marks_of_marks_set h with heq | hmarks
    · obtain rfl : other = id := congrArg RuleId.mk heq
      exact .inr hnullable
    · exact .inl hmarks
  · exact .inl h

/-- Every rule that the table marks is nullable by the marks of the table. -/
def Supports (g : Graph α) (table : Array Bool) : Prop :=
  ∀ id, marks table id → (g.rule? id).any (·.kind.isNullable (marks table))

theorem Supports.markIfNullable {table : Array Bool} (h : g.Supports table) (id : RuleId) :
    g.Supports (g.markIfNullable table id) := by
  have hmore := (extends_markIfNullable g table id).marks_of_marks
  intro other hmarks
  have hother : (g.rule? other).any (·.kind.isNullable (marks table)) :=
    (marks_or_isNullable_of_marks hmarks).elim (h other) fun hnullable => hnullable
  obtain ⟨rule, hrule, hnullable⟩ := (Option.any_eq_true _ _).mp hother
  exact (Option.any_eq_true _ _).mpr ⟨rule, hrule, Kind.isNullable_mono hmore hnullable⟩

theorem marks_iff_isNullable {id : RuleId} {rule : Rule α} (hrule : g.rule? id = some rule) :
    marks g.nullableTable id ↔ rule.kind.isNullable (marks g.nullableTable) := by
  refine ⟨fun hmarks => ?_, marks_of_isNullable hrule⟩
  have hsupports : g.Supports g.nullableTable := by
    refine nullableTable_induction (fun id hid => ?_) fun _ id htable => htable.markIfNullable id
    exact absurd hid (not_marks_replicate g.size id)
  simpa [hrule] using hsupports id hmarks

theorem marks_eq_false_of_rule?_eq_none {id : RuleId} (hrule : g.rule? id = none) :
    marks g.nullableTable id = false := by
  have hout : g.size ≤ id.index := Array.getElem?_eq_none_iff.mp hrule
  rw [marks, Array.getElem?_eq_none (by rwa [size_nullableTable])]
  rfl

/-- A valid graph repeats without bound only what the table does not mark. -/
theorem not_marks_of_validate (h : g.validate = .ok ()) {id sub : RuleId} {min : Nat}
    (hkind : g.kind? id = some (.count sub min 0)) : marks g.nullableTable sub = false := by
  have hid : id ∈ g.ids := by
    obtain ⟨rule, hrule, -⟩ := Option.map_eq_some_iff.mp hkind
    exact mem_ids.mpr (Array.getElem?_eq_some_iff.mp hrule).1
  rw [validate] at h
  split at h
  · cases h
  · rename_i hnone
    have hcheck := List.find?_eq_none.mp hnone id hid
    simpa [hkind] using hcheck

end Graph

end RuleScript
