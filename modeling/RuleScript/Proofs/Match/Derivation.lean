import RuleScript.Match.Matcher

/-!
# What rules match, as a relation

`Derives g input id start verdict` says what the rule `id` comes to at `start`, one clause for each
line of the table of kinds.  There is no order of evaluation in it, no limit to the depth of
nesting, no tree and no trace.  A rule that calls itself without end has no derivation.

Evaluations have no clause: they are not among the primitives.  A graph without them, without fatal
logs and without pending references is `Graph.Primitive`.
-/

namespace RuleScript

/-- What a match comes to when only success and length are of interest. -/
def Outcome.verdict : Outcome → Option Nat
  | failure => none
  | success len _ => some len

@[simp] theorem Outcome.verdict_failure : failure.verdict = none := rfl

@[simp] theorem Outcome.verdict_success (len : Nat) (nodes : List Node) :
    (success len nodes).verdict = some len := rfl

@[simp] theorem Outcome.verdict_under (outcome : Outcome) (id : RuleId) (start : Nat) :
    (outcome.under id start).verdict = outcome.verdict := by
  cases outcome with
  | failure => rfl
  | success len nodes => rfl

@[simp] theorem Outcome.verdict_mapNodes (outcome : Outcome) (f : List Node → List Node) :
    (outcome.mapNodes f).verdict = outcome.verdict := by
  cases outcome with
  | failure => rfl
  | success len nodes => rfl

/-! ## Primitive graphs -/

variable {α : Type}

/-- Whether rules of a kind always come to an outcome if the rules inside do, and the outcome is
one that `Derives` has a clause for. -/
def Kind.isPrimitive : Kind α → Bool
  | .evaluation _ | .reference _ none => false
  | .log severity _ _ => severity ≠ .fatal
  | _ => true

/-- A graph without evaluations, fatal logs and references that point nowhere. -/
def Graph.Primitive (g : Graph α) : Prop := ∀ rule ∈ g.rules, rule.kind.isPrimitive

instance (g : Graph α) : Decidable g.Primitive :=
  inferInstanceAs (Decidable (∀ rule ∈ g.rules, _))

theorem Graph.Primitive.kind_isPrimitive {g : Graph α} (h : g.Primitive) {id : RuleId}
    {kind : Kind α} (hkind : g.kind? id = some kind) : kind.isPrimitive := by
  obtain ⟨rule, hrule, rfl⟩ := Option.map_eq_some_iff.mp hkind
  exact h rule (Array.mem_of_getElem? hrule)

/-- Whether rules of a kind come to an outcome that `Derives` has a clause for, if they come to one
at all.  References that point nowhere come to none. -/
def Kind.isOrdinary : Kind α → Bool
  | .evaluation _ => false
  | .log severity _ _ => severity ≠ .fatal
  | _ => true

/-- A graph without evaluations and fatal logs. -/
def Graph.Ordinary (g : Graph α) : Prop := ∀ rule ∈ g.rules, rule.kind.isOrdinary

theorem Graph.Ordinary.kind_isOrdinary {g : Graph α} (h : g.Ordinary) {id : RuleId}
    {kind : Kind α} (hkind : g.kind? id = some kind) : kind.isOrdinary := by
  obtain ⟨rule, hrule, rfl⟩ := Option.map_eq_some_iff.mp hkind
  exact h rule (Array.mem_of_getElem? hrule)

theorem Kind.isOrdinary_of_isPrimitive {kind : Kind α} (h : kind.isPrimitive) :
    kind.isOrdinary := by
  cases kind with
  | evaluation => exact h
  | log => exact h
  | _ => rfl

theorem Graph.Primitive.ordinary {g : Graph α} (h : g.Primitive) : g.Ordinary :=
  fun rule hrule => Kind.isOrdinary_of_isPrimitive (h rule hrule)

/-! ## The relation -/

section Relation

variable [Element α] (g : Graph α) (input : Array α)

mutual

/-- What a rule comes to at a position: the length of its match, or none if it fails. -/
inductive Derives : RuleId → Nat → Option Nat → Prop
  | unknown {id : RuleId} {start : Nat} (hkind : g.kind? id = none) : Derives id start none
  | any {id : RuleId} {start min max : Nat} (hkind : g.kind? id = some (.any min max)) :
      Derives id start
        (if input.size - start < min then none
        else some (if max = 0 then input.size - start else Nat.min (input.size - start) max))
  | single {id : RuleId} {start : Nat} {value : α} (hkind : g.kind? id = some (.single value)) :
      Derives id start (if input[start]? = some value then some 1 else none)
  | set {id : RuleId} {start : Nat} {values : List α} (hkind : g.kind? id = some (.set values)) :
      Derives id start (if ∃ e ∈ input[start]?, e ∈ values then some 1 else none)
  | range {id : RuleId} {start : Nat} {lo hi : α} (hkind : g.kind? id = some (.range lo hi)) :
      Derives id start
        (if ∃ e ∈ input[start]?, Element.code lo ≤ Element.code e ∧ Element.code e ≤ Element.code hi
        then some 1 else none)
  | literal {id : RuleId} {start : Nat} {values : List α}
      (hkind : g.kind? id = some (.literal values)) :
      Derives id start
        (if values <+: input.toList.drop start then some values.length else none)
  | sequence {id : RuleId} {start : Nat} {subs : List RuleId} {verdict : Option Nat}
      (hkind : g.kind? id = some (.sequence subs)) (h : InOrder subs start verdict) :
      Derives id start verdict
  | oneOf {id : RuleId} {start : Nat} {subs : List RuleId} {verdict : Option Nat}
      (hkind : g.kind? id = some (.oneOf subs)) (h : FirstOf subs start verdict) :
      Derives id start verdict
  /-- The rule matched as often as it may. -/
  | countFull {id one : RuleId} {start min max len : Nat}
      (hkind : g.kind? id = some (.count one min max)) (hmax : max ≠ 0)
      (h : Repeats one max start len) :
      Derives id start (if max < min then none else some len)
  /-- The rule matched until it failed. -/
  | countOver {id one : RuleId} {start min max reps len : Nat}
      (hkind : g.kind? id = some (.count one min max)) (hroom : max = 0 ∨ reps < max)
      (h : Repeats one reps start len) (hover : Derives one (start + len) none) :
      Derives id start (if reps < min then none else some len)
  /-- The rule came to match nothing, and would go on doing so. -/
  | countEndless {id one : RuleId} {start min reps len : Nat}
      (hkind : g.kind? id = some (.count one min 0)) (h : Repeats one reps start len)
      (hempty : Derives one (start + len) (some 0)) :
      Derives id start none
  /-- The rule came to match nothing, which makes up for all matches still missing. -/
  | countFilled {id one : RuleId} {start min max reps len : Nat}
      (hkind : g.kind? id = some (.count one min max)) (hroom : reps < max)
      (h : Repeats one reps start len) (hempty : Derives one (start + len) (some 0)) :
      Derives id start (some len)
  | not {id one : RuleId} {start : Nat} {verdict : Option Nat}
      (hkind : g.kind? id = some (.not one)) (h : Derives one start verdict) :
      Derives id start (if verdict.isSome then none else some 0)
  | condition {id one : RuleId} {start : Nat} {verdict : Option Nat}
      (hkind : g.kind? id = some (.condition one)) (h : Derives one start verdict) :
      Derives id start (verdict.map fun _ => 0)
  /-- The first match of `stop` lies `passed` elements ahead, perhaps at the end of the input. -/
  | skipFound {id stop : RuleId} {start passed len : Nat} {stopBefore failOnEnd : Bool}
      (hkind : g.kind? id = some (.skip stop stopBefore failOnEnd))
      (hpassed : passed ≤ input.size - start)
      (hbefore : ∀ before < passed, Derives stop (start + before) none)
      (hstop : Derives stop (start + passed) (some len)) :
      Derives id start (some (if stopBefore then passed else passed + len))
  | skipEnd {id stop : RuleId} {start : Nat} {stopBefore failOnEnd : Bool}
      (hkind : g.kind? id = some (.skip stop stopBefore failOnEnd))
      (hnowhere : ∀ passed ≤ input.size - start, Derives stop (start + passed) none) :
      Derives id start (if failOnEnd then none else some (input.size - start))
  | log {id : RuleId} {start : Nat} {severity : Severity} {message : String}
      (hkind : g.kind? id = some (.log severity message none)) :
      Derives id start (some 0)
  | guardedLog {id guard : RuleId} {start : Nat} {severity : Severity} {message : String}
      {verdict : Option Nat} (hkind : g.kind? id = some (.log severity message (some guard)))
      (h : Derives guard start verdict) :
      Derives id start (some 0)
  | breakpoint {id subject : RuleId} {start : Nat} {verdict : Option Nat}
      (hkind : g.kind? id = some (.breakpoint subject)) (h : Derives subject start verdict) :
      Derives id start verdict
  | reference {id subject : RuleId} {start : Nat} {target : String} {verdict : Option Nat}
      (hkind : g.kind? id = some (.reference target (some subject)))
      (h : Derives subject start verdict) :
      Derives id start verdict

/-- Rules that match one after the other, or the first of them that fails. -/
inductive InOrder : List RuleId → Nat → Option Nat → Prop
  | nil {start : Nat} : InOrder [] start (some 0)
  | failure {id : RuleId} {ids : List RuleId} {start : Nat} (h : Derives id start none) :
      InOrder (id :: ids) start none
  | success {id : RuleId} {ids : List RuleId} {start len : Nat} {verdict : Option Nat}
      (h : Derives id start (some len)) (hrest : InOrder ids (start + len) verdict) :
      InOrder (id :: ids) start (verdict.map (len + ·))

/-- The first of some rules that matches. -/
inductive FirstOf : List RuleId → Nat → Option Nat → Prop
  | nil {start : Nat} : FirstOf [] start none
  | failure {id : RuleId} {ids : List RuleId} {start : Nat} {verdict : Option Nat}
      (h : Derives id start none) (hrest : FirstOf ids start verdict) :
      FirstOf (id :: ids) start verdict
  | success {id : RuleId} {ids : List RuleId} {start len : Nat}
      (h : Derives id start (some len)) :
      FirstOf (id :: ids) start (some len)

/-- A rule that matches a number of times in a row, each time something, and how much in all. -/
inductive Repeats : RuleId → Nat → Nat → Nat → Prop
  | zero {one : RuleId} {start : Nat} : Repeats one 0 start 0
  | succ {one : RuleId} {reps start len more : Nat} (h : Repeats one reps start len)
      (hone : Derives one (start + len) (some more)) (hmore : more ≠ 0) :
      Repeats one (reps + 1) start (len + more)

end

end Relation

/-! ## Lengths -/

variable [Element α] {g : Graph α} {input : Array α}

mutual

/-- Nothing derives a match that goes on after the end of the input. -/
theorem Derives.len_le {id : RuleId} {start : Nat} {verdict : Option Nat} :
    Derives g input id start verdict → ∀ len ∈ verdict, len ≤ input.size - start
  | .unknown _ => by simp
  | .any _ => by
      intro len hlen
      split at hlen
      · cases hlen
      · cases hlen
        split
        · exact Nat.le_refl _
        · exact Nat.min_le_left _ _
  | .single _ => by
      intro len hlen
      split at hlen
      · rename_i hvalue
        have hstart := (Array.getElem?_eq_some_iff.mp hvalue).1
        cases hlen
        omega
      · cases hlen
  | .set _ | .range _ => by
      intro len hlen
      split at hlen
      · rename_i helement
        obtain ⟨e, he, -⟩ := helement
        have hstart := (Array.getElem?_eq_some_iff.mp he).1
        cases hlen
        omega
      · cases hlen
  | .literal _ => by
      intro len hlen
      split at hlen
      · rename_i hvalues
        cases hlen
        have hle := hvalues.length_le
        rw [List.length_drop, Array.length_toList] at hle
        exact hle
      · cases hlen
  | .sequence _ h => h.len_le
  | .oneOf _ h => h.len_le
  | .countFull _ _ h | .countOver _ _ h _ => by
      intro len hlen
      split at hlen
      · cases hlen
      · cases hlen
        exact h.len_le
  | .countEndless .. => by simp
  | .countFilled _ _ h _ => by
      intro len hlen
      cases hlen
      exact h.len_le
  | .not _ _ => by
      intro len hlen
      split at hlen
      · cases hlen
      · cases hlen
        exact Nat.zero_le _
  | .condition _ _ => by
      intro len hlen
      obtain ⟨_, _, rfl⟩ := Option.map_eq_some_iff.mp hlen
      exact Nat.zero_le _
  -- The stop has matched at its place, and what it consumes lies inside.
  | .skipFound _ hpassed _ hstop => by
      have hle := hstop.len_le _ rfl
      intro len hlen
      cases hlen
      split
      · exact hpassed
      · omega
  | .skipEnd _ _ => by
      intro len hlen
      split at hlen
      · cases hlen
      · cases hlen
        exact Nat.le_refl _
  | .log _ | .guardedLog _ _ => by
      intro len hlen
      cases hlen
      exact Nat.zero_le _
  | .breakpoint _ h => h.len_le
  | .reference _ h => h.len_le

theorem InOrder.len_le {ids : List RuleId} {start : Nat} {verdict : Option Nat} :
    InOrder g input ids start verdict → ∀ len ∈ verdict, len ≤ input.size - start
  | .nil => by simp
  | .failure _ => by simp
  | .success h hrest => by
      have hle := h.len_le _ rfl
      intro len hlen
      obtain ⟨more, hmore, rfl⟩ := Option.map_eq_some_iff.mp hlen
      have hle' := hrest.len_le more hmore
      omega

theorem FirstOf.len_le {ids : List RuleId} {start : Nat} {verdict : Option Nat} :
    FirstOf g input ids start verdict → ∀ len ∈ verdict, len ≤ input.size - start
  | .nil => by simp
  | .failure _ hrest => hrest.len_le
  | .success h => h.len_le

theorem Repeats.len_le {one : RuleId} {reps start len : Nat} :
    Repeats g input one reps start len → len ≤ input.size - start
  | .zero => Nat.zero_le _
  | .succ h hone _ => by
      have hle := h.len_le
      have hle' := hone.len_le _ rfl
      omega

end

/-- Each match in a row consumes something. -/
theorem Repeats.reps_le {one : RuleId} {reps start len : Nat} :
    Repeats g input one reps start len → reps ≤ len
  | .zero => Nat.le_refl 0
  | .succ h _ hmore => by
      have hle := h.reps_le
      omega

/-! ## Inversion -/

section Inversion

variable {id : RuleId} {start len : Nat} {verdict : Option Nat}

theorem Derives.inOrder {subs : List RuleId} (hkind : g.kind? id = some (.sequence subs))
    (h : Derives g input id start verdict) : InOrder g input subs start verdict := by
  cases h <;> simp_all

theorem Derives.verdict_single {value : α} (hkind : g.kind? id = some (.single value))
    (h : Derives g input id start verdict) :
    verdict = if input[start]? = some value then some 1 else none := by
  cases h <;> simp_all

theorem Derives.verdict_set {values : List α} (hkind : g.kind? id = some (.set values))
    (h : Derives g input id start verdict) :
    verdict = if ∃ e ∈ input[start]?, e ∈ values then some 1 else none := by
  cases h <;> simp_all

theorem Derives.verdict_range {lo hi : α} (hkind : g.kind? id = some (.range lo hi))
    (h : Derives g input id start verdict) :
    verdict = if ∃ e ∈ input[start]?, Element.code lo ≤ Element.code e ∧ Element.code e ≤ Element.code hi
      then some 1 else none := by
  cases h <;> simp_all

theorem Derives.of_not {one : RuleId} (hkind : g.kind? id = some (.not one))
    (h : Derives g input id start verdict) :
    ∃ seen, Derives g input one start seen ∧ verdict = if seen.isSome then none else some 0 := by
  cases h with
  | not hkind' h =>
      cases hkind.symm.trans hkind'
      exact ⟨_, h, rfl⟩
  | _ => simp_all

theorem Derives.verdict_not {one : RuleId} (hkind : g.kind? id = some (.not one))
    (h : Derives g input id start verdict) : verdict = none ∨ verdict = some 0 := by
  obtain ⟨seen, -, rfl⟩ := h.of_not hkind
  split <;> simp

theorem Derives.verdict_literal {values : List α} (hkind : g.kind? id = some (.literal values))
    (h : Derives g input id start verdict) :
    verdict = if values <+: input.toList.drop start then some values.length else none := by
  cases h <;> simp_all

theorem Derives.verdict_any {min max : Nat} (hkind : g.kind? id = some (.any min max))
    (h : Derives g input id start verdict) :
    verdict = if input.size - start < min then none
      else some (if max = 0 then input.size - start else Nat.min (input.size - start) max) := by
  cases h <;> simp_all

theorem Derives.firstOf {subs : List RuleId} (hkind : g.kind? id = some (.oneOf subs))
    (h : Derives g input id start verdict) : FirstOf g input subs start verdict := by
  cases h <;> simp_all

/-- A repetition without bound goes on until the rule fails or matches nothing. -/
theorem Derives.count_cases {one : RuleId} {min : Nat}
    (hkind : g.kind? id = some (.count one min 0)) (h : Derives g input id start verdict) :
    ∃ reps len, Repeats g input one reps start len ∧
      (Derives g input one (start + len) none ∧
          verdict = (if reps < min then none else some len) ∨
        Derives g input one (start + len) (some 0) ∧ verdict = none) := by
  cases h with
  | countOver hkind' hroom hrepeats hover =>
      cases hkind.symm.trans hkind'
      exact ⟨_, _, hrepeats, .inl ⟨hover, rfl⟩⟩
  | countEndless hkind' hrepeats hempty =>
      cases hkind.symm.trans hkind'
      exact ⟨_, _, hrepeats, .inr ⟨hempty, rfl⟩⟩
  | countFull hkind' hmax hrepeats => simp_all
  | countFilled hkind' hroom hrepeats hempty => simp_all
  | _ => simp_all

/-- A repetition without bound that matches is made of as many matches as there have to be. -/
theorem Derives.exists_repeats {one : RuleId} {min : Nat}
    (hkind : g.kind? id = some (.count one min 0)) (h : Derives g input id start (some len)) :
    ∃ reps, min ≤ reps ∧ Repeats g input one reps start len := by
  obtain ⟨reps, len', hrepeats, ⟨-, hverdict⟩ | ⟨-, hverdict⟩⟩ := h.count_cases hkind
  · split at hverdict
    · cases hverdict
    · cases hverdict
      exact ⟨reps, by omega, hrepeats⟩
  · cases hverdict

/-- A skip ends at the first match of what it skips to, or finds none. -/
theorem Derives.skip_cases {stop : RuleId} {stopBefore failOnEnd : Bool}
    (hkind : g.kind? id = some (.skip stop stopBefore failOnEnd))
    (h : Derives g input id start verdict) :
    (∃ passed len, passed ≤ input.size - start ∧
      (∀ before < passed, Derives g input stop (start + before) none) ∧
      Derives g input stop (start + passed) (some len) ∧
      verdict = some (if stopBefore then passed else passed + len)) ∨
    (∀ passed ≤ input.size - start, Derives g input stop (start + passed) none) ∧
      verdict = if failOnEnd then none else some (input.size - start) := by
  cases h with
  | skipFound hkind' hpassed hbefore hstop =>
      cases hkind.symm.trans hkind'
      exact .inl ⟨_, _, hpassed, hbefore, hstop, rfl⟩
  | skipEnd hkind' hnowhere =>
      cases hkind.symm.trans hkind'
      exact .inr ⟨hnowhere, rfl⟩
  | _ => simp_all

/-- The first of some rules that matches is one of them. -/
theorem FirstOf.exists_mem {ids : List RuleId} :
    FirstOf g input ids start (some len) → ∃ id ∈ ids, Derives g input id start (some len)
  | .failure _ hrest => by
      obtain ⟨id, hid, h⟩ := hrest.exists_mem
      exact ⟨id, List.mem_cons_of_mem _ hid, h⟩
  | .success h => ⟨_, List.mem_cons_self, h⟩

theorem InOrder.of_cons {ids : List RuleId} (h : InOrder g input (id :: ids) start (some len)) :
    ∃ len' more, Derives g input id start (some len') ∧
      InOrder g input ids (start + len') (some more) ∧ len = len' + more := by
  generalize hverdict : some len = verdict at h
  cases h with
  | failure h => cases hverdict
  | success h hrest =>
      obtain ⟨more, rfl, hlen⟩ := Option.map_eq_some_iff.mp hverdict.symm
      exact ⟨_, more, h, hrest, hlen.symm⟩

end Inversion

end RuleScript
