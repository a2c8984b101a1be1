import RuleScript.Proofs.Match.Adequacy
import RuleScript.Proofs.Match.EmptyMatch
import RuleScript.Proofs.Script.Drafting

/-!
# Rules that stand for expressions match what these mean

In a graph whose rules stand for what is declared (`Implements`), a rule comes to what the expression
means that it stands for, and to nothing else (`Implements.derives_iff`), so a match comes to that as
soon as it may go deep enough (`Implements.matchAt_iff`).

The two differ in how they repeat.  A rule that matches nothing is not tried again: that fills up a
repetition that is bounded, where an expression would go on matching nothing at the same place, and it
does not happen where there is no bound, because then such a rule does not validate.
-/

namespace RuleScript

namespace Script

/-! ## Graphs for declarations -/

/-- A rule of a graph stands for a parsing expression. -/
def StandsAt (g : Graph Char) (id : RuleId) (one : Peg) : Prop :=
  ∃ kind, g.kind? id = some kind ∧ StandsFor g.idOf? g kind one

/-- A rule stands for a parsing expression, or refers to a rule that does. -/
def LeadsTo (g : Graph Char) (id : RuleId) (one : Peg) : Prop :=
  StandsAt g id one ∨
    ∃ label inner, g.kind? id = some (.reference label (some inner)) ∧ StandsAt g inner one

/-- The named rules of a graph are the declared ones, and each stands for what it is declared to be. -/
structure Implements (decls : String → Peg → Prop) (g : Graph Char) : Prop where
  ordinary : g.Ordinary
  declared : ∀ name body, decls name body → ∃ id, g.idOf? name = some id ∧ LeadsTo g id body
  named : ∀ name id, g.idOf? name = some id → ∃ body, decls name body
  consumes : ∀ id one min, g.kind? id = some (.count one min 0) →
    ∀ input start, ¬ Derives g input one start (some 0)

/-- In a valid graph no rule is repeated without bound that can match nothing. -/
theorem not_derives_empty_of_validate {g : Graph Char} (hordinary : g.Ordinary)
    (hvalid : g.validate = .ok ()) {id one : RuleId} {min : Nat}
    (hkind : g.kind? id = some (.count one min 0)) (input : Array Char) (start : Nat) :
    ¬ Derives g input one start (some 0) := by
  intro hempty
  obtain ⟨limit, outcome, trace, hmatch, hverdict⟩ := (hempty.settles hordinary).exists_matchAt
  have hmatches : g.MatchesEmpty one := by
    cases outcome with
    | failure => cases hverdict
    | success len nodes =>
        obtain rfl : len = 0 := Option.some.inj hverdict
        exact ⟨input, limit, start, nodes, congrArg Prod.fst hmatch⟩
  -- Without evaluations there is no operand that could be empty without being marked.
  have hcovered (sub : RuleId) : g.OperandsCovered sub := by
    intro operand hoperand
    rw [Graph.operandsOf] at hoperand
    split at hoperand
    · rename_i hevaluation
      exact (Bool.false_ne_true (hordinary.kind_isOrdinary hevaluation)).elim
    · exact (List.not_mem_nil hoperand).elim
  have hmarks := Graph.marks_of_matchesEmpty hvalid (fun sub _ => hcovered sub) hmatches
  rw [Graph.not_marks_of_validate hvalid hkind] at hmarks
  cases hmarks

section Standing

variable {decls : String → Peg → Prop} {g : Graph Char} {input : Array Char}

/-! ## What is meant is derived -/

theorem AllStandFor.stands {ids : List RuleId} {part : Peg} {parts : List Peg}
    (h : AllStandFor g.idOf? g ids (part :: parts)) :
    ∃ id rest, ids = id :: rest ∧ StandsAt g id part ∧ AllStandFor g.idOf? g rest parts := by
  cases h with
  | cons hid h hrest => exact ⟨_, _, rfl, ⟨_, hid, h⟩, hrest⟩

/-- If rules match in a row, some of them perhaps nothing, then they do so up to the first that matches
nothing. -/
def RepeatsOrStalls (g : Graph Char) (input : Array Char) (id : RuleId) (reps start len : Nat) : Prop :=
  Repeats g input id reps start len ∨
    ∃ fewer < reps, Repeats g input id fewer start len ∧ Derives g input id (start + len) (some 0)

theorem RepeatsOrStalls.succ (hordinary : g.Ordinary) {id : RuleId} {reps start len more : Nat}
    (h : RepeatsOrStalls g input id reps start len)
    (hone : Derives g input id (start + len) (some more)) :
    RepeatsOrStalls g input id (reps + 1) start (len + more) := by
  rcases h with hrepeats | ⟨fewer, hfewer, hrepeats, hempty⟩
  · by_cases hmore : more = 0
    · subst hmore
      exact .inr ⟨reps, Nat.lt_succ_self _, hrepeats, hone⟩
    · exact .inl (.succ hrepeats hone hmore)
  · obtain rfl : more = 0 := Option.some.inj (hone.functional hordinary hempty)
    exact .inr ⟨fewer, Nat.lt_succ_of_lt hfewer, hrepeats, hempty⟩

theorem Peg.AllMean.verdict_nil {parts : List Peg} {start : Nat} {verdict : Option Nat}
    (h : Peg.AllMean decls input parts start verdict) (hparts : parts = []) : verdict = some 0 := by
  cases h with
  | nil => rfl
  | failure => cases hparts
  | success => cases hparts

/-! ### Rules for each form -/

section Forms

variable {id : RuleId} {start : Nat} {verdict : Option Nat} {one : Peg}

/-- Only for a sequence of one part there need not be a rule of the form that goes with it. -/
theorem StandsAt.madeFor (h : StandsAt g id one) (hone : ∀ part, one ≠ .sequence [part]) :
    ∃ kind, g.kind? id = some kind ∧ MadeFor g.idOf? g kind one := by
  obtain ⟨kind, hkind, hstands⟩ := h
  cases hstands with
  | rule hmade => exact ⟨kind, hkind, hmade⟩
  | only => exact absurd rfl (hone _)

theorem StandsAt.sequence {parts : List Peg} (h : StandsAt g id (.sequence parts)) :
    (∃ ids, g.kind? id = some (.sequence ids) ∧ AllStandFor g.idOf? g ids parts) ∨
      ∃ part, parts = [part] ∧ StandsAt g id part := by
  obtain ⟨kind, hkind, hstands⟩ := h
  cases hstands with
  | rule hmade =>
      cases hmade with
      | sequence hall => exact .inl ⟨_, hkind, hall⟩
  | only hpart => exact .inr ⟨_, rfl, kind, hkind, hpart⟩

theorem LeadsTo.derives {body : Peg} (h : LeadsTo g id body)
    (hbody : ∀ id, StandsAt g id body → Derives g input id start verdict) :
    Derives g input id start verdict := by
  rcases h with h | ⟨label, inner, hkind, h⟩
  · exact hbody id h
  · exact .reference hkind (hbody inner h)

theorem range_verdict {lo hi : String} {first last : Char} (hlo : lo.toList = [first])
    (hhi : hi.toList = [last]) (input : Array Char) (start : Nat)
    [Decidable (∃ c ∈ input[start]?, Element.code first ≤ Element.code c ∧
      Element.code c ≤ Element.code last)] :
    (if ∃ c ∈ input[start]?, Element.code first ≤ Element.code c ∧ Element.code c ≤ Element.code last
      then some 1 else none) =
      if input[start]?.any fun c => [SetItem.range lo hi].any (·.admits c) then some 1 else none := by
  refine if_congr ?_ rfl rfl
  cases input[start]? <;> simp [SetItem.admits, hlo, hhi, Element.code]

theorem set_verdict {items : List SetItem} {values : List Char}
    (h : ∀ c, c ∈ values ↔ items.any (·.admits c)) (input : Array Char) (start : Nat)
    [Decidable (∃ c ∈ input[start]?, c ∈ values)] :
    (if ∃ c ∈ input[start]?, c ∈ values then some 1 else none) =
      if input[start]?.any fun c => items.any (·.admits c) then some 1 else none := by
  refine if_congr ?_ rfl rfl
  cases input[start]? <;> simp [h]

theorem any_verdict (size start : Nat) :
    (if size - start < 1 then none
      else some (if 1 = 0 then size - start else Nat.min (size - start) 1)) =
      if start < size then some 1 else none := by
  by_cases hstart : start < size
  · rw [if_pos hstart, if_neg (by omega), if_neg Nat.one_ne_zero]
    exact congrArg some (Nat.min_eq_right (by omega))
  · rw [if_neg hstart, if_pos (by omega)]

theorem MadeFor.derives_oneOf {kind : Kind Char} {items : List SetItem}
    (h : MadeFor g.idOf? g kind (.oneOf items)) (hkind : g.kind? id = some kind) :
    Derives g input id start
      (if input[start]?.any fun c => items.any (·.admits c) then some 1 else none) := by
  cases h with
  | range hlo hhi =>
      have hrange : Derives g input id start _ := .range hkind
      rwa [range_verdict hlo hhi] at hrange
  | set hvalues =>
      have hset : Derives g input id start _ := .set hkind
      rwa [set_verdict hvalues] at hset

theorem derives_any (hkind : g.kind? id = some (.any 1 1)) :
    Derives g input id start (if start < input.size then some 1 else none) := by
  rw [← any_verdict]
  exact .any hkind

theorem derives_full {inner : RuleId} {min max len : Nat}
    (hkind : g.kind? id = some (.count inner min max))
    (hmax : 0 < max ∧ min ≤ max) (h : RepeatsOrStalls g input inner max start len) :
    Derives g input id start (if max < min then none else some len) := by
  rcases h with hrepeats | ⟨fewer, hfewer, hrepeats, hempty⟩
  · exact .countFull hkind hmax.1.ne' hrepeats
  · rw [if_neg (Nat.not_lt.mpr hmax.2)]
    exact .countFilled hkind hfewer hrepeats hempty

theorem room_of_forall_lt {reps : Nat} {max : Option Nat} (h : ∀ most ∈ max, reps < most) :
    max.getD 0 = 0 ∨ reps < max.getD 0 := by
  cases max with
  | none => exact .inl rfl
  | some most => exact .inr (h most rfl)

theorem derives_over {inner : RuleId} {min bound reps len : Nat} (hordinary : g.Ordinary)
    (hkind : g.kind? id = some (.count inner min bound)) (hroom : bound = 0 ∨ reps < bound)
    (h : RepeatsOrStalls g input inner reps start len)
    (hover : Derives g input inner (start + len) none) :
    Derives g input id start (if reps < min then none else some len) := by
  rcases h with hrepeats | ⟨fewer, hfewer, hrepeats, hempty⟩
  · exact .countOver hkind hroom hrepeats hover
  · exact nomatch hover.functional hordinary hempty

theorem derives_found {stop : RuleId} {form : SkipForm} {passed len : Nat}
    (hkind : g.kind? id = some (skipOf stop form)) (hpassed : passed ≤ input.size - start)
    (hbefore : ∀ before < passed, Derives g input stop (start + before) none)
    (hstop : Derives g input stop (start + passed) (some len)) :
    Derives g input id start (some (form.reach passed len)) := by
  cases form <;> exact .skipFound hkind hpassed hbefore hstop

theorem derives_end {stop : RuleId} {form : SkipForm} (hkind : g.kind? id = some (skipOf stop form))
    (hnowhere : ∀ passed ≤ input.size - start, Derives g input stop (start + passed) none) :
    Derives g input id start (form.atEnd (input.size - start)) := by
  cases form <;> exact .skipEnd hkind hnowhere

end Forms

section Derived

mutual

/-- What an expression means, the rules that stand for it come to. -/
theorem Peg.Means.derives (himplements : Implements decls g) {one : Peg} {start : Nat}
    {verdict : Option Nat} :
    Peg.Means decls input one start verdict → ∀ id, StandsAt g id one →
      Derives g input id start verdict
  | .name hdecl h => fun id hid => by
      have hbody := h.derives himplements
      -- A name is read through the reference to the rule that declares it.
      obtain ⟨found, hfound, hleads⟩ := himplements.declared _ _ hdecl
      obtain ⟨kind, hkind, hmade⟩ := hid.madeFor fun _ h => nomatch h
      cases hmade
      rw [hfound] at hkind
      exact .reference hkind (hleads.derives hbody)
  | .text => fun id hid => by
      obtain ⟨kind, hkind, hmade⟩ := hid.madeFor fun _ h => nomatch h
      cases hmade
      exact .literal hkind
  | .oneOf => fun id hid => by
      obtain ⟨kind, hkind, hmade⟩ := hid.madeFor fun _ h => nomatch h
      exact hmade.derives_oneOf hkind
  | .any => fun id hid => by
      obtain ⟨kind, hkind, hmade⟩ := hid.madeFor fun _ h => nomatch h
      cases hmade
      exact derives_any hkind
  | .sequence h => fun id hid => by
      obtain ⟨hrow, honly⟩ := h.inOrder himplements
      -- A sequence of one part is drafted as that part alone.
      rcases hid.sequence with ⟨ids, hkind, hall⟩ | ⟨part, hpart, hid⟩
      · exact .sequence hkind (hrow ids hall)
      · exact honly part hpart id hid
  | .choice h => fun id hid => by
      have hfirst := h.firstOf himplements
      obtain ⟨kind, hkind, hmade⟩ := hid.madeFor fun _ h => nomatch h
      cases hmade with
      | choice hall => exact .oneOf hkind (hfirst _ hall)
  | .repeatFull h => fun id hid => by
      have hrepeats := h.repeats himplements
      obtain ⟨kind, hkind, hmade⟩ := hid.madeFor fun _ h => nomatch h
      cases hmade with
      | repetition hbound hmax hinner hstands =>
          subst hbound
          exact derives_full hkind (hmax _ rfl) (hrepeats _ ⟨_, hinner, hstands⟩)
  | .repeatOver hroom h hover => fun id hid => by
      have hrepeats := h.repeats himplements
      have hover := hover.derives himplements
      obtain ⟨kind, hkind, hmade⟩ := hid.madeFor fun _ h => nomatch h
      cases hmade with
      | repetition hbound hmax hinner hstands =>
          subst hbound
          exact derives_over himplements.ordinary hkind (room_of_forall_lt hroom)
            (hrepeats _ ⟨_, hinner, hstands⟩) (hover _ ⟨_, hinner, hstands⟩)
  | .not h => fun id hid => by
      have hone := h.derives himplements
      obtain ⟨kind, hkind, hmade⟩ := hid.madeFor fun _ h => nomatch h
      cases hmade with
      | not hinner hstands => exact .not hkind (hone _ ⟨_, hinner, hstands⟩)
  | .ahead h => fun id hid => by
      have hone := h.derives himplements
      obtain ⟨kind, hkind, hmade⟩ := hid.madeFor fun _ h => nomatch h
      cases hmade with
      | ahead hinner hstands => exact .condition hkind (hone _ ⟨_, hinner, hstands⟩)
  | .skipFound hpassed hbefore hstop => fun id hid => by
      have hbefore := fun before h => (hbefore before h).derives himplements
      have hstop := hstop.derives himplements
      obtain ⟨kind, hkind, hmade⟩ := hid.madeFor fun _ h => nomatch h
      cases hmade with
      | skip hform hinner hstands =>
          exact derives_found (hform ▸ hkind) hpassed
            (fun before h => hbefore before h _ ⟨_, hinner, hstands⟩) (hstop _ ⟨_, hinner, hstands⟩)
  | .skipEnd hnowhere => fun id hid => by
      have hnowhere := fun passed h => (hnowhere passed h).derives himplements
      obtain ⟨kind, hkind, hmade⟩ := hid.madeFor fun _ h => nomatch h
      cases hmade with
      | skip hform hinner hstands =>
          exact derives_end (hform ▸ hkind) fun passed h => hnowhere passed h _ ⟨_, hinner, hstands⟩
  | .log => fun id hid => by
      obtain ⟨kind, hkind, hmade⟩ := hid.madeFor fun _ h => nomatch h
      cases hmade
      exact .log hkind
  | .logIf h => fun id hid => by
      have hguard := h.derives himplements
      obtain ⟨kind, hkind, hmade⟩ := hid.madeFor fun _ h => nomatch h
      cases hmade with
      | logIf _ hinner hstands => exact .guardedLog hkind (hguard _ ⟨_, hinner, hstands⟩)

theorem Peg.AllMean.inOrder (himplements : Implements decls g) {parts : List Peg} {start : Nat}
    {verdict : Option Nat} :
    Peg.AllMean decls input parts start verdict →
      (∀ ids, AllStandFor g.idOf? g ids parts → InOrder g input ids start verdict) ∧
        ∀ part, parts = [part] → ∀ id, StandsAt g id part → Derives g input id start verdict
  | .nil => ⟨fun ids h => by cases h; exact .nil, fun _ h => nomatch h⟩
  | .failure h => by
      have hone := h.derives himplements
      refine ⟨fun ids hall => ?_, fun part hpart => ?_⟩
      · obtain ⟨id, rest, rfl, hid, -⟩ := hall.stands
        exact .failure (hone id hid)
      · exact List.head_eq_of_cons_eq hpart ▸ hone
  | .success h hrest => by
      have hone := h.derives himplements
      have hmore := (hrest.inOrder himplements).1
      refine ⟨fun ids hall => ?_, fun part hpart => ?_⟩
      · obtain ⟨id, rest, rfl, hid, hall⟩ := hall.stands
        exact .success (hone id hid) (hmore rest hall)
      · obtain ⟨rfl, hnil⟩ := List.cons_eq_cons.mp hpart
        rw [hrest.verdict_nil hnil]
        exact hone

theorem Peg.FirstMeans.firstOf (himplements : Implements decls g) {alternatives : List Peg}
    {start : Nat} {verdict : Option Nat} :
    Peg.FirstMeans decls input alternatives start verdict →
      ∀ ids, AllStandFor g.idOf? g ids alternatives → FirstOf g input ids start verdict
  | .nil => fun ids hall => by
      cases hall
      exact .nil
  | .failure h hrest => fun ids hall => by
      have hone := h.derives himplements
      have hmore := hrest.firstOf himplements
      obtain ⟨id, rest, rfl, hid, hall⟩ := hall.stands
      exact .failure (hone id hid) (hmore rest hall)
  | .success h => fun ids hall => by
      have hone := h.derives himplements
      obtain ⟨id, rest, rfl, hid, -⟩ := hall.stands
      exact .success (hone id hid)

theorem Peg.TimesMean.repeats (himplements : Implements decls g) {one : Peg} {reps start len : Nat} :
    Peg.TimesMean decls input one reps start len → ∀ id, StandsAt g id one →
      RepeatsOrStalls g input id reps start len
  | .zero => fun _ _ => .inl .zero
  | .succ h hone => fun id hid =>
      (h.repeats himplements id hid).succ himplements.ordinary (hone.derives himplements id hid)

end

end Derived

/-! ## What is derived is meant -/

section Forms

variable {id : RuleId} {start : Nat} {verdict : Option Nat} {one : Peg}

theorem Peg.Means.only {part : Peg} (h : Peg.Means decls input part start verdict) :
    Peg.Means decls input (.sequence [part]) start verdict := by
  cases verdict with
  | none => exact .sequence (.failure h)
  | some len => exact .sequence (.success h .nil)

/-- Whatever the second expression means, the first does. -/
def Peg.Wraps (one core : Peg) : Prop :=
  ∀ {decls : String → Peg → Prop} {input : Array Char} {start : Nat} {verdict : Option Nat},
    Peg.Means decls input core start verdict → Peg.Means decls input one start verdict

/-- Rules that stand for an expression are of the form that goes with what is left of it without
sequences of one part around it. -/
theorem StandsFor.exists_core {kind : Kind Char} {one : Peg} :
    StandsFor g.idOf? g kind one → ∃ core, MadeFor g.idOf? g kind core ∧ one.Wraps core
  | .rule hmade => ⟨one, hmade, fun h => h⟩
  | .only hpart => by
      obtain ⟨core, hmade, hcore⟩ := hpart.exists_core
      exact ⟨core, hmade, fun h => (hcore h).only⟩

theorem LeadsTo.core_or_inner {kind : Kind Char} (h : LeadsTo g id one)
    (hkind : g.kind? id = some kind) :
    (∃ core, MadeFor g.idOf? g kind core ∧ one.Wraps core) ∨
      ∃ label inner, kind = .reference label (some inner) ∧ StandsAt g inner one := by
  rcases h with ⟨kind', hkind', hstands⟩ | ⟨label, inner, hkind', hstands⟩
  · obtain rfl := Option.some.inj (hkind.symm.trans hkind')
    exact .inl hstands.exists_core
  · obtain rfl := Option.some.inj (hkind.symm.trans hkind')
    exact .inr ⟨label, inner, rfl, hstands⟩

/-- Only a reference can lead on to a rule that stands for an expression. -/
theorem LeadsTo.core {kind : Kind Char} (h : LeadsTo g id one) (hkind : g.kind? id = some kind)
    (hother : ∀ label inner, kind ≠ .reference label (some inner)) :
    ∃ core, MadeFor g.idOf? g kind core ∧ one.Wraps core := by
  rcases h.core_or_inner hkind with hcore | ⟨label, inner, hkind, -⟩
  · exact hcore
  · exact absurd hkind (hother label inner)

/-- An expression that matches nothing may do so any number of times. -/
theorem Peg.TimesMean.fill {reps len : Nat} (h : Peg.TimesMean decls input one reps start len)
    (hempty : Peg.Means decls input one (start + len) (some 0)) (more : Nat) :
    Peg.TimesMean decls input one (reps + more) start len := by
  induction more with
  | zero => exact h
  | succ more ih => exact .succ ih hempty

theorem MadeFor.reference {name : String} {subject : RuleId} {core : Peg}
    (h : MadeFor g.idOf? g (.reference name (some subject)) core) :
    g.idOf? name = some subject ∧ core = .name name := by
  generalize hkind : Kind.reference name (some subject) = kind at h
  cases h with
  | name =>
      injection hkind with hname hsubject
      subst hname
      exact ⟨hsubject.symm, rfl⟩
  | _ => cases hkind

theorem eq_some_of_getD {bound : Nat} {max : Option Nat} (h : bound = max.getD 0) (hbound : bound ≠ 0) :
    max = some bound := by
  cases max with
  | none => exact absurd h hbound
  | some most => exact congrArg some h.symm

theorem forall_lt_of_room {bound reps min : Nat} {max : Option Nat} (h : bound = max.getD 0)
    (hmax : ∀ most ∈ max, 0 < most ∧ min ≤ most) (hroom : bound = 0 ∨ reps < bound) :
    ∀ most ∈ max, reps < most := by
  rintro most hmost
  obtain rfl := Option.mem_def.mp hmost
  obtain rfl : bound = most := h
  exact hroom.resolve_left (hmax _ rfl).1.ne'

/-! ### Expressions for each kind -/

section Kinds

variable {inner : RuleId} {min bound reps len : Nat} (hlead : LeadsTo g id one)

include hlead

theorem LeadsTo.means_any (hkind : g.kind? id = some (.any min bound)) :
    Peg.Means decls input one start
      (if input.size - start < min then none
        else some (if bound = 0 then input.size - start else Nat.min (input.size - start) bound)) := by
  obtain ⟨core, hmade, hcore⟩ := hlead.core hkind fun _ _ h => nomatch h
  cases hmade
  refine hcore ?_
  rw [any_verdict]
  exact .any

theorem LeadsTo.means_literal {values : List Char} (hkind : g.kind? id = some (.literal values)) :
    Peg.Means decls input one start
      (if values <+: input.toList.drop start then some values.length else none) := by
  obtain ⟨core, hmade, hcore⟩ := hlead.core hkind fun _ _ h => nomatch h
  cases hmade
  exact hcore .text

theorem LeadsTo.means_set {values : List Char} (hkind : g.kind? id = some (.set values))
    {_ : Decidable (∃ c ∈ input[start]?, c ∈ values)} :
    Peg.Means decls input one start (if ∃ c ∈ input[start]?, c ∈ values then some 1 else none) := by
  obtain ⟨core, hmade, hcore⟩ := hlead.core hkind fun _ _ h => nomatch h
  cases hmade with
  | set hvalues =>
      refine hcore ?_
      rw [set_verdict hvalues]
      exact .oneOf

theorem LeadsTo.means_range {lo hi : Char} (hkind : g.kind? id = some (.range lo hi))
    {_ : Decidable (∃ c ∈ input[start]?, Element.code lo ≤ Element.code c ∧
      Element.code c ≤ Element.code hi)} :
    Peg.Means decls input one start
      (if ∃ c ∈ input[start]?, Element.code lo ≤ Element.code c ∧ Element.code c ≤ Element.code hi
        then some 1 else none) := by
  obtain ⟨core, hmade, hcore⟩ := hlead.core hkind fun _ _ h => nomatch h
  cases hmade with
  | range hlo hhi =>
      refine hcore ?_
      rw [range_verdict hlo hhi]
      exact .oneOf

/-- A repetition stands for one of what its rule leads to, with the same bounds. -/
theorem LeadsTo.exists_repetition (hkind : g.kind? id = some (.count inner min bound)) :
    ∃ core max, LeadsTo g inner core ∧ bound = max.getD 0 ∧ (∀ most ∈ max, 0 < most ∧ min ≤ most) ∧
      one.Wraps (.repetition min max core) := by
  obtain ⟨core, hmade, hcore⟩ := hlead.core hkind fun _ _ h => nomatch h
  cases hmade with
  | repetition hbound hmax hinner hstands =>
      exact ⟨_, _, .inl ⟨_, hinner, hstands⟩, hbound, hmax, hcore⟩

theorem LeadsTo.means_countFull (hkind : g.kind? id = some (.count inner min bound))
    (hbound : bound ≠ 0)
    (h : ∀ core, LeadsTo g inner core → Peg.TimesMean decls input core bound start len) :
    Peg.Means decls input one start (if bound < min then none else some len) := by
  obtain ⟨core, max, hinner, heq, -, hwraps⟩ := hlead.exists_repetition hkind
  obtain rfl := eq_some_of_getD heq hbound
  exact hwraps (.repeatFull (h core hinner))

theorem LeadsTo.means_countOver (hkind : g.kind? id = some (.count inner min bound))
    (hroom : bound = 0 ∨ reps < bound)
    (h : ∀ core, LeadsTo g inner core → Peg.TimesMean decls input core reps start len)
    (hover : ∀ core, LeadsTo g inner core → Peg.Means decls input core (start + len) none) :
    Peg.Means decls input one start (if reps < min then none else some len) := by
  obtain ⟨core, max, hinner, heq, hmax, hwraps⟩ := hlead.exists_repetition hkind
  exact hwraps (.repeatOver (forall_lt_of_room heq hmax hroom) (h core hinner) (hover core hinner))

/-- A rule that matches nothing is counted until the bound is reached, as the expression is. -/
theorem LeadsTo.means_countFilled (hkind : g.kind? id = some (.count inner min bound))
    (hroom : reps < bound)
    (h : ∀ core, LeadsTo g inner core → Peg.TimesMean decls input core reps start len)
    (hempty : ∀ core, LeadsTo g inner core → Peg.Means decls input core (start + len) (some 0)) :
    Peg.Means decls input one start (some len) := by
  obtain ⟨core, max, hinner, heq, hmax, hwraps⟩ := hlead.exists_repetition hkind
  obtain rfl := eq_some_of_getD heq (Nat.ne_zero_of_lt hroom)
  have hfull := (h core hinner).fill (hempty core hinner) (bound - reps)
  rw [Nat.add_sub_cancel' hroom.le] at hfull
  have hmeans : Peg.Means decls input (.repetition min (some bound) core) start
      (if bound < min then none else some len) := .repeatFull hfull
  rw [if_neg (Nat.not_lt.mpr (hmax bound rfl).2)] at hmeans
  exact hwraps hmeans

variable {stopBefore failOnEnd : Bool} {passed : Nat}

/-- A skip stands for one of the three forms there are. -/
theorem LeadsTo.exists_skip (hkind : g.kind? id = some (.skip inner stopBefore failOnEnd)) :
    ∃ core form, LeadsTo g inner core ∧
      skipOf inner form = (.skip inner stopBefore failOnEnd : Kind Char) ∧ one.Wraps (.skip form core) := by
  obtain ⟨core, hmade, hcore⟩ := hlead.core hkind fun _ _ h => nomatch h
  cases hmade with
  | skip hform hinner hstands => exact ⟨_, _, .inl ⟨_, hinner, hstands⟩, hform, hcore⟩

theorem LeadsTo.means_skipFound (hkind : g.kind? id = some (.skip inner stopBefore failOnEnd))
    (hpassed : passed ≤ input.size - start)
    (hbefore : ∀ before < passed, ∀ core, LeadsTo g inner core →
      Peg.Means decls input core (start + before) none)
    (hstop : ∀ core, LeadsTo g inner core → Peg.Means decls input core (start + passed) (some len)) :
    Peg.Means decls input one start (some (if stopBefore then passed else passed + len)) := by
  obtain ⟨core, form, hinner, hform, hwraps⟩ := hlead.exists_skip hkind
  cases form <;> cases hform <;>
    exact hwraps (.skipFound hpassed (fun before h => hbefore before h core hinner)
      (hstop core hinner))

theorem LeadsTo.means_skipEnd (hkind : g.kind? id = some (.skip inner stopBefore failOnEnd))
    (hnowhere : ∀ passed ≤ input.size - start, ∀ core, LeadsTo g inner core →
      Peg.Means decls input core (start + passed) none) :
    Peg.Means decls input one start (if failOnEnd then none else some (input.size - start)) := by
  obtain ⟨core, form, hinner, hform, hwraps⟩ := hlead.exists_skip hkind
  cases form <;> cases hform <;>
    exact hwraps (.skipEnd fun passed h => hnowhere passed h core hinner)

/-- A reference stands for the name of what it refers to, or for what its subject does. -/
theorem LeadsTo.means_reference (himplements : Implements decls g) {name : String}
    (hkind : g.kind? id = some (.reference name (some inner)))
    (h : ∀ one, LeadsTo g inner one → Peg.Means decls input one start verdict) :
    Peg.Means decls input one start verdict := by
  rcases hlead.core_or_inner hkind with ⟨core, hmade, hcore⟩ | ⟨label, inner, heq, hstands⟩
  · obtain ⟨htarget, rfl⟩ := hmade.reference
    obtain ⟨body, hdecl⟩ := himplements.named _ _ htarget
    obtain ⟨found, hfound, hleads⟩ := himplements.declared _ _ hdecl
    obtain rfl := Option.some.inj (hfound.symm.trans htarget)
    exact hcore (.name hdecl (h _ hleads))
  · cases heq
    exact h _ (.inl hstands)

end Kinds

end Forms

end Standing

end Script

section Standing

open Script

variable {decls : String → Peg → Prop} {g : Graph Char} {input : Array Char}

mutual

/-- What a rule comes to, the expressions mean that it leads to. -/
theorem Derives.means (himplements : Implements decls g) {id : RuleId} {start : Nat}
    {verdict : Option Nat} :
    Derives g input id start verdict → ∀ one, LeadsTo g id one →
      Peg.Means decls input one start verdict
  | .unknown hkind => fun one hone => by
      rcases hone with ⟨kind, hkind', -⟩ | ⟨label, inner, hkind', -⟩ <;> rw [hkind] at hkind' <;>
        cases hkind'
  | .any hkind => fun one hone => hone.means_any hkind
  | .single hkind => fun one hone => by
      obtain ⟨core, hmade, -⟩ := hone.core hkind fun _ _ h => nomatch h
      cases hmade
  | .set hkind => fun one hone => hone.means_set hkind
  | .range hkind => fun one hone => hone.means_range hkind
  | .literal hkind => fun one hone => hone.means_literal hkind
  | .sequence hkind h => fun one hone => by
      have hrow := h.means himplements
      obtain ⟨core, hmade, hcore⟩ := hone.core hkind fun _ _ h => nomatch h
      cases hmade with
      | sequence hall => exact hcore (.sequence (hrow _ hall))
  | .oneOf hkind h => fun one hone => by
      have hfirst := h.means himplements
      obtain ⟨core, hmade, hcore⟩ := hone.core hkind fun _ _ h => nomatch h
      cases hmade with
      | choice hall => exact hcore (.choice (hfirst _ hall))
  | .countFull hkind hmax h => fun one hone =>
      hone.means_countFull hkind hmax (h.means himplements)
  | .countOver hkind hroom h hover => fun one hone =>
      hone.means_countOver hkind hroom (h.means himplements) (hover.means himplements)
  | .countEndless hkind h hempty => fun one hone =>
      -- Validation excludes what matches empty from unbounded repetition.
      absurd hempty (himplements.consumes _ _ _ hkind _ _)
  | .countFilled hkind hroom h hempty => fun one hone =>
      hone.means_countFilled hkind hroom (h.means himplements) (hempty.means himplements)
  | .not hkind h => fun one hone => by
      have hinner := h.means himplements
      obtain ⟨core, hmade, hcore⟩ := hone.core hkind fun _ _ h => nomatch h
      cases hmade with
      | not hid hstands => exact hcore (.not (hinner _ (.inl ⟨_, hid, hstands⟩)))
  | .condition hkind h => fun one hone => by
      have hinner := h.means himplements
      obtain ⟨core, hmade, hcore⟩ := hone.core hkind fun _ _ h => nomatch h
      cases hmade with
      | ahead hid hstands => exact hcore (.ahead (hinner _ (.inl ⟨_, hid, hstands⟩)))
  | .skipFound hkind hpassed hbefore hstop => fun one hone =>
      hone.means_skipFound hkind hpassed (fun before h => (hbefore before h).means himplements)
        (hstop.means himplements)
  | .skipEnd hkind hnowhere => fun one hone =>
      hone.means_skipEnd hkind fun passed h => (hnowhere passed h).means himplements
  | .log hkind => fun one hone => by
      obtain ⟨core, hmade, hcore⟩ := hone.core hkind fun _ _ h => nomatch h
      cases hmade
      exact hcore .log
  | .guardedLog hkind h => fun one hone => by
      have hguard := h.means himplements
      obtain ⟨core, hmade, hcore⟩ := hone.core hkind fun _ _ h => nomatch h
      cases hmade with
      | logIf _ hid hstands => exact hcore (.logIf (hguard _ (.inl ⟨_, hid, hstands⟩)))
  | .breakpoint hkind _ => fun one hone => by
      obtain ⟨core, hmade, -⟩ := hone.core hkind fun _ _ h => nomatch h
      cases hmade
  | .reference hkind h => fun one hone =>
      hone.means_reference himplements hkind (h.means himplements)

theorem InOrder.means (himplements : Implements decls g) {ids : List RuleId} {start : Nat}
    {verdict : Option Nat} :
    InOrder g input ids start verdict → ∀ parts, AllStandFor g.idOf? g ids parts →
      Peg.AllMean decls input parts start verdict
  | .nil => fun parts hall => by
      cases hall
      exact .nil
  | .failure h => fun parts hall => by
      have hone := h.means himplements
      cases hall with
      | cons hid hstands hall => exact .failure (hone _ (.inl ⟨_, hid, hstands⟩))
  | .success h hrest => fun parts hall => by
      have hone := h.means himplements
      have hmore := hrest.means himplements
      cases hall with
      | cons hid hstands hall => exact .success (hone _ (.inl ⟨_, hid, hstands⟩)) (hmore _ hall)

theorem FirstOf.means (himplements : Implements decls g) {ids : List RuleId} {start : Nat}
    {verdict : Option Nat} :
    FirstOf g input ids start verdict → ∀ parts, AllStandFor g.idOf? g ids parts →
      Peg.FirstMeans decls input parts start verdict
  | .nil => fun parts hall => by
      cases hall
      exact .nil
  | .failure h hrest => fun parts hall => by
      have hone := h.means himplements
      have hmore := hrest.means himplements
      cases hall with
      | cons hid hstands hall => exact .failure (hone _ (.inl ⟨_, hid, hstands⟩)) (hmore _ hall)
  | .success h => fun parts hall => by
      have hone := h.means himplements
      cases hall with
      | cons hid hstands hall => exact .success (hone _ (.inl ⟨_, hid, hstands⟩))

theorem Repeats.means (himplements : Implements decls g) {id : RuleId} {reps start len : Nat} :
    Repeats g input id reps start len → ∀ one, LeadsTo g id one →
      Peg.TimesMean decls input one reps start len
  | .zero => fun _ _ => .zero
  | .succ h hone _ => fun one hid =>
      .succ (h.means himplements one hid) (hone.means himplements one hid)

end

namespace Script.Implements

/-- **A rule comes to what the expression means that it leads to, and to nothing else.** -/
theorem derives_iff (h : Implements decls g) {id : RuleId} {one : Peg} (hid : LeadsTo g id one)
    {start : Nat} {verdict : Option Nat} :
    Derives g input id start verdict ↔ Peg.Means decls input one start verdict :=
  ⟨fun hderives => hderives.means h one hid, fun hmeans => hid.derives (hmeans.derives h)⟩

/-- From some depth on, a match comes to what the expression means; and a match that comes to an end at
any depth comes to that. -/
theorem matchAt_iff (h : Implements decls g) {id : RuleId} {one : Peg} (hid : LeadsTo g id one)
    (start : Nat) (verdict : Option Nat) :
    (Peg.Means decls input one start verdict ↔
      ∃ least, ∀ depth ≥ least, ∃ outcome, (g.matchAt input depth id start).1 = .ok outcome ∧
        outcome.verdict = verdict) ∧
    ∀ depth outcome, (g.matchAt input depth id start).1 = .ok outcome →
      Peg.Means decls input one start outcome.verdict := by
  have hmeans (depth : Nat) (outcome : Outcome)
      (hmatch : (g.matchAt input depth id start).1 = .ok outcome) :
      Peg.Means decls input one start outcome.verdict := by
    refine (h.derives_iff hid).mp ?_
    exact (Graph.runWithin_yields h.ordinary depth depth id start).of_result (Prod.ext hmatch rfl)
  refine ⟨⟨fun hone => ?_, fun ⟨least, hleast⟩ => ?_⟩, hmeans⟩
  · -- A meaning is derived by the rules, and derivations settle at some depth.
    have hsettles := ((h.derives_iff hid).mpr hone).settles h.ordinary
    obtain ⟨least, hleast⟩ := Filter.eventually_atTop.mp hsettles
    refine ⟨least, fun depth hdepth => ?_⟩
    obtain ⟨outcome, after, hresult, hverdict⟩ := (hleast depth hdepth depth).exists_result {}
    exact ⟨outcome, congrArg Prod.fst hresult, hverdict⟩
  · obtain ⟨outcome, hmatch, rfl⟩ := hleast least (Nat.le_refl least)
    exact hmeans least outcome hmatch

end Script.Implements

end Standing

end RuleScript
