import RuleScript.Proofs.Match.Phrase

/-!
# Grammars that can be predicted

The matcher takes the first alternative that matches and repeats as long as it can.  It finds the
derivation of a grammar all the same if the next element of the input always tells what to do.
`Forecast.predicts` checks this for a phrase: alternatives start with different elements, and what
may be left out or repeated starts with none that may come after it.

`Phrase.Derives.exact` says of a predictable grammar that a rule comes to just what its phrase
derives.  It goes by induction on the derivation.  That other alternatives fail needs no induction
of its own: if one did not fail, it would have a derivation, and would start with an element of its
own (`Phrase.Derives.ahead`).

The same look at what comes next also keeps elements apart that must not stand side by side, which
is what `Phrase.Derives.apart` is about.
-/

namespace RuleScript

variable {α ι : Type}

/-- What is known of a grammar ahead of a match. -/
structure Forecast (α ι : Type) where
  /-- The elements that what a name derives may start with. -/
  heads : ι → List α
  /-- Whether a name may derive nothing. -/
  empty : ι → Bool
  /-- What may come after what a name derives: an element, or the end of the input. -/
  follows : ι → List (Option α)
  /-- Whether one element must not stand in front of another, or of the end of the input. -/
  clash : α → Option α → Bool

namespace Forecast

variable (F : Forecast α ι)

mutual

/-- Whether a phrase may derive nothing. -/
def nullable : Phrase α ι → Bool
  | .kept .. | .dropped _ | .recovery => false
  | .rule name => F.empty name
  | .sequence parts => nullableAll parts
  | .choice alternatives => nullableAny alternatives
  | .optional _ | .many _ => true
  | .several part => nullable part

def nullableAll : List (Phrase α ι) → Bool
  | [] => true
  | part :: parts => nullable part && nullableAll parts

def nullableAny : List (Phrase α ι) → Bool
  | [] => false
  | part :: parts => nullable part || nullableAny parts

end

mutual

/-- The elements that what a phrase derives may start with. -/
def firsts : Phrase α ι → List α
  | .kept value _ | .dropped value => [value]
  | .rule name => F.heads name
  | .sequence parts => firstsAll parts
  | .choice alternatives => firstsAny alternatives
  | .optional part | .many part | .several part => firsts part
  | .recovery => []

def firstsAll : List (Phrase α ι) → List α
  | [] => []
  | part :: parts => firsts part ++ if F.nullable part then firstsAll parts else []

def firstsAny : List (Phrase α ι) → List α
  | [] => []
  | part :: parts => firsts part ++ firstsAny parts

end

/-- What may come where a sequence starts, given what may come after it. -/
def aheadAll (parts : List (Phrase α ι)) (next : List (Option α)) : List (Option α) :=
  (F.firstsAll parts).map some ++ if F.nullableAll parts then next else []

/-- What may come where a choice starts, given what may come after it. -/
def aheadAny (alternatives : List (Phrase α ι)) (next : List (Option α)) : List (Option α) :=
  (F.firstsAny alternatives).map some ++ if F.nullableAny alternatives then next else []

variable [DecidableEq α]

/-- Whether the next element tells a phrase from what else may come. -/
def decides (part : Phrase α ι) (others : List (Option α)) : Bool :=
  !F.nullable part && (F.firsts part).all fun value => !others.contains (some value)

mutual

/-- Whether the next element tells how to match a phrase, given what may come after it, and no
elements clash. -/
def predicts : Phrase α ι → List (Option α) → Bool
  | .kept value _, next | .dropped value, next => next.all fun look => !F.clash value look
  | .rule name, next => next.all (F.follows name).contains
  | .sequence parts, next => predictsAll parts next
  | .choice alternatives, next => predictsAny alternatives next
  | .optional part, next => predicts part next && F.decides part next
  | .many part, next | .several part, next =>
    predicts part ((F.firsts part).map some ++ next) && F.decides part next
  | .recovery, _ => true

def predictsAll : List (Phrase α ι) → List (Option α) → Bool
  | [], _ => true
  | part :: parts, next => predicts part (F.aheadAll parts next) && predictsAll parts next

def predictsAny : List (Phrase α ι) → List (Option α) → Bool
  | [], _ => true
  | part :: parts, next =>
    predicts part next && (parts.isEmpty || F.decides part (F.aheadAny parts next)) &&
      predictsAny parts next

end

/-- A grammar whose productions are as forecast and can be predicted. -/
structure Foresees (S : Productions α ι) : Prop where
  heads : ∀ name, ∀ value ∈ F.firsts (S.phrase name), value ∈ F.heads name
  empty : ∀ name, F.nullable (S.phrase name) → F.empty name
  predicts : ∀ name, F.predicts (S.phrase name) (F.follows name)

end Forecast

/-! ## What comes next -/

/-- Between two positions lies nothing, which may be so or not, or something that starts with one of
some elements. -/
def Begins (input : Array α) (values : List α) (empty : Bool) (start stop : Nat) : Prop :=
  start = stop ∧ empty ∨ start < stop ∧ ∃ value ∈ values, input[start]? = some value

namespace Begins

variable {input : Array α} {values values' : List α} {empty empty' : Bool} {start mid stop : Nat}

theorem le (h : Begins input values empty start stop) : start ≤ stop := by
  rcases h with ⟨rfl, -⟩ | ⟨hlt, -⟩
  · exact Nat.le_refl _
  · exact Nat.le_of_lt hlt

theorem mono (h : Begins input values empty start stop) (hvalues : ∀ value ∈ values, value ∈ values')
    (hempty : empty → empty') : Begins input values' empty' start stop := by
  rcases h with ⟨heq, h⟩ | ⟨hlt, value, hvalue, hstart⟩
  · exact .inl ⟨heq, hempty h⟩
  · exact .inr ⟨hlt, value, hvalues value hvalue, hstart⟩

theorem append (h : Begins input values empty start mid)
    (hrest : Begins input values' empty' mid stop) :
    Begins input (values ++ if empty then values' else []) (empty && empty') start stop := by
  rcases h with ⟨rfl, hempty⟩ | ⟨hlt, value, hvalue, hstart⟩
  · refine hrest.mono (fun value hvalue => ?_) fun h => ?_
    · rw [if_pos hempty]
      exact List.mem_append_right _ hvalue
    · rw [hempty, h]
      rfl
  · exact .inr ⟨Nat.lt_of_lt_of_le hlt hrest.le, value, List.mem_append_left _ hvalue, hstart⟩

theorem again (h : Begins input values empty start mid) (hrest : Begins input values true mid stop) :
    Begins input values empty start stop := by
  refine (h.append hrest).mono (fun value hvalue => ?_) fun h => by simpa using h
  rcases List.mem_append.mp hvalue with hvalue | hvalue
  · exact hvalue
  · split at hvalue
    · exact hvalue
    · cases hvalue

theorem ahead (h : Begins input values empty start stop) {next : List (Option α)}
    (hnext : input[stop]? ∈ next) :
    input[start]? ∈ values.map some ++ if empty then next else [] := by
  rcases h with ⟨rfl, hempty⟩ | ⟨-, value, hvalue, hstart⟩
  · rw [if_pos hempty]
    exact List.mem_append_right _ hnext
  · rw [hstart]
    exact List.mem_append_left _ (List.mem_map_of_mem hvalue)

end Begins

/-- Between two positions no element stands in front of one that it clashes with. -/
def Forecast.Apart (F : Forecast α ι) (input : Array α) (start stop : Nat) : Prop :=
  ∀ pos, start ≤ pos → pos < stop → ∀ value, input[pos]? = some value →
    F.clash value input[pos + 1]? = false

namespace Forecast.Apart

variable {F : Forecast α ι} {input : Array α}

theorem empty (pos : Nat) : Apart F input pos pos := fun _ hle hlt => by omega

theorem append {start mid stop : Nat} (h : Apart F input start mid)
    (hrest : Apart F input mid stop) : Apart F input start stop := by
  intro pos hstart hstop
  by_cases hmid : pos < mid
  · exact h pos hstart hmid
  · exact hrest pos (Nat.not_lt.mp hmid) hstop

theorem single {value : α} {pos : Nat} (h : input[pos]? = some value)
    {next : List (Option α)} (hnext : input[pos + 1]? ∈ next)
    (hclash : next.all fun look => !F.clash value look) : Apart F input pos (pos + 1) := by
  intro other hle hlt value' hvalue'
  obtain rfl : other = pos := by omega
  cases h.symm.trans hvalue'
  simpa using List.all_eq_true.mp hclash _ hnext

end Forecast.Apart

namespace Forecast

variable {F : Forecast α ι} {part : Phrase α ι} {alternatives : List (Phrase α ι)}

theorem mem_firstsAny (hpart : part ∈ alternatives) {value : α} (h : value ∈ F.firsts part) :
    value ∈ F.firstsAny alternatives := by
  induction alternatives with
  | nil => cases hpart
  | cons other alternatives ih =>
      rw [firstsAny]
      rcases List.mem_cons.mp hpart with rfl | hpart
      · exact List.mem_append_left _ h
      · exact List.mem_append_right _ (ih hpart)

theorem nullableAny_of_mem (hpart : part ∈ alternatives) (h : F.nullable part) :
    F.nullableAny alternatives := by
  induction alternatives with
  | nil => cases hpart
  | cons other alternatives ih =>
      rw [nullableAny, Bool.or_eq_true]
      rcases List.mem_cons.mp hpart with rfl | hpart
      · exact .inl h
      · exact .inr (ih hpart)

theorem predicts_of_mem [DecidableEq α] {next : List (Option α)} (hpart : part ∈ alternatives)
    (h : F.predicts (.choice alternatives) next) : F.predicts part next := by
  change F.predictsAny alternatives next at h
  induction alternatives with
  | nil => cases hpart
  | cons other alternatives ih =>
      rw [predictsAny, Bool.and_eq_true, Bool.and_eq_true] at h
      rcases List.mem_cons.mp hpart with rfl | hpart
      · exact h.1.1
      · exact ih hpart h.2

end Forecast

namespace Phrase

variable [DecidableEq α] {S : Productions α ι} {F : Forecast α ι} {input : Array α}

mutual

/-- A well-formed derivation starts as its phrase may start. -/
theorem Derives.begins (hF : F.Foresees S) {phrase : Phrase α ι} {start stop : Nat}
    {nodes : List Node} :
    Derives S nothing input phrase start stop nodes →
      Begins input (F.firsts phrase) (F.nullable phrase) start stop
  | .kept h | .dropped h => .inr ⟨Nat.lt_succ_self _, _, List.mem_singleton_self _, h⟩
  | .rule h => (h.begins hF).mono (hF.heads _) (hF.empty _)
  | .sequence h => h.begins hF
  | .choice hpart h =>
      (h.begins hF).mono (fun _ => F.mem_firstsAny hpart) (F.nullableAny_of_mem hpart)
  | .absent => .inl ⟨rfl, rfl⟩
  | .present h => (h.begins hF).mono (fun _ h => h) fun _ => rfl
  | .many h => h.begins hF
  | .several h hrest => (h.begins hF).again (hrest.begins hF)
  | .recovery h => h.elim

theorem InOrder.begins (hF : F.Foresees S) {parts : List (Phrase α ι)} {start stop : Nat}
    {nodes : List Node} :
    InOrder S nothing input parts start stop nodes →
      Begins input (F.firstsAll parts) (F.nullableAll parts) start stop
  | .nil => .inl ⟨rfl, rfl⟩
  | .cons h hrest => (h.begins hF).append (hrest.begins hF)

theorem InRounds.begins (hF : F.Foresees S) {part : Phrase α ι} {start stop : Nat}
    {nodes : List Node} :
    InRounds S nothing input part start stop nodes →
      Begins input (F.firsts part) true start stop
  | .nil => .inl ⟨rfl, rfl⟩
  | .cons h hrest => ((h.begins hF).again (hrest.begins hF)).mono (fun _ h => h) fun _ => rfl

end

/-! ## Elements that clash -/

mutual

/-- A well-formed derivation keeps apart what clashes. -/
theorem Derives.apart (hF : F.Foresees S) {phrase : Phrase α ι} {start stop : Nat}
    {nodes : List Node} {next : List (Option α)} (hpredicts : F.predicts phrase next)
    (hnext : input[stop]? ∈ next) :
    Derives S nothing input phrase start stop nodes → F.Apart input start stop
  | .kept h | .dropped h => .single h hnext hpredicts
  | .rule h => h.apart hF (hF.predicts _)
      (List.contains_iff_mem.mp (List.all_eq_true.mp hpredicts _ hnext))
  | .sequence h => h.apart hF hpredicts hnext
  | .choice hpart h => h.apart hF (F.predicts_of_mem hpart hpredicts) hnext
  | .absent => .empty _
  | .present h => h.apart hF (Bool.and_eq_true_iff.mp hpredicts).1 hnext
  | .many h => h.apart hF (Bool.and_eq_true_iff.mp hpredicts).1 hnext
  | .several h hrest =>
      have hpart := (Bool.and_eq_true_iff.mp hpredicts).1
      (h.apart hF hpart ((hrest.begins hF).ahead hnext)).append (hrest.apart hF hpart hnext)
  | .recovery h => h.elim

theorem InOrder.apart (hF : F.Foresees S) {parts : List (Phrase α ι)} {start stop : Nat}
    {nodes : List Node} {next : List (Option α)} (hpredicts : F.predictsAll parts next)
    (hnext : input[stop]? ∈ next) :
    InOrder S nothing input parts start stop nodes → F.Apart input start stop
  | .nil => .empty _
  | .cons h hrest =>
      have hboth := Bool.and_eq_true_iff.mp hpredicts
      (h.apart hF hboth.1 ((hrest.begins hF).ahead hnext)).append (hrest.apart hF hboth.2 hnext)

theorem InRounds.apart (hF : F.Foresees S) {part : Phrase α ι} {start stop : Nat}
    {nodes : List Node} {next : List (Option α)}
    (hpredicts : F.predicts part ((F.firsts part).map some ++ next))
    (hnext : input[stop]? ∈ next) :
    InRounds S nothing input part start stop nodes → F.Apart input start stop
  | .nil => .empty _
  | .cons h hrest =>
      (h.apart hF hpredicts ((hrest.begins hF).ahead hnext)).append
        (hrest.apart hF hpredicts hnext)

end

end Phrase

/-! ## The derivation is found -/

section Exact

variable [Element α] [DecidableEq ι] {S : Productions α ι} {g : Graph α} {scope : Scope ι}
variable {F : Forecast α ι} {input : Array α} {phrase part : Phrase α ι} {start stop : Nat}
variable {nodes : List Node}

open Phrase

namespace Productions

/-- Where a phrase may not start, its rule fails. -/
theorem promises_failure (hS : S.Describes g scope) (hF : F.Foresees S)
    (haside : ∀ id pos, scope.aside id → g.Promises input id pos (·.Steps nothing pos))
    {id : RuleId} (h : S.realizes g scope phrase id) {next : List (Option α)}
    (hdecides : F.decides phrase next) (hnext : input[start]? ∈ next) :
    g.Promises input id start (· = .failure) := by
  rw [Forecast.decides, Bool.and_eq_true, Bool.not_eq_true', List.all_eq_true] at hdecides
  obtain ⟨hnullable, hfirsts⟩ := hdecides
  refine (promises_derives hS haside h start).mono fun outcome houtcome => ?_
  cases outcome with
  | failure => rfl
  | success len nodes =>
      rcases Derives.begins hF houtcome with ⟨-, hempty⟩ | ⟨-, value, hvalue, hstart⟩
      · rw [hnullable] at hempty
        cases hempty
      · have hother := hfirsts value hvalue
        rw [← hstart] at hother
        simp [hnext] at hother

/-- The rules of a phrase come to just one outcome: a success with these nodes. -/
structure Exact (S : Productions α ι) (g : Graph α) (scope : Scope ι) (input : Array α)
    (phrase : Phrase α ι) (start stop : Nat) (nodes : List Node) : Prop where
  rule : ∀ id, S.realizes g scope phrase id →
    g.Promises input id start (· = .success (stop - start) nodes)
  kind : ∀ kind, S.contents g scope phrase kind → ∀ id sub, g.Keeps input sub →
    (Match.kind g input sub id kind start).Yields
      (· = .success (stop - start) [⟨id, ⟨start, stop - start⟩, nodes⟩])

namespace Exact

theorem of_kind (hparts : phrase.hasParts)
    (hkind : ∀ kind, S.contents g scope phrase kind → ∀ id sub, g.Keeps input sub →
      (Match.kind g input sub id kind start).Yields
        (· = .success (stop - start) [⟨id, ⟨start, stop - start⟩, nodes⟩])) :
    S.Exact g scope input phrase start stop nodes where
  kind := hkind
  rule id h := by
    obtain ⟨rule, hrule, hprune, hcontents⟩ := (entry_iff hparts).mp h
    have hlog : g.isLog (g.standsFor id) = false :=
      (Graph.isLog_of_kind? (Graph.kind?_eq_some hrule)).trans (isLog_of_contents hcontents)
    refine Graph.promises_standsFor (Graph.promises_of_rule hrule fun sub hsub => ?_)
    refine (hkind _ hcontents _ sub hsub).mono (fun _ h => h) ?_
    rintro _ rfl
    rw [hprune, Outcome.mapNodes, Graph.prune_root_singleton hlog]

theorem kept {value : α} {name : ι} {pos : Nat} (h : input[pos]? = some value) :
    S.Exact g scope input (.kept value name) pos (pos + 1) [.leaf (S.idOf name) ⟨pos, 1⟩] where
  kind kind hkind := nomatch hasParts_of_contents hkind
  rule id hid := by
    refine Graph.promises_standsFor ?_
    rw [realizes] at hid
    cases hrule : g.rule? (g.standsFor id) with
    | none => simp [entry, hrule] at hid
    | some rule =>
        simp only [entry, hrule, Bool.and_eq_true, decide_eq_true_eq] at hid
        obtain ⟨⟨hname, hprune⟩, hkind⟩ := hid
        refine Graph.promises_of_rule hrule fun sub _ => ?_
        rw [hkind, hname]
        refine (Match.single_exact g input _ value pos).mono (fun _ h => h) ?_
        rintro _ rfl
        rw [if_pos h, hprune, Outcome.mapNodes_prune_none, Nat.add_sub_cancel_left]

theorem dropped {value : α} {pos : Nat} (h : input[pos]? = some value) :
    S.Exact g scope input (.dropped value) pos (pos + 1) [] where
  kind kind hkind := nomatch hasParts_of_contents hkind
  rule id hid := by
    refine Graph.promises_standsFor ?_
    rw [realizes] at hid
    cases hrule : g.rule? (g.standsFor id) with
    | none => simp [entry, hrule] at hid
    | some rule =>
        simp only [entry, hrule, Bool.and_eq_true, decide_eq_true_eq] at hid
        obtain ⟨hprune, hkind⟩ := hid
        have hlog := Graph.isLog_of_kind? ((Graph.kind?_eq_some hrule).trans (congrArg _ hkind))
        refine Graph.promises_of_rule hrule fun sub _ => ?_
        rw [hkind]
        refine (Match.single_exact g input _ value pos).mono (fun _ h => h) ?_
        rintro _ rfl
        rw [if_pos h, hprune, Outcome.mapNodes, Graph.prune_all_leaf hlog, Nat.add_sub_cancel_left]

theorem named (hS : S.Describes g scope) {name : ι} {len : Nat}
    (h : S.Exact g scope input (S.phrase name) start (start + len) nodes) :
    S.Exact g scope input (.rule name) start (start + len)
      [⟨S.idOf name, ⟨start, len⟩, nodes⟩] where
  kind kind hkind := nomatch hasParts_of_contents hkind
  rule id hid := by
    refine Graph.promises_standsFor ?_
    rw [realizes] at hid
    cases hrule : g.rule? (g.standsFor id) with
    | none => simp [entry, hrule] at hid
    | some rule =>
        simp only [entry, hrule, Bool.and_eq_true, decide_eq_true_eq,
          List.contains_iff_mem] at hid
        -- The name determines the rule, which describes the phrase and keeps its node.
        obtain ⟨hname, hmem⟩ := hid
        obtain ⟨_, hrule', hprune, hcontents⟩ := hS.2 name hmem
        rw [hname] at hrule ⊢
        cases Option.some.inj (hrule'.symm.trans hrule)
        refine Graph.promises_of_rule hrule fun sub hsub => ?_
        refine (h.kind _ hcontents _ sub hsub).mono (fun _ h => h) ?_
        rintro _ rfl
        rw [hprune, Outcome.mapNodes_prune_none, Nat.add_sub_cancel_left]

end Exact

end Productions

namespace Phrase

open Productions

omit [DecidableEq ι] in
theorem Derives.progress (hF : F.Foresees S) (h : Derives S nothing input phrase start stop nodes)
    {next : List (Option α)} (hdecides : F.decides phrase next) :
    start < stop ∧ start < input.size := by
  rw [Forecast.decides, Bool.and_eq_true, Bool.not_eq_true'] at hdecides
  rcases h.begins hF with ⟨-, hempty⟩ | ⟨hlt, value, -, hstart⟩
  · rw [hdecides.1] at hempty
    cases hempty
  · exact ⟨hlt, (Array.getElem?_eq_some_iff.mp hstart).1⟩

section Steps

variable (hS : S.Describes g scope) (hF : F.Foresees S)
variable (haside : ∀ id pos, scope.aside id → g.Promises input id pos (·.Steps nothing pos))
variable {next : List (Option α)} {sub : RuleId → Nat → Run Outcome} (hsub : g.Keeps input sub)

include hS hF haside hsub

/-- The alternative that has a derivation is the first one that matches. -/
theorem firstOf_exact {alternatives : List (Phrase α ι)} {ids : List RuleId}
    (hids : S.each g scope alternatives ids) (hpredicts : F.predictsAny alternatives next)
    (hnext : input[stop]? ∈ next) (hpart : part ∈ alternatives)
    (h : Derives S nothing input part start stop nodes)
    (hexact : S.Exact g scope input part start stop nodes) :
    (Match.firstOf sub start ids).Yields (· = .success (stop - start) nodes) := by
  induction alternatives generalizing ids with
  | nil => cases hpart
  | cons other rest ih =>
      obtain ⟨id, ids, rfl, hother, hrest⟩ := each_cons_iff.mp hids
      rw [Forecast.predictsAny, Bool.and_eq_true, Bool.and_eq_true] at hpredicts
      -- If the part comes later, the first alternative is decided by what is ahead, and fails.
      by_cases hmem : part ∈ rest
      · have hahead := ((Derives.choice hmem h).begins hF).ahead hnext
        have hdecides : F.decides other (F.aheadAny rest next) := by
          refine (Bool.or_eq_true_iff.mp hpredicts.1.2).resolve_left fun hempty => ?_
          rw [List.isEmpty_iff.mp hempty] at hmem
          cases hmem
        refine (hsub id start _ (promises_failure hS hF haside hother hdecides hahead)).bind ?_
        rintro _ rfl
        exact ih hrest hpredicts.2 hmem
      · -- Otherwise it is the first one itself, and matches as derived.
        obtain rfl := (List.mem_cons.mp hpart).resolve_right hmem
        refine (hsub id start _ (hexact.rule id hother)).bind ?_
        rintro _ rfl
        exact .pure rfl

/-- A repetition of what has a derivation stops where the derivation does. -/
theorem repeated_exact_of_rounds {one : RuleId} (hone : S.realizes g scope part one)
    (hdecides : F.decides part next) (hnext : input[stop]? ∈ next) {reps min : Nat}
    (h : Rounds (fun pos mid found => (pos < mid ∧ pos < input.size) ∧
      S.Exact g scope input part pos mid found) reps start stop nodes) (hmin : min ≤ reps)
    (label : String) :
    (Match.repeated sub label one min 0 start (input.size - start) 0 0 #[]).Yields
      (· = .success (stop - start) nodes) := by
  refine Match.repeated_exact (fun pos mid found hstep => ⟨hstep.1.1, ?_⟩) ?_ h (by omega) ?_
  · exact hsub one pos _ (hstep.2.rule one hone)
  · exact hsub one stop _ (promises_failure hS hF haside hone hdecides hnext)
  · exact h.reps_le fun pos mid found hstep => hstep.1

end Steps

mutual

/-- In a predictable grammar a rule comes to just what its phrase derives, if nothing recovers. -/
theorem Derives.exact (hS : S.Describes g scope) (hF : F.Foresees S)
    (haside : ∀ id pos, scope.aside id → g.Promises input id pos (·.Steps nothing pos))
    {phrase : Phrase α ι} {start stop : Nat} {nodes : List Node} {next : List (Option α)}
    (hpredicts : F.predicts phrase next) (hnext : input[stop]? ∈ next) :
    Derives S nothing input phrase start stop nodes →
      S.Exact g scope input phrase start stop nodes
  | .kept h => .kept h
  | .dropped h => .dropped h
  | .rule h => by
      have hname := List.contains_iff_mem.mp (List.all_eq_true.mp hpredicts _ hnext)
      exact .named hS (h.exact hS hF haside (hF.predicts _) hname)
  | .sequence h => .of_kind rfl fun kind hkind id sub hsub => by
      obtain ⟨ids, rfl, hparts⟩ := contents_sequence_iff.mp hkind
      refine (h.exact hS hF haside hpredicts hnext hparts hsub (Nat.add_zero _) #[]).map ?_
      rintro _ rfl
      rfl
  | .choice hpart h => .of_kind rfl fun kind hkind id sub hsub => by
      obtain ⟨ids, rfl, hparts⟩ := contents_choice_iff.mp hkind
      have hexact := h.exact hS hF haside (F.predicts_of_mem hpart hpredicts) hnext
      refine (firstOf_exact hS hF haside hsub hparts hpredicts hnext hpart h hexact).map ?_
      rintro _ rfl
      rfl
  | .absent => .of_kind rfl fun kind hkind id sub hsub => by
      obtain ⟨one, rfl, hone⟩ := contents_optional_iff.mp hkind
      have hdecides := (Bool.and_eq_true_iff.mp hpredicts).2
      simp only [Match.kind, Match.repeated_once, Functor.map_map]
      refine (hsub one _ _ (promises_failure hS hF haside hone hdecides hnext)).map ?_
      rintro _ rfl
      simp [Outcome.under]
  | .present h => .of_kind rfl fun kind hkind id sub hsub => by
      obtain ⟨one, rfl, hone⟩ := contents_optional_iff.mp hkind
      have hexact := h.exact hS hF haside (Bool.and_eq_true_iff.mp hpredicts).1 hnext
      simp only [Match.kind, Match.repeated_once, Functor.map_map]
      refine (hsub one _ _ (hexact.rule one hone)).map ?_
      rintro _ rfl
      rfl
  | .many h => .of_kind rfl fun kind hkind id sub hsub => by
      obtain ⟨one, rfl, hone⟩ := contents_many_iff.mp hkind
      obtain ⟨hpart, hdecides⟩ := Bool.and_eq_true_iff.mp hpredicts
      obtain ⟨reps, hrounds⟩ := h.exact hS hF haside hpart hdecides hnext
      refine (repeated_exact_of_rounds hS hF haside hsub hone hdecides hnext hrounds
        (Nat.zero_le _) _).map ?_
      rintro _ rfl
      rfl
  | .several h hrest => .of_kind rfl fun kind hkind id sub hsub => by
      obtain ⟨one, rfl, hone⟩ := contents_several_iff.mp hkind
      obtain ⟨hpart, hdecides⟩ := Bool.and_eq_true_iff.mp hpredicts
      obtain ⟨reps, hrounds⟩ := hrest.exact hS hF haside hpart hdecides hnext
      have hexact := h.exact hS hF haside hpart ((hrest.begins hF).ahead hnext)
      refine (repeated_exact_of_rounds hS hF haside hsub hone hdecides hnext
        (.cons ⟨h.progress hF hdecides, hexact⟩ hrounds) (Nat.le_add_left 1 reps) _).map ?_
      rintro _ rfl
      rfl
  | .recovery h => h.elim

theorem InOrder.exact (hS : S.Describes g scope) (hF : F.Foresees S)
    (haside : ∀ id pos, scope.aside id → g.Promises input id pos (·.Steps nothing pos))
    {parts : List (Phrase α ι)} {first stop : Nat} {nodes : List Node} {next : List (Option α)}
    (hpredicts : F.predictsAll parts next) (hnext : input[stop]? ∈ next) {ids : List RuleId}
    (hparts : S.each g scope parts ids) {sub : RuleId → Nat → Run Outcome}
    (hsub : g.Keeps input sub) {start len : Nat} (hstart : start + len = first)
    (before : Array Node) :
    InOrder S nothing input parts first stop nodes →
      (Match.inSequence sub start ids len before).Yields
        (· = .success (stop - start) (before.toList ++ nodes))
  | .nil => by
      obtain rfl := each_nil_iff.mp hparts
      subst hstart
      rw [Nat.add_sub_cancel_left, List.append_nil]
      exact .pure rfl
  | .cons h hrest => by
      obtain ⟨id, rest, rfl, hid, hids⟩ := each_cons_iff.mp hparts
      obtain ⟨hpart, hpredicts⟩ := Bool.and_eq_true_iff.mp hpredicts
      -- What follows the first part is ahead of it.
      have hexact := h.exact hS hF haside hpart ((hrest.begins hF).ahead hnext)
      have hle := (h.begins hF).le
      subst hstart
      refine (hsub id _ _ (hexact.rule id hid)).bind ?_
      rintro _ rfl
      dsimp only
      refine (hrest.exact hS hF haside hpredicts hnext hids hsub (by omega) _).mono
        (fun _ h => h) ?_
      rintro _ rfl
      rw [Array.toList_appendList, List.append_assoc]

theorem InRounds.exact (hS : S.Describes g scope) (hF : F.Foresees S)
    (haside : ∀ id pos, scope.aside id → g.Promises input id pos (·.Steps nothing pos))
    {part : Phrase α ι} {start stop : Nat} {nodes : List Node} {next : List (Option α)}
    (hpredicts : F.predicts part ((F.firsts part).map some ++ next))
    (hdecides : F.decides part next) (hnext : input[stop]? ∈ next) :
    InRounds S nothing input part start stop nodes →
      ∃ reps, Rounds (fun pos mid found => (pos < mid ∧ pos < input.size) ∧
        S.Exact g scope input part pos mid found) reps start stop nodes
  | .nil => ⟨0, .nil⟩
  | .cons h hrest => by
      obtain ⟨reps, hrounds⟩ := hrest.exact hS hF haside hpredicts hdecides hnext
      have hexact := h.exact hS hF haside hpredicts ((hrest.begins hF).ahead hnext)
      exact ⟨reps + 1, .cons ⟨h.progress hF hdecides, hexact⟩ hrounds⟩

end

end Phrase

end Exact

end RuleScript
