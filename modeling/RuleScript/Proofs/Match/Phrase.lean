import RuleScript.Proofs.Match.Promise

/-!
# Graphs read as grammars

A graph that is built from sequences, choices, options and repetitions looks like a grammar written
down in productions.  `Productions` is such a grammar and `Phrase.Derives` is what it derives: which
part of the input, and which nodes.  A derivation knows no order of alternatives and no greed; the
matcher has both.

`Productions.Describes` is a check that the rules of a graph are put together as the productions
say, and that they are pruned so that just the named rules and the kept elements leave nodes.  It
can be evaluated.  Of a graph that passes it, `Productions.promises_derives` says that whatever a
rule matches is derived from its phrase, with the nodes of the match.

A phrase may allow for a `recovery`: rules that go on after something that is not well formed.  What
they take is a parameter of the derivations, and if it is empty the derivations are the well-formed
ones.
-/

namespace RuleScript

/-- The right-hand side of a production, over elements of type `α` and names of type `ι`. -/
inductive Phrase (α ι : Type) where
  /-- This element, which leaves a node of the name. -/
  | kept (value : α) (name : ι)
  /-- This element, which leaves nothing. -/
  | dropped (value : α)
  /-- What the production of the name derives, below a node of the name. -/
  | rule (name : ι)
  | sequence (parts : List (Phrase α ι))
  | choice (alternatives : List (Phrase α ι))
  | optional (part : Phrase α ι)
  /-- Any number of times. -/
  | many (part : Phrase α ι)
  /-- Once or more. -/
  | several (part : Phrase α ι)
  /-- What is passed over because it is not well formed. -/
  | recovery

/-- A grammar: for each of its names a phrase, and the rule that the nodes of the name are of. -/
structure Productions (α ι : Type) where
  idOf : ι → RuleId
  phrase : ι → Phrase α ι

variable {α ι : Type}

namespace Phrase

/-- Whether a phrase is put together from others. -/
def hasParts : Phrase α ι → Bool
  | sequence _ | choice _ | optional _ | many _ | several _ => true
  | _ => false

/-! ## Derivations -/

section Relation

variable (S : Productions α ι) (passed : Nat → Nat → List Node → Prop) (input : Array α)

mutual

/-- A phrase derives the input between two positions, with these nodes.  `passed` tells what a
recovery may take. -/
inductive Derives : Phrase α ι → Nat → Nat → List Node → Prop
  | kept {value : α} {name : ι} {pos : Nat} (h : input[pos]? = some value) :
      Derives (.kept value name) pos (pos + 1) [.leaf (S.idOf name) ⟨pos, 1⟩]
  | dropped {value : α} {pos : Nat} (h : input[pos]? = some value) :
      Derives (.dropped value) pos (pos + 1) []
  | rule {name : ι} {start len : Nat} {nodes : List Node}
      (h : Derives (S.phrase name) start (start + len) nodes) :
      Derives (.rule name) start (start + len) [⟨S.idOf name, ⟨start, len⟩, nodes⟩]
  | sequence {parts : List (Phrase α ι)} {start stop : Nat} {nodes : List Node}
      (h : InOrder parts start stop nodes) : Derives (.sequence parts) start stop nodes
  | choice {alternatives : List (Phrase α ι)} {part : Phrase α ι} {start stop : Nat}
      {nodes : List Node} (hpart : part ∈ alternatives) (h : Derives part start stop nodes) :
      Derives (.choice alternatives) start stop nodes
  | absent {part : Phrase α ι} {pos : Nat} : Derives (.optional part) pos pos []
  | present {part : Phrase α ι} {start stop : Nat} {nodes : List Node}
      (h : Derives part start stop nodes) : Derives (.optional part) start stop nodes
  | many {part : Phrase α ι} {start stop : Nat} {nodes : List Node}
      (h : InRounds part start stop nodes) : Derives (.many part) start stop nodes
  | several {part : Phrase α ι} {start mid stop : Nat} {nodes nodes' : List Node}
      (h : Derives part start mid nodes) (hrest : InRounds part mid stop nodes') :
      Derives (.several part) start stop (nodes ++ nodes')
  | recovery {start stop : Nat} {nodes : List Node} (h : passed start stop nodes) :
      Derives .recovery start stop nodes

/-- Phrases one after the other derive the input between two positions. -/
inductive InOrder : List (Phrase α ι) → Nat → Nat → List Node → Prop
  | nil {pos : Nat} : InOrder [] pos pos []
  | cons {part : Phrase α ι} {parts : List (Phrase α ι)} {start mid stop : Nat}
      {nodes nodes' : List Node} (h : Derives part start mid nodes)
      (hrest : InOrder parts mid stop nodes') :
      InOrder (part :: parts) start stop (nodes ++ nodes')

/-- One phrase again and again derives the input between two positions. -/
inductive InRounds : Phrase α ι → Nat → Nat → List Node → Prop
  | nil {part : Phrase α ι} {pos : Nat} : InRounds part pos pos []
  | cons {part : Phrase α ι} {start mid stop : Nat} {nodes nodes' : List Node}
      (h : Derives part start mid nodes) (hrest : InRounds part mid stop nodes') :
      InRounds part start stop (nodes ++ nodes')

end

end Relation

section Inversion

variable {S : Productions α ι} {passed : Nat → Nat → List Node → Prop} {input : Array α}
variable {part : Phrase α ι} {parts : List (Phrase α ι)} {start stop : Nat} {nodes : List Node}

theorem derives_rule_iff {name : ι} :
    Derives S passed input (.rule name) start stop nodes ↔
      ∃ len found, stop = start + len ∧ nodes = [⟨S.idOf name, ⟨start, len⟩, found⟩] ∧
        Derives S passed input (S.phrase name) start (start + len) found := by
  constructor
  · intro h
    cases h with
    | rule h => exact ⟨_, _, rfl, rfl, h⟩
  · rintro ⟨len, found, rfl, rfl, h⟩
    exact .rule h

theorem derives_sequence_iff :
    Derives S passed input (.sequence parts) start stop nodes ↔
      InOrder S passed input parts start stop nodes := by
  constructor
  · intro h
    cases h with
    | sequence h => exact h
  · exact .sequence

theorem derives_choice_iff :
    Derives S passed input (.choice parts) start stop nodes ↔
      ∃ part ∈ parts, Derives S passed input part start stop nodes := by
  constructor
  · intro h
    cases h with
    | choice hpart h => exact ⟨_, hpart, h⟩
  · rintro ⟨part, hpart, h⟩
    exact .choice hpart h

theorem derives_optional_iff :
    Derives S passed input (.optional part) start stop nodes ↔
      stop = start ∧ nodes = [] ∨ Derives S passed input part start stop nodes := by
  constructor
  · intro h
    cases h with
    | absent => exact .inl ⟨rfl, rfl⟩
    | present h => exact .inr h
  · rintro (⟨rfl, rfl⟩ | h)
    · exact .absent
    · exact .present h

theorem derives_many_iff :
    Derives S passed input (.many part) start stop nodes ↔
      InRounds S passed input part start stop nodes := by
  constructor
  · intro h
    cases h with
    | many h => exact h
  · exact .many

theorem derives_recovery_iff :
    Derives S passed input .recovery start stop nodes ↔ passed start stop nodes := by
  constructor
  · intro h
    cases h with
    | recovery h => exact h
  · exact .recovery

theorem inOrder_nil_iff :
    InOrder S passed input [] start stop nodes ↔ stop = start ∧ nodes = [] := by
  constructor
  · intro h
    cases h with
    | nil => exact ⟨rfl, rfl⟩
  · rintro ⟨rfl, rfl⟩
    exact .nil

theorem inOrder_cons_iff :
    InOrder S passed input (part :: parts) start stop nodes ↔
      ∃ mid found found', Derives S passed input part start mid found ∧
        InOrder S passed input parts mid stop found' ∧ nodes = found ++ found' := by
  constructor
  · intro h
    cases h with
    | cons h hrest => exact ⟨_, _, _, h, hrest, rfl⟩
  · rintro ⟨mid, found, found', h, hrest, rfl⟩
    exact .cons h hrest

theorem inOrder_singleton_iff :
    InOrder S passed input [part] start stop nodes ↔ Derives S passed input part start stop nodes := by
  rw [inOrder_cons_iff]
  constructor
  · rintro ⟨mid, found, found', h, hnil, rfl⟩
    obtain ⟨rfl, rfl⟩ := inOrder_nil_iff.mp hnil
    rwa [List.append_nil]
  · exact fun h => ⟨stop, nodes, [], h, .nil, (List.append_nil nodes).symm⟩

theorem derives_pair_iff {other : Phrase α ι} :
    Derives S passed input (.sequence [part, other]) start stop nodes ↔
      ∃ mid found found', Derives S passed input part start mid found ∧
        Derives S passed input other mid stop found' ∧ nodes = found ++ found' := by
  rw [derives_sequence_iff, inOrder_cons_iff]
  simp only [inOrder_singleton_iff]

/-- What alternatives have in common may come before the choice between them. -/
theorem derives_factored_iff {first second : Phrase α ι} :
    Derives S passed input (.choice [.sequence [part, first], .sequence [part, second], part])
      start stop nodes ↔
    Derives S passed input (.sequence [part, .optional (.choice [first, second])])
      start stop nodes := by
  simp only [derives_choice_iff, List.mem_cons, List.not_mem_nil, or_false, exists_eq_or_imp,
    exists_eq_left, derives_pair_iff, derives_optional_iff]
  constructor
  · rintro (⟨mid, found, found', h, hfirst, rfl⟩ | ⟨mid, found, found', h, hsecond, rfl⟩ | h)
    · exact ⟨mid, found, found', h, .inr (.inl hfirst), rfl⟩
    · exact ⟨mid, found, found', h, .inr (.inr hsecond), rfl⟩
    · exact ⟨stop, nodes, [], h, .inl ⟨rfl, rfl⟩, (List.append_nil nodes).symm⟩
  · rintro ⟨mid, found, found', h, ⟨rfl, rfl⟩ | hfirst | hsecond, rfl⟩
    · rw [List.append_nil]
      exact .inr (.inr h)
    · exact .inl ⟨mid, found, found', h, hfirst, rfl⟩
    · exact .inr (.inl ⟨mid, found, found', h, hsecond, rfl⟩)

theorem InRounds.mono {other : Phrase α ι}
    (hpart : ∀ start stop nodes, Derives S passed input part start stop nodes →
      Derives S passed input other start stop nodes) {start stop : Nat} {nodes : List Node} :
    InRounds S passed input part start stop nodes → InRounds S passed input other start stop nodes
  | .nil => .nil
  | .cons h hrest => .cons (hpart _ _ _ h) (hrest.mono hpart)

theorem inRounds_congr {other : Phrase α ι}
    (hpart : ∀ start stop nodes, Derives S passed input part start stop nodes ↔
      Derives S passed input other start stop nodes) :
    InRounds S passed input part start stop nodes ↔
      InRounds S passed input other start stop nodes :=
  ⟨InRounds.mono fun _ _ _ => (hpart _ _ _).mp, InRounds.mono fun _ _ _ => (hpart _ _ _).mpr⟩

end Inversion

/-! ### Productions that are written differently -/

section Transfer

variable {S S' : Productions α ι} {passed : Nat → Nat → List Node → Prop} {input : Array α}

mutual

/-- What one grammar derives another one derives, if it derives all of the first one's phrases
wherever it derives its own. -/
theorem Derives.transfer (hid : ∀ name, S.idOf name = S'.idOf name)
    (hphrase : ∀ name start stop nodes, Derives S' passed input (S.phrase name) start stop nodes →
      Derives S' passed input (S'.phrase name) start stop nodes)
    {phrase : Phrase α ι} {start stop : Nat} {nodes : List Node} :
    Derives S passed input phrase start stop nodes → Derives S' passed input phrase start stop nodes
  | .kept h => by
      rw [hid]
      exact .kept h
  | .dropped h => .dropped h
  | .rule h => by
      rw [hid]
      exact .rule (hphrase _ _ _ _ (h.transfer hid hphrase))
  | .sequence h => .sequence (h.transfer hid hphrase)
  | .choice hpart h => .choice hpart (h.transfer hid hphrase)
  | .absent => .absent
  | .present h => .present (h.transfer hid hphrase)
  | .many h => .many (h.transfer hid hphrase)
  | .several h hrest => .several (h.transfer hid hphrase) (hrest.transfer hid hphrase)
  | .recovery h => .recovery h

theorem InOrder.transfer (hid : ∀ name, S.idOf name = S'.idOf name)
    (hphrase : ∀ name start stop nodes, Derives S' passed input (S.phrase name) start stop nodes →
      Derives S' passed input (S'.phrase name) start stop nodes)
    {parts : List (Phrase α ι)} {start stop : Nat} {nodes : List Node} :
    InOrder S passed input parts start stop nodes → InOrder S' passed input parts start stop nodes
  | .nil => .nil
  | .cons h hrest => .cons (h.transfer hid hphrase) (hrest.transfer hid hphrase)

theorem InRounds.transfer (hid : ∀ name, S.idOf name = S'.idOf name)
    (hphrase : ∀ name start stop nodes, Derives S' passed input (S.phrase name) start stop nodes →
      Derives S' passed input (S'.phrase name) start stop nodes)
    {part : Phrase α ι} {start stop : Nat} {nodes : List Node} :
    InRounds S passed input part start stop nodes → InRounds S' passed input part start stop nodes
  | .nil => .nil
  | .cons h hrest => .cons (h.transfer hid hphrase) (hrest.transfer hid hphrase)

end

end Transfer

/-! ### Well-formed derivations -/

/-- What a recovery takes of what is well formed: nothing, it does not come up. -/
def nothing (_ _ : Nat) (_ : List Node) : Prop := False

section WellFormed

variable {S : Productions α ι} {passed : Nat → Nat → List Node → Prop} {input : Array α}
variable {g : Graph α}

mutual

/-- If a recovery leaves log entries, a derivation without log entries is well formed. -/
theorem Derives.wellFormed
    (hpassed : ∀ start stop nodes, passed start stop nodes → ¬ g.LogFree nodes)
    {phrase : Phrase α ι} {start stop : Nat} {nodes : List Node} :
    Derives S passed input phrase start stop nodes → g.LogFree nodes →
      Derives S nothing input phrase start stop nodes
  | .kept h, _ => .kept h
  | .dropped h, _ => .dropped h
  | .rule h, hfree => .rule (h.wellFormed hpassed (Graph.LogFree.singleton_iff.mp hfree).2)
  | .sequence h, hfree => .sequence (h.wellFormed hpassed hfree)
  | .choice hpart h, hfree => .choice hpart (h.wellFormed hpassed hfree)
  | .absent, _ => .absent
  | .present h, hfree => .present (h.wellFormed hpassed hfree)
  | .many h, hfree => .many (h.wellFormed hpassed hfree)
  | .several h hrest, hfree =>
      have hboth := Graph.LogFree.append_iff.mp hfree
      .several (h.wellFormed hpassed hboth.1) (hrest.wellFormed hpassed hboth.2)
  | .recovery h, hfree => absurd hfree (hpassed _ _ _ h)

theorem InOrder.wellFormed
    (hpassed : ∀ start stop nodes, passed start stop nodes → ¬ g.LogFree nodes)
    {parts : List (Phrase α ι)} {start stop : Nat} {nodes : List Node} :
    InOrder S passed input parts start stop nodes → g.LogFree nodes →
      InOrder S nothing input parts start stop nodes
  | .nil, _ => .nil
  | .cons h hrest, hfree =>
      have hboth := Graph.LogFree.append_iff.mp hfree
      .cons (h.wellFormed hpassed hboth.1) (hrest.wellFormed hpassed hboth.2)

theorem InRounds.wellFormed
    (hpassed : ∀ start stop nodes, passed start stop nodes → ¬ g.LogFree nodes)
    {part : Phrase α ι} {start stop : Nat} {nodes : List Node} :
    InRounds S passed input part start stop nodes → g.LogFree nodes →
      InRounds S nothing input part start stop nodes
  | .nil, _ => .nil
  | .cons h hrest, hfree =>
      have hboth := Graph.LogFree.append_iff.mp hfree
      .cons (h.wellFormed hpassed hboth.1) (hrest.wellFormed hpassed hboth.2)

end

mutual

/-- A well-formed derivation has no log entries, if the nodes of names are none. -/
theorem Derives.logFree (hlog : ∀ name, g.isLog (S.idOf name) = false) {phrase : Phrase α ι}
    {start stop : Nat} {nodes : List Node} :
    Derives S nothing input phrase start stop nodes → g.LogFree nodes
  | .kept _ => Graph.LogFree.singleton_iff.mpr ⟨hlog _, .nil⟩
  | .dropped _ => .nil
  | .rule h => Graph.LogFree.singleton_iff.mpr ⟨hlog _, h.logFree hlog⟩
  | .sequence h => h.logFree hlog
  | .choice _ h => h.logFree hlog
  | .absent => .nil
  | .present h => h.logFree hlog
  | .many h => h.logFree hlog
  | .several h hrest => Graph.LogFree.append_iff.mpr ⟨h.logFree hlog, hrest.logFree hlog⟩
  | .recovery h => h.elim

theorem InOrder.logFree (hlog : ∀ name, g.isLog (S.idOf name) = false)
    {parts : List (Phrase α ι)} {start stop : Nat} {nodes : List Node} :
    InOrder S nothing input parts start stop nodes → g.LogFree nodes
  | .nil => .nil
  | .cons h hrest => Graph.LogFree.append_iff.mpr ⟨h.logFree hlog, hrest.logFree hlog⟩

theorem InRounds.logFree (hlog : ∀ name, g.isLog (S.idOf name) = false) {part : Phrase α ι}
    {start stop : Nat} {nodes : List Node} :
    InRounds S nothing input part start stop nodes → g.LogFree nodes
  | .nil => .nil
  | .cons h hrest => Graph.LogFree.append_iff.mpr ⟨h.logFree hlog, hrest.logFree hlog⟩

end

end WellFormed

end Phrase

/-! ## Graphs that follow productions -/

/-- The rule that a reference without pruning stands for; any other rule stands for itself. -/
def Graph.standsFor (g : Graph α) (id : RuleId) : RuleId :=
  match g.rule? id with
  | some ⟨_, .none, _, .reference _ (some subject)⟩ => subject
  | _ => id

/-- Which names of a grammar a graph is checked for, and which of its rules may recover. -/
structure Scope (ι : Type) where
  names : List ι
  aside : RuleId → Bool

namespace Productions

section Check

variable [Element α] [DecidableEq ι] (S : Productions α ι) (g : Graph α) (scope : Scope ι)

/-- Whether a rule is put together as a phrase says and pruned as the phrase asks for, given
whether a kind of rule has the parts of the phrase. -/
def entry (phrase : Phrase α ι) (inside : Kind α → Bool) (id : RuleId) : Bool :=
  match phrase, g.rule? id with
  | .kept value name, some rule =>
    id = S.idOf name && rule.pruning = .none && rule.kind = .single value
  | .dropped value, some rule => rule.pruning = .all && rule.kind = .single value
  | .rule name, some _ => id = S.idOf name && scope.names.contains name
  | .recovery, some _ => scope.aside id
  | _, some rule => rule.pruning = .root && inside rule.kind
  | _, none => false

mutual

/-- Whether a kind of rule has the parts of a phrase. -/
def contents : Phrase α ι → Kind α → Bool
  | .sequence parts, .sequence ids => each parts ids
  | .choice alternatives, .oneOf ids => each alternatives ids
  | .optional part, .count id 0 1 => S.entry g scope part (contents part) (g.standsFor id)
  | .many part, .count id 0 0 => S.entry g scope part (contents part) (g.standsFor id)
  | .several part, .count id 1 0 => S.entry g scope part (contents part) (g.standsFor id)
  | _, _ => false

/-- Whether rules are put together as phrases say, each as the phrase in the same place. -/
def each : List (Phrase α ι) → List RuleId → Bool
  | [], [] => true
  | part :: parts, id :: ids =>
    S.entry g scope part (contents part) (g.standsFor id) && each parts ids
  | _, _ => false

end

/-- Whether a rule is put together as a phrase says. -/
def realizes (phrase : Phrase α ι) (id : RuleId) : Bool :=
  S.entry g scope phrase (S.contents g scope phrase) (g.standsFor id)

/-- A graph has for each name the rule that its production says, and this rule prunes nothing. -/
def Describes : Prop :=
  (∀ id ∈ g.ids, g.standsFor (g.standsFor id) = g.standsFor id) ∧
    ∀ name ∈ scope.names, ∃ rule ∈ g.rule? (S.idOf name),
      rule.pruning = .none ∧ S.contents g scope (S.phrase name) rule.kind

instance : Decidable (S.Describes g scope) := inferInstanceAs (Decidable (_ ∧ _))

end Check

end Productions

/-! ## Matches are derived -/

/-- A node of a rule over a step, with what the step leaves below it. -/
def Under (id : RuleId) (step : Nat → Nat → List Node → Prop) (start stop : Nat)
    (nodes : List Node) : Prop :=
  ∃ len found, stop = start + len ∧ nodes = [⟨id, ⟨start, len⟩, found⟩] ∧ step start stop found

theorem Outcome.Moves.under {fails : Nat → Prop} {step : Nat → Nat → List Node → Prop}
    {start : Nat} {outcome : Outcome} (h : outcome.Moves fails step start) (id : RuleId) :
    (outcome.under id start).Moves fails (Under id step) start := by
  cases outcome with
  | failure => exact h
  | success len nodes => exact ⟨len, nodes, rfl, rfl, h⟩

/-- A reference does what its subject does, one level deeper. -/
theorem Graph.runWithin_standsFor [Element α] {g : Graph α} {id : RuleId}
    (h : g.standsFor id ≠ id) (input : Array α) (limit depth start : Nat) :
    g.runWithin input limit (depth + 1) id start =
      g.runWithin input limit depth (g.standsFor id) start := by
  unfold standsFor at h ⊢
  split at h
  · rename_i name precedence target subject hrule
    simp only [runWithin_succ hrule, Match.rule, Match.kind, Outcome.mapNodes_prune_none]
    exact id_map _
  · exact absurd rfl h

theorem Graph.promises_standsFor [Element α] {g : Graph α} {input : Array α} {id : RuleId}
    {start : Nat} {ok : Outcome → Prop} (h : g.Promises input (g.standsFor id) start ok) :
    g.Promises input id start ok := by
  by_cases hself : g.standsFor id = id
  · rwa [hself] at h
  · intro limit depth
    cases depth with
    | zero =>
        cases hrule : g.rule? id with
        | none => exact absurd (by simp [standsFor, hrule]) hself
        | some rule =>
            rw [runWithin_zero hrule]
            exact .throw trivial
    | succ depth =>
        rw [runWithin_standsFor hself]
        exact h limit depth

namespace Productions

variable [Element α] [DecidableEq ι] {S : Productions α ι} {g : Graph α} {scope : Scope ι}
variable {passed : Nat → Nat → List Node → Prop} {input : Array α} {start : Nat}

open Phrase

/-! ### The parts of a rule -/

attribute [local simp] contents each

theorem entry_iff {phrase : Phrase α ι} (h : phrase.hasParts) {inside : Kind α → Bool}
    {id : RuleId} :
    S.entry g scope phrase inside id ↔
      ∃ rule, g.rule? id = some rule ∧ rule.pruning = .root ∧ inside rule.kind := by
  cases hrule : g.rule? id with
  | none => cases phrase <;> simp [entry, hrule]
  | some rule => cases phrase <;> simp_all [entry, hasParts]

theorem hasParts_of_contents {phrase : Phrase α ι} {kind : Kind α}
    (h : S.contents g scope phrase kind) : phrase.hasParts := by
  cases phrase <;> simp_all [hasParts]

theorem isLog_of_contents {phrase : Phrase α ι} {kind : Kind α}
    (h : S.contents g scope phrase kind) : kind.isLog = false := by
  cases kind with
  | log severity message guard => cases phrase <;> simp at h
  | _ => rfl

theorem contents_sequence_iff {parts : List (Phrase α ι)} {kind : Kind α} :
    S.contents g scope (.sequence parts) kind ↔
      ∃ ids, kind = .sequence ids ∧ S.each g scope parts ids := by
  cases kind <;> simp

theorem contents_choice_iff {alternatives : List (Phrase α ι)} {kind : Kind α} :
    S.contents g scope (.choice alternatives) kind ↔
      ∃ ids, kind = .oneOf ids ∧ S.each g scope alternatives ids := by
  cases kind <;> simp

theorem contents_optional_iff {part : Phrase α ι} {kind : Kind α} :
    S.contents g scope (.optional part) kind ↔
      ∃ id, kind = .count id 0 1 ∧ S.realizes g scope part id := by
  constructor
  · intro h
    rw [contents.eq_def] at h
    split at h <;> simp_all [realizes]
  · rintro ⟨id, rfl, h⟩
    exact h

theorem contents_many_iff {part : Phrase α ι} {kind : Kind α} :
    S.contents g scope (.many part) kind ↔
      ∃ id, kind = .count id 0 0 ∧ S.realizes g scope part id := by
  constructor
  · intro h
    rw [contents.eq_def] at h
    split at h <;> simp_all [realizes]
  · rintro ⟨id, rfl, h⟩
    exact h

theorem contents_several_iff {part : Phrase α ι} {kind : Kind α} :
    S.contents g scope (.several part) kind ↔
      ∃ id, kind = .count id 1 0 ∧ S.realizes g scope part id := by
  constructor
  · intro h
    rw [contents.eq_def] at h
    split at h <;> simp_all [realizes]
  · rintro ⟨id, rfl, h⟩
    exact h

theorem each_nil_iff {ids : List RuleId} : S.each g scope [] ids ↔ ids = [] := by
  cases ids <;> simp

theorem each_cons_iff {part : Phrase α ι} {parts : List (Phrase α ι)} {ids : List RuleId} :
    S.each g scope (part :: parts) ids ↔
      ∃ id rest, ids = id :: rest ∧ S.realizes g scope part id ∧ S.each g scope parts rest := by
  cases ids with
  | nil => simp
  | cons id rest =>
      rw [each, Bool.and_eq_true]
      constructor
      · exact fun h => ⟨id, rest, rfl, h⟩
      · rintro ⟨_, _, heq, h⟩
        cases heq
        exact h

/-! ### What the rules inside match is derived -/

section Inside

variable {sub : RuleId → Nat → Run Outcome}
variable (hsub : ∀ phrase id, S.realizes g scope phrase id → ∀ pos,
  (sub id pos).Yields (·.Steps (Phrase.Derives S passed input phrase) pos))

include hsub

theorem inSequence_derives {parts : List (Phrase α ι)} {ids : List RuleId}
    (h : S.each g scope parts ids) (len : Nat) (nodes : Array Node) :
    (Match.inSequence sub start ids len nodes).Yields (·.Steps (fun _ stop left =>
      ∃ found, left = nodes.toList ++ found ∧
        Phrase.InOrder S passed input parts (start + len) stop found) start) := by
  induction parts generalizing ids len nodes with
  | nil =>
      obtain rfl := each_nil_iff.mp h
      exact .pure ⟨[], (List.append_nil _).symm, .nil⟩
  | cons part parts ih =>
      obtain ⟨id, rest, rfl, hpart, hrest⟩ := each_cons_iff.mp h
      refine Match.inSequence_cons_meets (hsub part id hpart (start + len)) (fun _ => trivial)
        fun more found hfirst => ?_
      refine (ih hrest (len + more) (nodes ++ found)).mono (fun _ h => h) fun outcome h => ?_
      cases outcome with
      | failure => trivial
      | success total left =>
          obtain ⟨found', rfl, hfound'⟩ := h
          -- The nodes of the first part stand in front of the others.
          refine ⟨found ++ found', ?_, ?_⟩
          · rw [Array.toList_appendList, List.append_assoc]
          · rw [← Nat.add_assoc] at hfound'
            exact .cons hfirst hfound'

theorem firstOf_derives {alternatives : List (Phrase α ι)} {ids : List RuleId}
    (h : S.each g scope alternatives ids) :
    (Match.firstOf sub start ids).Yields
      (·.Steps (Phrase.Derives S passed input (.choice alternatives)) start) := by
  -- Each of the rules realizes one of the alternatives.
  have hid (id : RuleId) (hid : id ∈ ids) : ∃ part ∈ alternatives, S.realizes g scope part id := by
    induction alternatives generalizing ids with
    | nil =>
        obtain rfl := each_nil_iff.mp h
        cases hid
    | cons part parts ih =>
        obtain ⟨first, rest, rfl, hpart, hrest⟩ := each_cons_iff.mp h
        rcases List.mem_cons.mp hid with rfl | hid
        · exact ⟨part, List.mem_cons_self, hpart⟩
        · obtain ⟨other, hother, hreal⟩ := ih hrest hid
          exact ⟨other, List.mem_cons_of_mem _ hother, hreal⟩
  refine Match.firstOf_meets (P := fun _ => (·.Steps
    (Phrase.Derives S passed input (.choice alternatives)) start)) (fun id hmem => ?_) trivial
    fun _ _ _ _ h => h
  obtain ⟨part, hpart, hreal⟩ := hid id hmem
  exact (hsub part id hreal start).mono (fun _ h => h) fun outcome h =>
    Outcome.Steps.mono h fun stop nodes => .choice hpart

/-- A kind of rule with the parts of a phrase leaves a node over what the phrase derives. -/
theorem kind_derives {phrase : Phrase α ι} {kind : Kind α} (h : S.contents g scope phrase kind)
    (id : RuleId) :
    (Match.kind g input sub id kind start).Yields
      (·.Steps (Under id (Phrase.Derives S passed input phrase)) start) := by
  -- The two repetitions differ in how many rounds they ask for.
  have hrounds (part : Phrase α ι) (one : RuleId) (h : S.realizes g scope part one) (min : Nat) :
      (Match.repeated sub (g.label id) one min 0 start (input.size - start) 0 0 #[]).Yields
        (·.Steps (fun _ stop nodes => ∃ reps, min ≤ reps ∧
          Rounds (Phrase.Derives S passed input part) reps start stop nodes) start) := by
    have hroom : input.size ≤ start + 0 + (input.size - start) := by omega
    refine (Match.repeated_rounds (hsub part one h) _ 0 0 #[] .nil hroom).mono (fun _ h => h)
      fun outcome h => ?_
    cases outcome with
    | failure => trivial
    | success len nodes =>
        obtain ⟨reps, hmin, hrounds, -⟩ := h
        exact ⟨reps, hmin, hrounds⟩
  have hinRounds {part : Phrase α ι} {reps pos stop : Nat} {nodes : List Node}
      (h : Rounds (Phrase.Derives S passed input part) reps pos stop nodes) :
      InRounds S passed input part pos stop nodes := by
    induction h with
    | nil => exact .nil
    | cons hfirst _ ih => exact .cons hfirst ih
  cases phrase with
  | sequence parts =>
      obtain ⟨ids, rfl, hparts⟩ := contents_sequence_iff.mp h
      refine (inSequence_derives hsub hparts 0 #[]).map fun outcome h =>
        Outcome.Moves.under (Outcome.Steps.mono h ?_) id
      rintro stop nodes ⟨found, rfl, hfound⟩
      exact .sequence hfound
  | choice alternatives =>
      obtain ⟨ids, rfl, hparts⟩ := contents_choice_iff.mp h
      exact (firstOf_derives hsub hparts).map fun outcome h => h.under id
  | optional part =>
      obtain ⟨one, rfl, hpart⟩ := contents_optional_iff.mp h
      simp only [Match.kind, Match.repeated_once, Functor.map_map]
      refine (hsub part one hpart start).map fun outcome h => ?_
      cases outcome with
      | failure => exact ⟨0, [], rfl, rfl, .absent⟩
      | success len nodes => exact ⟨len, nodes, rfl, rfl, .present h⟩
  | many part =>
      obtain ⟨one, rfl, hpart⟩ := contents_many_iff.mp h
      refine (hrounds part one hpart 0).map fun outcome h =>
        Outcome.Moves.under (Outcome.Steps.mono h ?_) id
      rintro stop nodes ⟨reps, -, hreps⟩
      exact .many (hinRounds hreps)
  | several part =>
      obtain ⟨one, rfl, hpart⟩ := contents_several_iff.mp h
      refine (hrounds part one hpart 1).map fun outcome h =>
        Outcome.Moves.under (Outcome.Steps.mono h ?_) id
      rintro stop nodes ⟨reps, hmin, hreps⟩
      cases hreps with
      | nil => omega
      | cons hfirst hrest => exact .several hfirst (hinRounds hrest)
  | _ => cases hasParts_of_contents h

end Inside

/-! ### Whole matches -/

/-- No reference stands for another one that stands for a third rule. -/
theorem Describes.standsFor_standsFor (h : S.Describes g scope) (id : RuleId) :
    g.standsFor (g.standsFor id) = g.standsFor id := by
  by_cases hid : id ∈ g.ids
  · exact h.1 id hid
  · have hrule : g.rule? id = none := by
      rw [Graph.rule?, Array.getElem?_eq_none_iff]
      exact Nat.not_lt.mp fun hlt => hid (by simpa [Graph.ids, Graph.size] using ⟨_, hlt, rfl⟩)
    have hself : g.standsFor id = id := by simp [Graph.standsFor, hrule]
    rw [hself, hself]

theorem Describes.realizes_standsFor (h : S.Describes g scope) (phrase : Phrase α ι) (id : RuleId) :
    S.realizes g scope phrase (g.standsFor id) = S.realizes g scope phrase id := by
  rw [realizes, h.standsFor_standsFor, ← realizes]

/-- The rule of a name is put together as the name asks for. -/
theorem Describes.realizes_rule (h : S.Describes g scope) {name : ι} (hname : name ∈ scope.names) :
    S.realizes g scope (.rule name) (S.idOf name) := by
  obtain ⟨rule, hrule, -, hcontents⟩ := h.2 name hname
  have hself : g.standsFor (S.idOf name) = S.idOf name := by
    rw [Graph.standsFor]
    split
    · rename_i hreference
      cases Option.some.inj (hreference.symm.trans hrule)
      have hparts := hasParts_of_contents hcontents
      revert hcontents
      cases S.phrase name <;> simp_all [contents, hasParts]
    · rfl
  have hmem : scope.names.contains name := List.contains_iff_mem.mpr hname
  rw [realizes, hself]
  simp only [entry, Option.mem_def.mp hrule, hmem, decide_true, Bool.and_true]

/-- What a rule that stands for itself matches is derived, if what the rules inside match is. -/
theorem rule_derives (hS : S.Describes g scope) {id : RuleId} {rule : Rule α}
    (hrule : g.rule? id = some rule) {sub : RuleId → Nat → Run Outcome}
    (hsub : ∀ phrase id, S.realizes g scope phrase id → ∀ pos,
      (sub id pos).Yields (·.Steps (Phrase.Derives S passed input phrase) pos))
    {phrase : Phrase α ι} (hself : g.standsFor id = id)
    (haside : scope.aside id → (Match.rule g input sub id rule start).Yields (·.Steps passed start))
    (h : S.realizes g scope phrase id) :
    (Match.rule g input sub id rule start).Yields
      (·.Steps (Phrase.Derives S passed input phrase) start) := by
  have hlog (kind : Kind α) (hkind : rule.kind = kind) : g.isLog id = kind.isLog :=
    Graph.isLog_of_kind? (by rw [Graph.kind?_eq_some hrule, hkind])
  -- A phrase with parts leaves its parts' nodes: the node of the rule itself is pruned.
  have hparts (hprune : rule.pruning = .root) (h : S.contents g scope phrase rule.kind) :
      (Match.rule g input sub id rule start).Yields
        (·.Steps (Phrase.Derives S passed input phrase) start) := by
    have hnot : g.isLog id = false := (hlog _ rfl).trans (isLog_of_contents h)
    refine (kind_derives hsub h id).map fun outcome houtcome => ?_
    cases outcome with
    | failure => trivial
    | success len nodes =>
        obtain ⟨len', found, -, rfl, hfound⟩ := houtcome
        rw [Outcome.mapNodes, hprune, Graph.prune_root_singleton hnot]
        exact hfound
  rw [realizes, hself] at h
  cases phrase with
  | kept value name =>
      simp only [entry, hrule, Bool.and_eq_true, decide_eq_true_eq] at h
      obtain ⟨⟨rfl, hprune⟩, hkind⟩ := h
      rw [Match.rule, hkind, hprune]
      refine (Match.single_exact g input _ value start).map ?_
      rintro _ rfl
      split
      · rename_i hvalue
        rw [Outcome.mapNodes, Graph.prune_none]
        exact .kept hvalue
      · trivial
  | dropped value =>
      simp only [entry, hrule, Bool.and_eq_true, decide_eq_true_eq] at h
      obtain ⟨hprune, hkind⟩ := h
      rw [Match.rule, hkind, hprune]
      refine (Match.single_exact g input _ value start).map ?_
      rintro _ rfl
      split
      · rename_i hvalue
        rw [Outcome.mapNodes, Graph.prune_all_leaf (hlog _ hkind)]
        exact .dropped hvalue
      · trivial
  | rule name =>
      simp only [entry, hrule, Bool.and_eq_true, decide_eq_true_eq, List.contains_iff_mem] at h
      obtain ⟨rfl, hname⟩ := h
      obtain ⟨_, hrule', hprune, hcontents⟩ := hS.2 name hname
      cases Option.some.inj (hrule'.symm.trans hrule)
      refine (kind_derives hsub hcontents _).map fun outcome houtcome => ?_
      cases outcome with
      | failure => trivial
      | success len nodes =>
          obtain ⟨len', found, hlen, rfl, hfound⟩ := houtcome
          obtain rfl : len = len' := by omega
          rw [Outcome.mapNodes, hprune, Graph.prune_none]
          exact .rule hfound
  | recovery =>
      simp only [entry, hrule] at h
      exact (haside h).mono (fun _ h => h) fun outcome houtcome =>
        Outcome.Steps.mono houtcome fun _ _ => .recovery
  | _ =>
      simp only [entry, hrule, Bool.and_eq_true, decide_eq_true_eq] at h
      exact hparts h.1 h.2

/-- Whatever a rule matches is derived from the phrase that the rule is put together from, if what
the rules that recover take is passed over. -/
theorem promises_derives (hS : S.Describes g scope)
    (haside : ∀ id pos, scope.aside id → g.Promises input id pos (·.Steps passed pos))
    {phrase : Phrase α ι} {id : RuleId} (h : S.realizes g scope phrase id) (start : Nat) :
    g.Promises input id start (·.Steps (Phrase.Derives S passed input phrase) start) := by
  intro limit depth
  induction depth generalizing phrase id start with
  | zero =>
      cases hrule : g.rule? id with
      | none =>
          rw [Graph.runWithin_unknown hrule]
          exact (Run.Yields.record _).bind fun _ _ => .pure trivial
      | some rule =>
          rw [Graph.runWithin_zero hrule]
          exact .throw trivial
  | succ depth ih =>
      -- A reference that is resolved runs as the rule it stands for, at the same depth.
      by_cases hself : g.standsFor id = id
      · cases hrule : g.rule? id with
        | none =>
            rw [Graph.runWithin_unknown hrule]
            exact (Run.Yields.record _).bind fun _ _ => .pure trivial
        | some rule =>
            have haside' := haside id start
            rw [Graph.runWithin_succ hrule]
            refine rule_derives hS hrule (fun phrase id h pos => ih h pos) hself (fun h => ?_) h
            rw [← Graph.runWithin_succ hrule]
            exact haside' h limit (depth + 1)
      · rw [Graph.runWithin_standsFor hself]
        rw [← hS.realizes_standsFor] at h
        exact ih h start

end Productions

end RuleScript
