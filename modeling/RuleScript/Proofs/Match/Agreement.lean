import RuleScript.Proofs.Match.Correspondence

/-!
# Agreement of rules and of whole matches

`Correspondence.kind_agree` compares two rules of the same kind, given that the rules inside agree.
`Correspondence.runWithin_agree` compares whole matches.  The second may have more depth left than
the first, if the first is excused when it comes to the end of its depth.

Two comparisons of a graph with itself close the file.  What was on the trace before a match has no
influence on it (`Graph.runWithin_uniform`), and neither has the limit named in an abort, nor any
depth beyond what was needed (`Graph.runWithin_deeper`).
-/

namespace RuleScript

namespace Correspondence

variable {C : Correspondence} {α : Type} {g g' : Graph α} {input input' : Array α}

/-- What the inputs of two matches, their records and their aborts have in common. -/
structure Setting (C : Correspondence) (g g' : Graph α) (input input' : Array α) : Prop where
  element : ∀ pos, input'[pos + C.shift]? = input[pos]?
  room : ∀ pos, input'.size - (pos + C.shift) = input.size - pos
  miss : ∀ pos, C.Misses pos (pos + C.shift)
  missEnd : C.Misses input.size input'.size
  unknown : ∀ id id', C.ids id id' → C.Records (.unknownRule id) (.unknownRule id')
  emptyRepetition : ∀ id id', C.ids id id' → ∀ pos,
    C.Records (.emptyRepetition (g.label id) pos) (.emptyRepetition (g'.label id') (pos + C.shift))
  logged : ∀ id id', C.ids id id' → ∀ severity start len message,
    C.Records (.logged severity (g.label id) ⟨start, len⟩ message)
      (.logged severity (g'.label id') ⟨start + C.shift, len⟩ message)
  entered : ∀ id id' subject subject', C.ids id id' → C.ids subject subject' → ∀ pos,
    C.Records (.breakpointEntered (g.label id) pos (g.label subject))
      (.breakpointEntered (g'.label id') (pos + C.shift) (g'.label subject'))
  left : ∀ id id', C.ids id id' → ∀ pos matched len,
    C.Records (.breakpointLeft (g.label id) pos matched len)
      (.breakpointLeft (g'.label id') (pos + C.shift) matched len)
  fatal : ∀ message start len,
    C.aborts (.fatal message ⟨start, len⟩) (.fatal message ⟨start + C.shift, len⟩)
  unresolved : ∀ name, C.aborts (.unresolvedReference name) (.unresolvedReference name)

/-- The setting is common to two graphs in which rules that stand for each other have the same id and
the same label, if nothing is moved and everything recorded or given as a cause corresponds to
itself. -/
theorem Setting.inPlace (hids : ∀ id id', C.ids id id' → id' = id) (hshift : C.shift = 0)
    (hlabel : ∀ id id', C.ids id id' → g'.label id' = g.label id)
    (hrecords : ∀ event, C.Records event event) (hmisses : ∀ pos, C.Misses pos pos)
    (haborts : ∀ cause, C.aborts cause cause) :
    C.Setting g g' input input where
  element pos := by rw [hshift, Nat.add_zero]
  room pos := by rw [hshift, Nat.add_zero]
  miss pos := by rw [hshift]; exact hmisses pos
  missEnd := hmisses _
  unknown id id' hid := by rw [hids id id' hid]; exact hrecords _
  emptyRepetition id id' hid pos := by rw [hlabel id id' hid, hshift]; exact hrecords _
  logged id id' hid severity start len message := by
    rw [hlabel id id' hid, hshift]
    exact hrecords _
  entered id id' subject subject' hid hsubject pos := by
    rw [hlabel id id' hid, hlabel subject subject' hsubject, hshift]
    exact hrecords _
  left id id' hid pos matched len := by
    rw [hlabel id id' hid, hshift]
    exact hrecords _
  fatal message start len := by rw [hshift]; exact haborts _
  unresolved name := haborts _

/-- Where nothing that is recorded counts, the setting is common to any two graphs over one input. -/
theorem Setting.unrecorded (hshift : C.shift = 0)
    (hrecords : ∀ event event', C.Records event event') (hmisses : ∀ pos, C.Misses pos pos)
    (haborts : ∀ cause, C.aborts cause cause) : C.Setting g g' input input where
  element pos := by rw [hshift, Nat.add_zero]
  room pos := by rw [hshift, Nat.add_zero]
  miss pos := by rw [hshift]; exact hmisses pos
  missEnd := hmisses _
  unknown _ _ _ := hrecords _ _
  emptyRepetition _ _ _ _ := hrecords _ _
  logged _ _ _ _ _ _ _ := hrecords _ _
  entered _ _ _ _ _ _ _ := hrecords _ _
  left _ _ _ _ _ _ := hrecords _ _
  fatal message start len := by rw [hshift]; exact haborts _
  unresolved name := haborts _

/-! ## Rules -/

open Match

theorem entryOver_agree (hsetting : C.Setting g g' input input') {id id' : RuleId}
    (hid : C.ids id id') (severity : Severity) (message : String) (start : Nat)
    {guarded guarded' : Outcome} (hguarded : C.Outcomes guarded guarded') :
    C.Agree (entryOver g id severity message start guarded)
      (entryOver g' id' severity message (start + C.shift) guarded') := by
  cases hguarded with
  | failure => exact .pure (.success 0 C.nodes_nil)
  | success len hfound =>
      rw [entryOver, entryOver]
      split
      · exact .throw (hsetting.fatal message start len)
      · refine (Run.Compares.record (hsetting.logged id id' hid severity start len message)).bind
          fun _ _ _ => .pure (.success 0 ?_)
        exact C.nodes_single start len hid C.nodes_nil

theorem element_agree (hsetting : C.Setting g g' input input') {id id' : RuleId}
    (hid : C.ids id id') (test : α → Bool) (start : Nat) :
    C.Agree (element input id test start) (element input' id' test (start + C.shift)) := by
  rw [element, element, hsetting.element]
  split
  · exact .pure ((Outcomes.success 1 C.nodes_nil).under hid start)
  · exact .miss (hsetting.miss start) .failure

variable [Element α]

theorem agreeing_eq (hsetting : C.Setting g g' input input') (values : List α) (start : Nat) :
    agreeing input' values (start + C.shift) = agreeing input values start := by
  induction values generalizing start with
  | nil => rfl
  | cons value values ih =>
      rw [agreeing, agreeing, hsetting.element, Nat.add_right_comm, ih]

variable {sub sub' : RuleId → Nat → Run Outcome} {id id' : RuleId} {f : RuleId → RuleId}

/-- Two rules of the same kind agree if the rules inside do. -/
theorem kind_agree {kind : Kind α} (hsetting : C.Setting g g' input input') (hid : C.ids id id')
    (hsub : ∀ one ∈ kind.subs, C.SubsAgree sub sub' one (f one)) (start : Nat)
    (hentered : ∀ subject, kind = .breakpoint subject →
      C.Records (.breakpointEntered (g.label id) start (g.label subject))
        (.breakpointEntered (g'.label id') (start + C.shift) (g'.label (f subject))))
    (hchain : ∀ alternatives, kind = .evaluation alternatives →
      C.Agree (chain sub (ChainForm.ofEvaluation g id alternatives) g input.size start)
        (chain sub' (ChainForm.ofEvaluation g' id' (alternatives.map f)) g' input'.size
          (start + C.shift))) :
    C.Agree (Match.kind g input sub id kind start)
      (Match.kind g' input' sub' id' (kind.mapSubs f) (start + C.shift)) := by
  -- Every rule that the kind calls is one of its own, so all calls agree.
  have hone {one : RuleId} (hmem : one ∈ kind.subs) := hsub one hmem
  have hsubs (subs : List RuleId) (hmem : ∀ one ∈ subs, one ∈ kind.subs) :
      List.Forall₂ (C.SubsAgree sub sub') subs (subs.map f) :=
    List.forall₂_map_right_iff.mpr (List.forall₂_same.mpr fun one h => hone (hmem one h))
  -- By the constructor of the kind; the loops have their own lemmas.
  cases kind with
  | any min max =>
      simp only [Kind.mapSubs, Match.kind, anyOf, hsetting.room]
      split
      · exact .miss hsetting.missEnd .failure
      · exact .pure ((Outcomes.success _ C.nodes_nil).under hid start)
  | single value => exact element_agree hsetting hid _ start
  | set values => exact element_agree hsetting hid _ start
  | range lo hi => exact element_agree hsetting hid _ start
  | literal values =>
      simp only [Kind.mapSubs, Match.kind, allOf, agreeing_eq hsetting]
      split
      · exact .pure ((Outcomes.success _ C.nodes_nil).under hid start)
      · rw [Nat.add_right_comm]
        exact .miss (hsetting.miss _) .failure
  | sequence subs =>
      exact (inSequence_agree (hsubs subs fun _ h => h) rfl 0 C.nodes_nil).map
        fun _ _ houtcome => houtcome.under hid start
  | oneOf subs =>
      exact (firstOf_agree (hsubs subs fun _ h => h) rfl).map
        fun _ _ houtcome => houtcome.under hid start
  | count one min max =>
      simp only [Kind.mapSubs, Match.kind, hsetting.room]
      exact (repeated_agree (hone List.mem_cons_self) rfl (hsetting.emptyRepetition id id' hid) _ 0
        0 C.nodes_nil).map fun _ _ houtcome => houtcome.under hid start
  | not one =>
      refine (hone List.mem_cons_self _ _ rfl).bind fun outcome outcome' houtcome => ?_
      cases houtcome with
      | failure => exact .pure (.success 0 C.nodes_nil)
      | success len hfound => exact .pure .failure
  | condition one =>
      refine (hone List.mem_cons_self _ _ rfl).bind fun outcome outcome' houtcome => ?_
      cases houtcome with
      | failure => exact .pure .failure
      | success len hfound => exact .pure (.success 0 hfound)
  | skip stop stopBefore failOnEnd =>
      simp only [Kind.mapSubs, Match.kind, hsetting.room]
      exact (skipTo_agree (hone List.mem_cons_self) rfl _ 0).map
        fun _ _ houtcome => houtcome.under hid start
  | log severity message guard =>
      cases guard with
      | none => exact entryOver_agree hsetting hid severity message start (.success 0 C.nodes_nil)
      | some guard =>
          exact (hone List.mem_cons_self _ _ rfl).bind fun _ _ hguarded =>
            entryOver_agree hsetting hid severity message start hguarded
  | breakpoint subject =>
      refine (Run.Compares.record (hentered subject rfl)).bind fun _ _ _ =>
        (hone List.mem_cons_self _ _ rfl).bind fun outcome outcome' houtcome => ?_
      cases houtcome with
      | failure =>
          exact (Run.Compares.record (hsetting.left id id' hid start false 0)).bind
            fun _ _ _ => .pure .failure
      | success len hfound =>
          exact (Run.Compares.record (hsetting.left id id' hid start true len)).bind
            fun _ _ _ => .pure (.success len hfound)
  | evaluation alternatives => exact hchain alternatives rfl
  | reference target subject =>
      cases subject with
      | none => exact .throw (hsetting.unresolved target)
      | some subject => exact hone List.mem_cons_self _ _ rfl

/-! ## Matches -/

/-- Two graphs that a correspondence is about: rules that stand for each other are of the same
kind, and prunings and operator chains leave corresponding nodes. -/
structure Graphs (C : Correspondence) (g g' : Graph α) (input input' : Array α) : Prop where
  setting : C.Setting g g' input input'
  none : ∀ id id', C.ids id id' → g.rule? id = none → g'.rule? id' = none
  rule : ∀ id id', C.ids id id' → ∀ rule, g.rule? id = some rule →
    ∃ rule' f, g'.rule? id' = some rule' ∧ rule'.kind = rule.kind.mapSubs f ∧
      (∀ one ∈ rule.kind.subs, C.ids one (f one)) ∧
      ∀ found found', C.nodes found found' →
        C.nodes (g.prune rule.pruning found) (g'.prune rule'.pruning found')
  chain : ∀ id id' alternatives alternatives', C.ids id id' →
    g.kind? id = some (.evaluation alternatives) →
    g'.kind? id' = some (.evaluation alternatives') →
    ∀ sub sub', (∀ one one', C.ids one one' → C.SubsAgree sub sub' one one') → ∀ start,
      C.Agree (Match.chain sub (ChainForm.ofEvaluation g id alternatives) g input.size start)
        (Match.chain sub' (ChainForm.ofEvaluation g' id' alternatives') g' input'.size
          (start + C.shift))

theorem Outcomes.mapNodes {outcome outcome' : Outcome} (h : C.Outcomes outcome outcome')
    {f f' : List Node → List Node}
    (hf : ∀ found found', C.nodes found found' → C.nodes (f found) (f' found')) :
    C.Outcomes (outcome.mapNodes f) (outcome'.mapNodes f') := by
  cases h with
  | failure => exact .failure
  | success len hfound => exact .success len (hf _ _ hfound)

/-- Matches of rules that stand for each other agree, the second with some depth more, if they
agree where the first has no depth left. -/
theorem runWithin_agree (hgraphs : C.Graphs g g' input input') (limit limit' extra : Nat)
    (hdepth : ∀ id id', C.ids id id' → (g'.rule? id').isSome → ∀ start,
      C.Agree (throw (.depthExceeded limit start))
        (g'.runWithin input' limit' extra id' (start + C.shift)))
    (depth : Nat) (id id' : RuleId) (hid : C.ids id id') (start : Nat) :
    C.Agree (g.runWithin input limit depth id start)
      (g'.runWithin input' limit' (depth + extra) id' (start + C.shift)) := by
  have hunknown (depth : Nat) {id id' : RuleId} (hid : C.ids id id') (hrule : g.rule? id = none)
      (start : Nat) :
      C.Agree (g.runWithin input limit depth id start)
        (g'.runWithin input' limit' (depth + extra) id' (start + C.shift)) := by
    rw [Graph.runWithin_unknown hrule, Graph.runWithin_unknown (hgraphs.none id id' hid hrule)]
    exact (Run.Compares.record (hgraphs.setting.unknown id id' hid)).bind
      fun _ _ _ => .pure .failure
  -- The depth is that of the first match: when it has none left, the second has `extra`.
  induction depth generalizing id id' start with
  | zero =>
      cases hrule : g.rule? id with
      | none => exact hunknown 0 hid hrule start
      | some rule =>
          obtain ⟨rule', -, hrule', -⟩ := hgraphs.rule id id' hid rule hrule
          rw [Graph.runWithin_zero hrule, Nat.zero_add]
          exact hdepth id id' hid (by rw [hrule', Option.isSome_some]) start
  | succ depth ih =>
      cases hrule : g.rule? id with
      | none => exact hunknown (depth + 1) hid hrule start
      | some rule =>
          obtain ⟨rule', f, hrule', hkind, hf, hprune⟩ := hgraphs.rule id id' hid rule hrule
          have hsub (one one' : RuleId) (hone : C.ids one one') :
              C.SubsAgree (g.runWithin input limit depth)
                (g'.runWithin input' limit' (depth + extra)) one one' := by
            rintro pos pos' rfl
            exact ih one one' hone pos
          rw [Graph.runWithin_succ hrule, Nat.add_right_comm, Graph.runWithin_succ hrule',
            Match.rule, Match.rule, hkind]
          have hmatch : C.Agree (Match.kind g input (g.runWithin input limit depth) id rule.kind start)
              (Match.kind g' input' (g'.runWithin input' limit' (depth + extra)) id'
                (rule.kind.mapSubs f) (start + C.shift)) := by
            refine kind_agree hgraphs.setting hid (fun one hone => hsub one (f one) (hf one hone)) start
              (fun subject heq => ?_) fun alternatives heq => ?_
            · refine hgraphs.setting.entered id id' subject (f subject) hid (hf subject ?_) start
              rw [heq]
              exact List.mem_cons_self
            · refine hgraphs.chain id id' alternatives (alternatives.map f) hid ?_ ?_ _ _ hsub start
              · rw [Graph.kind?_eq_some hrule, heq]
              · rw [Graph.kind?_eq_some hrule', hkind, heq, Kind.mapSubs]
          exact hmatch.map fun _ _ houtcome => houtcome.mapNodes hprune

/-- Matches of rules that stand for each other agree at the same depth. -/
theorem runWithin_agree_of_aborts (hgraphs : C.Graphs g g' input input') (limit limit' : Nat)
    (haborts : ∀ pos, C.aborts (.depthExceeded limit pos) (.depthExceeded limit' (pos + C.shift)))
    (depth : Nat) (id id' : RuleId) (hid : C.ids id id') (start : Nat) :
    C.Agree (g.runWithin input limit depth id start)
      (g'.runWithin input' limit' depth id' (start + C.shift)) := by
  refine runWithin_agree hgraphs limit limit' 0 (fun id id' hid hsome start => ?_) depth id id' hid
    start
  obtain ⟨rule', hrule'⟩ := Option.isSome_iff_exists.mp hsome
  rw [Graph.runWithin_zero hrule']
  exact .throw (haborts start)

end Correspondence

/-! ## A graph and itself -/

namespace Correspondence

variable {α : Type} {g : Graph α} {input input' : Array α}

/-- A graph stands for itself over two inputs, if pruning leaves corresponding nodes. -/
theorem Graphs.self {C : Correspondence} (hids : C.ids = Eq) (hsetting : C.Setting g g input input')
    (hprune : ∀ pruning found found', C.nodes found found' →
      C.nodes (g.prune pruning found) (g.prune pruning found')) :
    C.Graphs g g input input' where
  setting := hsetting
  none id id' hid hrule := by
    rw [hids] at hid
    rwa [← hid]
  rule id id' hid rule hrule := by
    rw [hids] at hid ⊢
    exact ⟨rule, fun one => one, hid ▸ hrule, (Kind.mapSubs_id rule.kind).symm, fun _ _ => rfl,
      hprune rule.pruning⟩
  chain id id' alternatives alternatives' hid hkind hkind' sub sub' hsub start := by
    rw [hids] at hid hsub
    subst hid
    cases hkind.symm.trans hkind'
    -- Both evaluations have one form, so only the rules it calls are compared.
    have hforms : C.Forms sub sub' (C.SameShape g g)
        (Match.ChainForm.ofEvaluation g id alternatives)
        (Match.ChainForm.ofEvaluation g id alternatives) := by
      constructor
      · exact List.forall₂_same.mpr fun one _ => hsub one one rfl
      · refine List.forall₂_same.mpr fun operator _ => ?_
        exact ⟨⟨by rw [hids], rfl, hprune operator.pruning⟩, hsub _ _ rfl, hsub _ _ rfl, rfl⟩
    exact chain_agree hforms rfl (hsetting.room start) fun _ _ _ _ => fold_agree

/-- Nothing is renamed or moved, and forests correspond only if they are equal. -/
def identical (D : Run.Comparison) : Correspondence where
  toComparison := D
  ids := Eq
  shift := 0
  nodes := Eq
  nodes_nil := rfl
  nodes_append := by
    rintro _ _ _ _ rfl rfl
    rfl
  nodes_single := by
    rintro _ _ _ _ _ _ rfl rfl
    rfl

variable {D : Run.Comparison}

theorem Outcomes.eq_of_identical {outcome outcome' : Outcome}
    (h : (identical D).Outcomes outcome outcome') : outcome = outcome' := by
  cases h with
  | failure => rfl
  | success len hfound => exact congrArg _ hfound

theorem identical_graphs (g : Graph α) (input : Array α) (hrecords : ∀ event, D.Records event event)
    (hmisses : ∀ pos, D.Misses pos pos) (haborts : ∀ cause, D.aborts cause cause) :
    (identical D).Graphs g g input input := by
  refine .self rfl (.inPlace (fun _ _ hid => hid.symm) rfl ?_ hrecords hmisses haborts) ?_
  · rintro id _ rfl
    rfl
  · rintro pruning found _ rfl
    rfl

/-- Runs that agree in this way come to the same result, unless the first one is excused. -/
theorem Agree.result_eq {run run' : Run Outcome} (h : (identical D).Agree run run')
    {trace trace' : Trace} (htraces : D.traces trace trace')
    (haborts : ∀ cause cause', D.aborts cause cause' → cause = cause')
    (hexcuse : ∀ cause, (run.result trace).1 = .error cause → ¬ D.excuses cause) :
    (run'.result trace').1 = (run.result trace).1 ∧
      D.traces (run.result trace).2 (run'.result trace').2 := by
  have hsame : (run'.result trace').1.map id = (run.result trace).1.map id ∧
      D.traces (run.result trace).2 (run'.result trace').2 :=
    h.map_result_eq htraces haborts hexcuse fun _ _ houtcome => houtcome.eq_of_identical
  rw [Except.map_id] at hsame
  exact hsame

end Correspondence

/-! ### What was on the trace before -/

/-- A trace that goes on with what another one holds. -/
def Trace.append (trace more : Trace) : Trace where
  farthest := max trace.farthest more.farthest
  journal := trace.journal ++ more.journal

theorem Trace.append_empty (trace : Trace) : trace.append {} = trace := by
  simp [Trace.append]

/-- The second run has `before` on its trace, in front of what the first one has. -/
def Run.Comparison.after (before : Trace) : Run.Comparison where
  traces trace trace' := trace' = before.append trace
  aborts := Eq
  excuses _ := False

/-- A match does the same from every trace, and only adds to it. -/
theorem Graph.runWithin_uniform {α : Type} [Element α] (g : Graph α) (input : Array α)
    (limit depth : Nat) (id : RuleId) (start : Nat) :
    ∃ result more, ∀ trace,
      (g.runWithin input limit depth id start).result trace = (result, trace.append more) := by
  refine ⟨((g.runWithin input limit depth id start).result {}).1,
    ((g.runWithin input limit depth id start).result {}).2, fun trace => ?_⟩
  -- The match from an empty trace tells what the others add.
  have hgraphs : (Correspondence.identical (.after trace)).Graphs g g input input := by
    refine Correspondence.identical_graphs g input ?_ ?_ fun _ => rfl
    · rintro event before _ rfl
      simp [Run.Comparison.after, Trace.append]
    · rintro pos before _ rfl
      simp [Run.Comparison.after, Trace.append, Nat.max_assoc]
  have hagree := Correspondence.runWithin_agree_of_aborts hgraphs limit limit (fun _ => rfl) depth
    id id rfl start
  obtain ⟨hresult, htrace⟩ := hagree.result_eq (Trace.append_empty trace).symm (fun _ _ h => h)
    fun _ _ h => h
  exact Prod.ext hresult htrace

/-! ### Which limit there is -/

/-- The first run may have been cut off for its depth; if not, the second is the same. -/
def Run.Comparison.cutOff : Run.Comparison where
  traces := Eq
  aborts := Eq
  excuses cause := ∃ limit pos, cause = .depthExceeded limit pos

/-- A match that was not cut off comes to the same with more depth, and under any limit. -/
theorem Graph.runWithin_deeper {α : Type} [Element α] {g : Graph α} {input : Array α}
    {limit depth : Nat} {id : RuleId} {start : Nat} {trace : Trace}
    (h : ∀ limit' pos,
      ((g.runWithin input limit depth id start).result trace).1 ≠ .error (.depthExceeded limit' pos))
    (limit' extra : Nat) :
    (g.runWithin input limit' (depth + extra) id start).result trace =
      (g.runWithin input limit depth id start).result trace := by
  have hgraphs : (Correspondence.identical .cutOff).Graphs g g input input := by
    refine Correspondence.identical_graphs g input ?_ ?_ fun _ => rfl
    · rintro event before _ rfl
      rfl
    · rintro pos before _ rfl
      rfl
  -- Running out of depth is the only thing in which the deeper run may differ.
  have hexcuse (pos : Nat) : Run.Comparison.cutOff.excuses (.depthExceeded limit pos) :=
    ⟨limit, pos, rfl⟩
  have hagree := Correspondence.runWithin_agree hgraphs limit limit' extra
    (fun _ _ _ _ pos => Run.Compares.excused (hexcuse pos) _) depth id id rfl start
  -- It is excluded, so the two runs end alike.
  obtain ⟨hresult, htrace⟩ := hagree.result_eq rfl (fun _ _ h => h) fun cause hcause => by
    rintro ⟨limit', pos, rfl⟩
    exact h limit' pos hcause
  exact Prod.ext hresult htrace.symm

end RuleScript
