import RuleScript.Proofs.Logs
import RuleScript.Proofs.Match.Adequacy
import RuleScript.Proofs.Match.Phrase

/-!
# Rules that leave a remark

A grammar that recovers from what is not well formed says so: the rules that take it leave a log
entry, and nothing but log entries.  There are two forms of such rules.

* A sequence of which all is pruned, with a log rule among its parts (`Graph.isComplaint`).
* A marker that is dropped in front of what it must not stand in front of.  A lookahead finds the
  two, and a log entry is left over them before the marker is passed (`Graph.isStray`).

In the second form the entry is left only if the lookahead of its own matches.  It does, because the
one before it did, at the same position.
-/

namespace RuleScript

variable {α : Type} [Element α] {g : Graph α} {input : Array α} {id : RuleId} {start : Nat}

namespace Graph

/-- What a remark leaves: log entries, and at least one. -/
def Remarks (g : Graph α) (_ _ : Nat) (nodes : List Node) : Prop :=
  nodes ≠ [] ∧ ∀ node ∈ nodes, g.isLog node.rule

omit [Element α] in
theorem Remarks.not_logFree {stop : Nat} {nodes : List Node} (h : g.Remarks start stop nodes) :
    ¬ g.LogFree nodes := by
  intro hfree
  obtain ⟨node, hnode⟩ := List.exists_mem_of_ne_nil nodes h.1
  have hnot := hfree node (Node.mem_preorderAll_of_mem hnode)
  rw [h.2 node hnode] at hnot
  cases hnot

/-! ## Complaints -/

/-- Whether a rule is a sequence of which all is pruned, with a log rule among its parts. -/
def isComplaint (g : Graph α) (id : RuleId) : Bool :=
  match g.rule? id with
  | some ⟨_, .all, _, .sequence ids⟩ =>
    ids.any fun id => match g.kind? id with
      | some (.log _ _ none) => true
      | _ => false
  | _ => false

/-- A log rule without a guard always leaves its entry. -/
theorem promises_entry {severity : Severity} {message : String}
    (hkind : g.kind? id = some (.log severity message none)) (start : Nat) :
    g.Promises input id start (· = .success 0 [.leaf id (.empty start)]) := by
  obtain ⟨rule, hrule, hrulekind⟩ := Option.map_eq_some_iff.mp hkind
  refine promises_of_rule hrule fun sub _ => ?_
  rw [hrulekind]
  simp only [Match.kind, Match.logEntry, Match.entryOver]
  split
  · exact .throw trivial
  · refine (Run.Yields.record _).bind fun _ _ => .pure ?_
    rw [Outcome.mapNodes, prune_log_leaf (isLog_of_kind? hkind)]
    rfl

theorem promises_log {severity : Severity} {message : String}
    (hkind : g.kind? id = some (.log severity message none)) (start : Nat) :
    g.Promises input id start (·.Steps (fun _ _ nodes => ¬ g.LogFree nodes) start) := by
  refine (promises_entry hkind start).mono ?_
  rintro _ rfl hfree
  exact Bool.noConfusion ((isLog_of_kind? hkind).symm.trans (LogFree.singleton_iff.mp hfree).1)

omit [Element α] in
/-- A sequence leaves a log entry if one of its parts does. -/
theorem inSequence_not_logFree {sub : RuleId → Nat → Run Outcome} {part : RuleId}
    (hsub : ∀ pos, (sub part pos).Yields (·.Steps (fun _ _ nodes => ¬ g.LogFree nodes) pos))
    (ids : List RuleId) (len : Nat) (nodes : Array Node)
    (h : part ∈ ids ∨ ¬ g.LogFree nodes.toList) :
    (Match.inSequence sub start ids len nodes).Yields
      (·.Steps (fun _ _ nodes => ¬ g.LogFree nodes) start) := by
  induction ids generalizing len nodes with
  | nil => exact .pure (h.resolve_left List.not_mem_nil)
  | cons id ids ih =>
      -- An entry that is in front stays; else the part that leaves one is still to come.
      have hkeep (found : List Node) (hnodes : ¬ g.LogFree nodes.toList) :
          ¬ g.LogFree (nodes ++ found).toList := by
        rw [Array.toList_appendList]
        exact fun hfree => hnodes (LogFree.append_iff.mp hfree).1
      rcases h with h | h
      · rcases List.mem_cons.mp h with rfl | h
        · refine Match.inSequence_cons_meets (hsub _) (fun _ => trivial)
            fun more found hfound => ih _ _ (.inr ?_)
          rw [Array.toList_appendList]
          exact fun hfree => hfound (LogFree.append_iff.mp hfree).2
        · exact Match.inSequence_cons_meets (Run.Yields.trivial _) (fun _ => trivial)
            fun _ _ _ => ih _ _ (.inl h)
      · exact Match.inSequence_cons_meets (Run.Yields.trivial _) (fun _ => trivial)
          fun _ found _ => ih _ _ (.inr (hkeep found h))

/-- A complaint leaves log entries only. -/
theorem promises_complaint (h : g.isComplaint id) (start : Nat) :
    g.Promises input id start (·.Steps g.Remarks start) := by
  unfold isComplaint at h
  split at h
  · rename_i name precedence ids hrule
    obtain ⟨part, hpart, hkind⟩ := List.any_eq_true.mp h
    refine promises_of_rule hrule fun sub hsub => ?_
    have hlog (pos : Nat) :
        (sub part pos).Yields (·.Steps (fun _ _ nodes => ¬ g.LogFree nodes) pos) := by
      split at hkind
      · rename_i severity message hlog
        exact hsub part pos _ (promises_log hlog pos)
      · cases hkind
    refine (inSequence_not_logFree hlog ids 0 #[] (.inl hpart)).map fun outcome houtcome => ?_
    cases outcome with
    | failure => trivial
    | success len nodes =>
        -- Of the pruned sequence just the entries are left, and there is one.
        rw [Outcome.under, Outcome.mapNodes, prune_all]
        refine ⟨fun hnil => houtcome ?_, fun node => isLog_of_mem_forestLogEntries⟩
        exact (LogFree.singleton_iff.mp (forestLogEntries_eq_nil_iff.mp hnil)).2
  · cases h

/-! ## Stray markers -/

/-- Whether a rule is a marker and one of some followers. -/
def isMisplaced (g : Graph α) (marker : α) (followers : List α) (id : RuleId) : Bool :=
  match g.kind? id with
  | some (.sequence [first, second]) =>
    g.kind? first = some (.single marker) &&
      match g.kind? second with
      | some (.oneOf ids) =>
        ids.all fun id => match g.kind? id with
          | some (.single value) => followers.contains value
          | _ => false
      | _ => false
  | _ => false

/-- Whether a rule drops a marker in front of one of some followers, with a log entry over both. -/
def isStray (g : Graph α) (marker : α) (followers : List α) (id : RuleId) : Bool :=
  match g.rule? id with
  | some ⟨_, .root, _, .sequence [peek, warning, dropped]⟩ =>
    match g.rule? peek, g.rule? warning, g.rule? dropped with
    | some ⟨_, .all, _, .condition seen⟩, some ⟨_, _, _, .log _ _ (some guard)⟩,
      some ⟨_, .all, _, .single _⟩ => seen = guard && g.isMisplaced marker followers seen
    | _, _, _ => false
  | _ => false

/-- The marker stands at a position, and one of the followers after it. -/
def Misplaced (input : Array α) (marker : α) (followers : List α) (start : Nat) : Prop :=
  input[start]? = some marker ∧ ∃ value ∈ followers, input[start + 1]? = some value

theorem promises_single {value : α} (hkind : g.kind? id = some (.single value)) (start : Nat) :
    g.Promises input id start (·.Steps (fun start stop _ => input[start]? = some value ∧
      stop = start + 1) start) := by
  obtain ⟨rule, hrule, hrulekind⟩ := Option.map_eq_some_iff.mp hkind
  refine promises_of_rule hrule fun sub _ => ?_
  rw [hrulekind]
  refine (Match.single_exact g input id value start).mono (fun _ h => h) ?_
  rintro _ rfl
  split
  · rename_i hvalue
    exact ⟨hvalue, rfl⟩
  · trivial

/-- What a rule for a misplaced marker matches starts with the marker and one of the followers. -/
theorem promises_misplaced (input : Array α) {marker : α} {followers : List α}
    (h : g.isMisplaced marker followers id) (start : Nat) :
    g.Promises input id start
      (·.Steps (fun start _ _ => Misplaced input marker followers start) start) := by
  unfold isMisplaced at h
  split at h
  · rename_i first second hkind
    rw [Bool.and_eq_true, decide_eq_true_eq] at h
    obtain ⟨hfirst, hsecond⟩ := h
    split at hsecond
    · rename_i ids hsecondKind
      -- The second part is one of the followers, wherever it is matched.
      have hfollows (pos : Nat) : g.Promises input second pos (·.Steps (fun start _ _ =>
          ∃ value ∈ followers, input[start]? = some value) pos) := by
        obtain ⟨rule, hrule, hrulekind⟩ := Option.map_eq_some_iff.mp hsecondKind
        refine promises_of_rule hrule fun sub hsub => ?_
        rw [hrulekind]
        have hone (one : RuleId) (hmem : one ∈ ids) : (sub one pos).Yields (·.Steps
            (fun start _ _ => ∃ value ∈ followers, input[start]? = some value) pos) := by
          have hvalue := List.all_eq_true.mp hsecond one hmem
          split at hvalue
          · rename_i value hkind
            refine hsub one pos _ ((promises_single hkind pos).mono fun outcome houtcome => ?_)
            exact Outcome.Steps.mono houtcome fun _ _ hstep =>
              ⟨value, List.contains_iff_mem.mp hvalue, hstep.1⟩
          · cases hvalue
        refine (Match.firstOf_meets hone trivial fun _ _ _ _ h => h).map fun outcome houtcome => ?_
        cases outcome with
        | failure => trivial
        | success len nodes => exact houtcome
      obtain ⟨rule, hrule, hrulekind⟩ := Option.map_eq_some_iff.mp hkind
      refine promises_of_rule hrule fun sub hsub => ?_
      rw [hrulekind]
      have hboth : (Match.inSequence sub start [first, second] 0 #[]).Yields (·.Steps
          (fun start _ _ => Misplaced input marker followers start) start) := by
        refine Match.inSequence_cons_meets (hsub first _ _ (promises_single hfirst _))
          (fun _ => trivial) fun len nodes hone => ?_
        obtain ⟨hmarker, hlen⟩ := hone
        obtain rfl : len = 1 := by omega
        exact Match.inSequence_cons_meets (hsub second _ _ (hfollows _)) (fun _ => trivial)
          fun len' nodes' hnext => .pure ⟨hmarker, hnext⟩
      refine hboth.map fun outcome houtcome => ?_
      cases outcome with
      | failure => trivial
      | success len nodes => exact houtcome
    · cases hsecond
  · cases h

/-- A lookahead that leaves nothing but log entries shows that what it looks for matches. -/
theorem promises_peek (hprimitive : g.Primitive) (input : Array α) {rule : Rule α}
    (hrule : g.rule? id = some rule) {seen : RuleId} (hkind : rule.kind = .condition seen)
    (hprune : rule.pruning = .all) {ok : Nat → Prop}
    (hseen : g.Promises input seen start (·.Steps (fun start _ _ => ok start) start)) :
    g.Promises input id start (·.Steps (fun start stop nodes => stop = start ∧ ok start ∧
      (∃ len, Derives g input seen start (some len)) ∧ ∀ node ∈ nodes, g.isLog node.rule) start) := by
  have hboth := hseen.and fun limit depth => runWithin_yields hprimitive.ordinary limit depth seen start
  refine promises_of_rule hrule fun sub hsub => ?_
  rw [hkind, hprune]
  refine (hsub seen start _ hboth).bind fun outcome houtcome => ?_
  cases outcome with
  | failure => exact .pure trivial
  | success len nodes =>
      refine .pure ⟨rfl, houtcome.1, ⟨len, houtcome.2⟩, fun node hnode => ?_⟩
      rw [prune_all] at hnode
      exact isLog_of_mem_forestLogEntries hnode

/-- A guarded log rule leaves one log entry, or its guard does not match. -/
theorem promises_guarded (hprimitive : g.Primitive) (input : Array α) {severity : Severity}
    {message : String} {guard : RuleId} (hkind : g.kind? id = some (.log severity message (some guard)))
    (start : Nat) :
    g.Promises input id start (·.Steps (fun start stop nodes => stop = start ∧
      (∀ node ∈ nodes, g.isLog node.rule) ∧
        (nodes = [] → Derives g input guard start none)) start) := by
  have hlog : g.isLog id := isLog_of_kind? hkind
  obtain ⟨rule, hrule, hrulekind⟩ := Option.map_eq_some_iff.mp hkind
  refine promises_of_rule hrule fun sub hsub => ?_
  rw [hrulekind]
  refine (hsub guard start _ fun limit depth =>
    runWithin_yields hprimitive.ordinary limit depth guard start).bind fun outcome houtcome => ?_
  cases outcome with
  | failure =>
      refine .pure ⟨rfl, fun node hnode => ?_, fun _ => houtcome⟩
      cases hnode
  | success len nodes =>
      rw [Match.entryOver]
      split
      · exact .throw trivial
      · -- The entry is the only node, and it is there only if the guard has matched.
        refine (Run.Yields.record _).bind fun _ _ => .pure ?_
        rw [Outcome.mapNodes, prune_log_leaf hlog]
        refine ⟨rfl, fun node hnode => ?_, fun hnil => by cases hnil⟩
        rw [List.mem_singleton.mp hnode]
        exact hlog

/-- A single element whose node is dropped leaves nothing. -/
theorem promises_dropped {name : Option String} {precedence : Precedence} {value : α}
    (hrule : g.rule? id = some ⟨name, .all, precedence, .single value⟩) (input : Array α)
    (start : Nat) : g.Promises input id start (·.Steps (fun _ _ nodes => nodes = []) start) := by
  have hlog : g.isLog id = false := isLog_of_kind? (kind?_eq_some hrule)
  refine promises_of_rule hrule fun sub _ =>
    (Match.single_exact g input id value start).mono (fun _ h => h) ?_
  rintro _ rfl
  split
  · exact prune_all_leaf hlog _
  · trivial

/-- A stray marker is one in front of a follower, and what is left are log entries only. -/
theorem promises_stray (hprimitive : g.Primitive) {marker : α} {followers : List α}
    (h : g.isStray marker followers id) (start : Nat) :
    g.Promises input id start (·.Steps (fun start stop nodes =>
      Misplaced input marker followers start ∧ g.Remarks start stop nodes) start) := by
  unfold isStray at h
  split at h
  · rename_i name precedence peek warning dropped hrule
    split at h
    · rename_i hpeek hwarning hdropped
      rw [Bool.and_eq_true, decide_eq_true_eq] at h
      obtain ⟨rfl, hseen⟩ := h
      have hlog : g.isLog id = false := isLog_of_kind? (kind?_eq_some hrule)
      have hfirst := promises_peek hprimitive input hpeek rfl rfl
        (promises_misplaced input hseen start)
      have hsecond := promises_guarded hprimitive input (kind?_eq_some hwarning) start
      refine promises_of_rule hrule fun sub hsub => ?_
      -- The peek moves nothing, then comes the warning, and the element itself leaves no node.
      have hall : (Match.inSequence sub start [peek, warning, dropped] 0 #[]).Yields (·.Steps
          (fun start stop nodes => Misplaced input marker followers start ∧
            g.Remarks start stop nodes) start) := by
        refine Match.inSequence_cons_meets (hsub peek _ _ hfirst) (fun _ => trivial)
          fun len nodes hpeeked => ?_
        obtain ⟨hlen, hmisplaced, ⟨_, hmatch⟩, hnodes⟩ := hpeeked
        obtain rfl : len = 0 := by omega
        refine Match.inSequence_cons_meets (hsub warning _ _ hsecond) (fun _ => trivial)
          fun len' nodes' hwarned => ?_
        obtain ⟨-, hnodes', hnone⟩ := hwarned
        refine Match.inSequence_cons_meets (hsub dropped _ _ (promises_dropped hdropped input _))
          (fun _ => trivial) fun len'' nodes'' hnothing => ?_
        obtain rfl : nodes'' = [] := hnothing
        refine .pure ⟨hmisplaced, ?_⟩
        simp only [Array.toList_appendList, List.nil_append, List.append_nil]
        constructor
        · -- Without an entry the guard would match nothing where it matched before.
          intro hnil
          have hguard := hnone (List.append_eq_nil_iff.mp hnil).2
          cases hmatch.functional hprimitive.ordinary hguard
        · intro node hnode
          exact (List.mem_append.mp hnode).elim (hnodes node) (hnodes' node)
      refine hall.map fun outcome houtcome => ?_
      cases outcome with
      | failure => trivial
      | success len nodes =>
          rw [Outcome.under, Outcome.mapNodes, prune_root_singleton hlog]
          exact houtcome
    · cases h
  · cases h

end Graph

end RuleScript
