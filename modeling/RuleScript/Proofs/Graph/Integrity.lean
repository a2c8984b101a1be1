import RuleScript.Proofs.Graph.Ledger

/-!
# Ledgers stay in step

Whatever changes are made to a ledger, one after the other, with any arguments and with any ledgers
merged into it: each entry keeps its position for its id, the table of names has just the names of
the entries, and no id dangles.  A change that fails leaves the ledger as it was, but for resolving,
which links before it looks for what is missing (`Ledger.Built.faithful`).

The induction is over the changes and says that the ledger is that of a well-formed graph
(`Ledger.Built.exists_graph`).  All that is kept twice can be read off from there.
-/

namespace RuleScript

namespace Ledger

variable {α : Type} {g : Graph α}

/-! ## Changes in a row -/

/-- A change with its arguments. -/
inductive Change (α : Type) where
  | register (rule : Rule α)
  | setRoot (id : RuleId)
  | link
  | resolve
  | replace (source target : RuleId)
  | setBreakpoint (name : String)
  | clearBreakpoint (name : String)
  | merge (other : Ledger α)

/-- A change without its answer. -/
def silent {β : Type} (update : Update α β) : Update α Unit := (fun _ => ()) <$> update

/-- The outcome of a change and the ledger after it. -/
def Change.perform (l : Ledger α) : Change α → Except GraphError Unit × Ledger α
  | register rule => (silent (Ledger.register rule)).run.run l
  | setRoot id => (Ledger.setRoot id).run.run l
  | link => Ledger.link.run.run l
  | resolve => Ledger.resolve.run.run l
  | replace source target => (Ledger.replace source target).run.run l
  | setBreakpoint name => (silent (Ledger.setBreakpoint name)).run.run l
  | clearBreakpoint name => (Ledger.clearBreakpoint name).run.run l
  | merge other => (silent (Ledger.merge other)).run.run l

/-- The same change of a graph. -/
def Change.onGraph (g : Graph α) : Change α → Except GraphError Unit × Graph α
  | register rule => settled g ((g.register rule).map fun registered => ((), registered.2))
  | setRoot id => settled g ((g.setRoot id).map ((), ·))
  | link => (.ok (), g.link)
  | resolve => g.resolve
  | replace source target => settled g ((g.replace source target).map ((), ·))
  | setBreakpoint name => settled g ((g.setBreakpoint name).map fun set => ((), set.graph))
  | clearBreakpoint name => settled g ((g.clearBreakpoint name).map ((), ·))
  | merge other => (.ok (), (g.merge other.graph).2)

/-- A ledger that was filled by changes, with ids for all its rules at any time.  What is merged into
it was filled like that as well; it may be the ledger itself. -/
inductive Built : Ledger α → Prop
  | new : Built {}
  | change {l : Ledger α} (h : Built l) (change : Change α)
      (hmerged : ∀ other, change = .merge other → Built other)
      (hroom : (change.perform l).2.size < RuleId.invalid.index) : Built (change.perform l).2

theorem InStep.silent {β : Type} {update : Update α β} {result : Except GraphError (β × Graph α)}
    (h : InStep update g (settled g result)) :
    InStep (silent update) g (settled g (result.map fun changed => ((), changed.2))) := by
  rw [InStep, Ledger.silent, ExceptT.run_map, StateT.run_map, h]
  cases result <;> rfl

theorem settled_wellFormed {β γ : Type} (hg : g.WellFormed) {result : Except GraphError β}
    {changed : β → γ × Graph α} (h : ∀ value, result = .ok value → (changed value).2.WellFormed) :
    (settled g (result.map changed)).2.WellFormed := by
  cases result with
  | ok value => exact h value rfl
  | error error => exact hg

/-- A change of the ledger of a well-formed graph is the change of the graph, which stays
well-formed. -/
theorem perform_ofGraph (hg : g.WellFormed) (hids : g.size < RuleId.invalid.index)
    {change : Change α}
    (hmerged : ∀ other, change = .merge other → ∃ g' : Graph α, g'.WellFormed ∧ other = ofGraph g')
    (hroom : (change.perform (ofGraph g)).2.size < RuleId.invalid.index) :
    change.perform (ofGraph g) = ((change.onGraph g).1, ofGraph (change.onGraph g).2) ∧
      (change.onGraph g).2.WellFormed := by
  cases change with
  | register rule =>
      exact ⟨(register_inStep hids rule).silent, settled_wellFormed hg fun _ => hg.register⟩
  | setRoot id => exact ⟨setRoot_inStep id, settled_wellFormed hg fun _ => hg.setRoot⟩
  | link => exact ⟨link_inStep, hg.link⟩
  | resolve =>
      refine ⟨resolve_inStep, ?_⟩
      rw [Change.onGraph, Graph.snd_resolve]
      exact hg.link
  | replace source target =>
      exact ⟨replace_inStep source target, settled_wellFormed hg fun _ => hg.replace⟩
  | setBreakpoint name =>
      have hstep := (setBreakpoint_inStep hids name).silent
      refine ⟨?_, settled_wellFormed hg fun _ => hg.setBreakpoint⟩
      rw [Change.onGraph]
      cases hset : g.setBreakpoint name <;> rw [hset] at hstep <;> exact hstep
  | clearBreakpoint name =>
      exact ⟨clearBreakpoint_inStep name, settled_wellFormed hg fun _ => hg.clearBreakpoint⟩
  | merge other =>
      obtain ⟨g', hg', rfl⟩ := hmerged other rfl
      rw [Change.onGraph, graph_ofGraph]
      refine ⟨?_, hg.merge hg'⟩
      -- The room that is left after the merge is room enough for each of its steps.
      have hsize : (g.merge g').2.size < RuleId.invalid.index := by
        have hsame : (Change.merge (ofGraph g')).perform (ofGraph g) =
            (fun ended => (ended.1.map fun _ => (), ended.2))
              ((merge (ofGraph g')).run.run (ofGraph g)) := by
          rw [Change.perform, silent, ExceptT.run_map, StateT.run_map]
          rfl
        rw [← size_merge (Nat.le_of_lt hids)]
        rwa [hsame] at hroom
      exact ((merge_inStep hg hg' (Nat.le_of_lt hsize)).bind rfl)

/-- A ledger that was filled by changes is the ledger of a well-formed graph. -/
theorem Built.exists_graph {l : Ledger α} (h : l.Built) :
    ∃ g : Graph α, g.WellFormed ∧ g.size < RuleId.invalid.index ∧ l = ofGraph g := by
  induction h with
  | new => exact ⟨.empty, Graph.empty_wellFormed, Nat.succ_pos _, rfl⟩
  | change h change hmerged hroom ih ihmerged =>
      obtain ⟨g, hg, hids, rfl⟩ := ih
      obtain ⟨hperform, hchanged⟩ := perform_ofGraph hg hids
        (fun other hother => by
          obtain ⟨g', hg', -, heq⟩ := ihmerged other hother
          exact ⟨g', hg', heq⟩) hroom
      rw [hperform] at hroom ⊢
      exact ⟨_, hchanged, by rwa [size_ofGraph] at hroom, rfl⟩

/-- What is kept in a ledger is kept in step: each entry has its position for its id, the table has
just the names of the entries, and all ids in use are ids of entries. -/
structure Faithful (l : Ledger α) : Prop where
  ids : ∀ (index : Nat) (entry : Entry α), l.entries[index]? = some entry → entry.id = ⟨index⟩
  names : ∀ name id,
    (name, id) ∈ l.names ↔ ∃ entry ∈ l.entries, entry.id = id ∧ entry.rule.name = some name
  distinct : ∀ entry ∈ l.entries, ∀ entry' ∈ l.entries, entry.rule.name.isSome →
    entry.rule.name = entry'.rule.name → entry.id = entry'.id
  edges : ∀ entry ∈ l.entries, ∀ sub ∈ entry.rule.kind.subs, l.contains sub ∧ sub ≠ .invalid
  root : ∀ id ∈ l.root, l.contains id ∧ id ≠ .invalid

theorem ofGraph_faithful (hg : g.WellFormed) (hids : g.size < RuleId.invalid.index) :
    (ofGraph g).Faithful := by
  -- The invalid id lies behind all rules that there is room for.
  have hvalid (id : RuleId) (hid : g.contains id) :
      (ofGraph g).contains id ∧ id ≠ .invalid := by
    refine ⟨(contains_ofGraph g id).trans hid, ?_⟩
    rintro rfl
    exact Nat.lt_asymm hids (Graph.contains_iff.mp hid)
  refine ⟨fun index entry hentry => ?_, fun name id => ?_, ?_, ?_, fun id hid => ?_⟩
  · rw [ofGraph, ofRules, getElem?_numbered, Nat.zero_add] at hentry
    obtain ⟨rule, -, rfl⟩ := Option.map_eq_some_iff.mp hentry
    rfl
  · rw [mem_names_ofGraph, Graph.nameOf?_eq_some_iff]
    constructor
    · rintro ⟨rule, hrule, hname⟩
      exact ⟨⟨id, rule⟩, mem_entries_ofGraph.mpr hrule, rfl, hname⟩
    · rintro ⟨entry, hentry, rfl, hname⟩
      exact ⟨entry.rule, mem_entries_ofGraph.mp hentry, hname⟩
  · intro entry hentry entry' hentry' hsome hname
    obtain ⟨name, hsome⟩ := Option.isSome_iff_exists.mp hsome
    exact Graph.eq_of_nameOf? hg.distinct
      (Graph.nameOf?_eq_some_iff.mpr ⟨_, mem_entries_ofGraph.mp hentry, hsome⟩)
      (Graph.nameOf?_eq_some_iff.mpr ⟨_, mem_entries_ofGraph.mp hentry', hname ▸ hsome⟩)
  · intro entry hentry sub hsub
    exact hvalid sub (hg.edges entry.rule
      (Array.mem_of_getElem? (mem_entries_ofGraph.mp hentry)) sub hsub)
  · exact hvalid id (hg.root id hid)

/-- A change of a graph that fails changes nothing, unless it was to resolve all references. -/
theorem Change.onGraph_error {change : Change α} (hchange : change ≠ .resolve) {error : GraphError}
    (h : (change.onGraph g).1 = .error error) : (change.onGraph g).2 = g := by
  have hsettled {β : Type} (result : Except GraphError (β × Graph α))
      (h : (settled g result).1 = .error error) : (settled g result).2 = g := by
    cases result with
    | ok changed => cases h
    | error error => rfl
  cases change with
  | link => cases h
  | resolve => exact absurd rfl hchange
  | merge other => cases h
  | register rule => exact hsettled _ h
  | setRoot id => exact hsettled _ h
  | replace source target => exact hsettled _ h
  | setBreakpoint name => exact hsettled _ h
  | clearBreakpoint name => exact hsettled _ h

/-- **A graph that is changed in place stays in step with itself.**  After any changes the ledger is
faithful and its graph well-formed; each further change does to it what it does to the graph; and a
change that fails, other than to resolve, leaves all of the ledger as it was. -/
theorem Built.faithful {l : Ledger α} (h : l.Built) :
    l.Faithful ∧ l.graph.WellFormed ∧
      ∀ change : Change α, (∀ other, change = .merge other → other.Built) →
        (change.perform l).2.size < RuleId.invalid.index →
        ((change.perform l).1, (change.perform l).2.graph) = change.onGraph l.graph ∧
          (change ≠ .resolve → ∀ error, (change.perform l).1 = .error error →
            (change.perform l).2 = l) := by
  obtain ⟨g, hg, hids, rfl⟩ := h.exists_graph
  rw [graph_ofGraph]
  refine ⟨ofGraph_faithful hg hids, hg, fun change hmerged hroom => ?_⟩
  obtain ⟨hperform, -⟩ := perform_ofGraph hg hids (fun other hother => by
    obtain ⟨g', hg', -, heq⟩ := (hmerged other hother).exists_graph
    exact ⟨g', hg', heq⟩) hroom
  rw [hperform, graph_ofGraph]
  exact ⟨rfl, fun hchange error herror => by rw [Change.onGraph_error hchange herror]⟩

/-- The ledger of a mark and of a list of such marks, with a breakpoint on the mark. -/
def marksLedger : Ledger Char :=
  let perform (l : Ledger Char) (change : Change Char) : Ledger Char := (change.perform l).2
  [.register (.named "marks" (.ofKind (.reference "mark" none))), .setRoot ⟨0⟩,
    .register (.named "mark" (.ofKind (.single '+'))), .resolve, .setBreakpoint "mark"].foldl
      perform {}

theorem marksLedger_built : marksLedger.Built :=
  ((((Built.new.change (.register (.named "marks" (.ofKind (.reference "mark" none)))) nofun
    (by decide +kernel)).change (.setRoot ⟨0⟩) nofun (by decide +kernel)).change
      (.register (.named "mark" (.ofKind (.single '+')))) nofun (by decide +kernel)).change
        .resolve nofun (by decide +kernel)).change (.setBreakpoint "mark") nofun (by decide +kernel)

/-- The ledger can be merged into itself, but it has no room for a second rule with the name. -/
theorem marksLedger_faithful :
    marksLedger.Built ∧ marksLedger.Faithful ∧ marksLedger.graph.WellFormed ∧
      ((Change.merge marksLedger).perform marksLedger).2.graph =
        (marksLedger.graph.merge marksLedger.graph).2 ∧
      ((Change.register (.named "mark" (.ofKind (.single '-')))).perform marksLedger).1 =
        .error (.duplicateName "mark") ∧
      ((Change.register (.named "mark" (.ofKind (.single '-')))).perform marksLedger).2 =
        marksLedger := by
  obtain ⟨hfaithful, hwellFormed, hperform⟩ := marksLedger_built.faithful
  have hmerge := hperform (.merge marksLedger)
    (fun other hother => by cases hother; exact marksLedger_built) (by decide +kernel)
  have hregister := hperform (.register (.named "mark" (.ofKind (.single '-')))) nofun
    (by decide +kernel)
  have herror : ((Change.register (.named "mark" (.ofKind (.single '-')))).perform
      marksLedger).1 = .error (.duplicateName "mark") := by decide +kernel
  exact ⟨marksLedger_built, hfaithful, hwellFormed, congrArg Prod.snd hmerge.1, herror,
    hregister.2 nofun _ herror⟩

end Ledger

end RuleScript
