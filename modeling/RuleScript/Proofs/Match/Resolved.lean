import RuleScript.Proofs.Graph.Reachability
import RuleScript.Proofs.Match.Passing

/-!
# Graphs that resolve

Resolving a graph tells by name what is missing in reach of its root, and if it finds nothing missing
then a match from the root never comes to miss a rule (`Graph.resolve_exact`).

A match goes from a rule only to rules that it reaches.  This holds of evaluations too, whose operands
and operators lie deeper than what they refer to.  So the runs of the rules in reach of the root are
`Run.IsSettled` as long as the graph has them all and none of them is a pending reference.
-/

namespace RuleScript

/-! ## Runs that miss no rule -/

/-- No rule has been asked for that the graph does not have. -/
def Trace.AllKnown (trace : Trace) : Prop := ∀ id, Event.unknownRule id ∉ trace.journal

/-- A reference that points at no rule was matched. -/
def Abort.IsUnresolved : Abort → Prop
  | unresolvedReference _ => True
  | _ => False

/-- A run that misses no rule. -/
def Run.IsSettled {β : Type} (run : Run β) : Prop :=
  run.Meets Trace.AllKnown (¬ ·.IsUnresolved) fun _ => True

namespace Run.IsSettled

variable {β γ : Type} {run : Run β}

protected theorem pure (value : β) : (pure value : Run β).IsSettled := Meets.pure trivial

theorem bind {next : β → Run γ} (h : run.IsSettled) (hnext : ∀ value, (next value).IsSettled) :
    (run >>= next).IsSettled :=
  Meets.bind h fun value _ => hnext value

theorem map (f : β → γ) (h : run.IsSettled) : (f <$> run).IsSettled := Meets.map h fun _ _ => trivial

end Run.IsSettled

theorem Trace.steady_allKnown : Trace.Steady Trace.AllKnown where
  record hevent htrace id hmem := (Array.mem_push.mp hmem).elim (htrace id) fun heq =>
    hevent id heq.symm
  miss htrace := htrace

namespace Match

variable {sub : RuleId → Nat → Run Outcome} {start : Nat}

theorem firstOf_isSettled {ids : List RuleId} (hsub : ∀ id ∈ ids, ∀ pos, (sub id pos).IsSettled) :
    (firstOf sub start ids).IsSettled :=
  firstOf_passes Node.additive_true hsub

theorem chain_isSettled {α : Type} {g : Graph α} {form : ChainForm} {size : Nat}
    (hoperands : ∀ id ∈ form.operands, ∀ pos, (sub id pos).IsSettled)
    (hoperators : ∀ operator ∈ form.operators, ∀ pos,
      (sub operator.operator pos).IsSettled ∧ (sub operator.right pos).IsSettled) :
    (chain sub form g size start).IsSettled := by
  have hright (operator : BinaryOperator) (hmem : operator ∈ form.operators) (pos : Nat) :
      (rightOperand sub form operator pos).IsSettled := by
    rw [rightOperand]
    split
    · exact firstOf_isSettled hoperands
    · exact (hoperators operator hmem pos).2
  -- Nothing is asked of the links but that looking for them is settled.
  have hnext (pos : Nat) : (nextLink sub form pos form.operators).Meets Trace.AllKnown
      (¬ ·.IsUnresolved) fun link? => ∀ link ∈ link?, True ∧ True :=
    nextLink_meets (fun operator hmem => (hoperators operator hmem pos).1)
      (fun operator hmem _ _ _ => hright operator hmem _) fun _ _ _ _ _ _ _ _ _ => ⟨trivial, trivial⟩
  refine (firstOf_isSettled hoperands).bind fun outcome => ?_
  cases outcome with
  | failure => exact .pure _
  | success len nodes =>
      have hlinks := extend_meets (fun _ => True) (fun pos _ => hnext pos) (size - start)
        (start + len) #[] trivial fun _ _ => trivial
      exact hlinks.bind fun links _ => Run.IsSettled.pure _

/-- A rule that is no pending reference misses no rule if those it reaches do not. -/
theorem kind_isSettled {α : Type} [Element α] {g : Graph α} {input : Array α} {id : RuleId}
    {kind : Kind α} (hkind : g.kind? id = some kind) (hpending : kind.pending? = none)
    (hsub : ∀ sub', g.Reaches id sub' → ∀ pos, (sub sub' pos).IsSettled) :
    (Match.kind g input sub id kind start).IsSettled := by
  refine (kind_passes Trace.steady_allKnown Node.additive_true hkind ?_ ?_ ?_ ?_).mono
    (fun _ h => h) fun _ _ => trivial
  · rintro name rfl
    cases hpending
  · exact fun _ _ _ _ h => h
  · rintro alternatives rfl
    refine (chain_isSettled (fun operand hmem => hsub operand (Graph.reaches_of_mem_operands hkind hmem))
      fun operator hmem pos => ?_).mono (fun _ h => h) fun outcome _ => .of_nodes trivial
    obtain ⟨hoperator, hright⟩ := Graph.reaches_of_mem_operators hkind hmem
    exact ⟨hsub operator.operator hoperator pos, hsub operator.right hright pos⟩
  · exact fun one hmem => hsub one (Graph.reaches_of_mem_subs hkind hmem)

end Match

namespace Graph

variable {α : Type} {g : Graph α}

/-- A rule in reach of the root asks for a name and points at no rule. -/
def Asks (g : Graph α) (id : RuleId) (name : String) : Prop :=
  g.FromRoot id ∧ g.kind? id = some (.reference name none)

theorem pending?_eq_some_iff {kind : Kind α} {name : String} :
    kind.pending? = some name ↔ kind = .reference name none := by
  cases kind with
  | reference target subject => cases subject <;> simp [Kind.pending?]
  | _ => simp [Kind.pending?]

/-- In a well-formed graph where no rule in reach of the root points at nothing, a match of a rule in
reach of the root misses no rule. -/
theorem runWithin_isSettled [Element α] (hg : g.WellFormed) (hresolved : ∀ id name, ¬ g.Asks id name)
    (input : Array α) (limit depth : Nat) {id : RuleId} (hid : g.FromRoot id) (start : Nat) :
    (g.runWithin input limit depth id start).IsSettled := by
  refine runWithin_induction (P := fun id _ run => g.FromRoot id → run.IsSettled) ?_ ?_ ?_
    depth id start hid
  · intro id start hrule hid
    -- Every rule in reach of the root is there.
    have hlt : id.index < g.size := contains_iff.mp (hg.contains_of_fromRoot hid)
    rw [rule?, Array.getElem?_eq_getElem hlt] at hrule
    cases hrule
  · intro id start hid
    exact Run.Meets.throw fun h => h
  · intro depth ih id rule hrule start hid
    have hkind := kind?_eq_some hrule
    refine (Match.kind_isSettled hkind ?_ fun sub hsub pos => ih sub pos (hid.trans hsub)).map _
    cases hpending : rule.kind.pending? with
    | none => rfl
    | some name =>
        rw [pending?_eq_some_iff.mp hpending] at hkind
        exact (hresolved id name ⟨hid, hkind⟩).elim

/-! ## Missing names -/

/-- What is read off a list and kept once each stands in the order in which the list first shows it. -/
theorem pairwise_eraseDups_filterMap {β γ : Type} [BEq γ] [LawfulBEq γ] {r : β → β → Prop}
    {items : List β} (hitems : items.Pairwise r) (read : β → Option γ) :
    (items.filterMap read).eraseDups.Pairwise fun first second =>
      ∃ item ∈ items, read item = some first ∧
        ∀ other ∈ items, read other = some second → r item other := by
  induction items generalizing read with
  | nil => exact .nil
  | cons item items ih =>
      obtain ⟨hitem, hitems⟩ := List.pairwise_cons.mp hitems
      rw [List.filterMap_cons]
      split
      · rename_i hread
        refine (ih hitems read).imp fun ⟨shown, hshown, hfirst, hothers⟩ => ?_
        refine ⟨shown, List.mem_cons_of_mem _ hshown, hfirst, fun other hother hsecond => ?_⟩
        rcases List.mem_cons.mp hother with rfl | hother
        · rw [hread] at hsecond
          cases hsecond
        · exact hothers other hother hsecond
      · rename_i value hread
        -- The rest is read with this value left out.
        have hlater {other : β} {second : γ} (hne : value ≠ second) (hother : other ∈ item :: items)
            (hsecond : read other = some second) : other ∈ items := by
          rcases List.mem_cons.mp hother with rfl | hother
          · exact absurd (Option.some.inj (hread.symm.trans hsecond)) hne
          · exact hother
        rw [List.eraseDups_cons, List.filter_filterMap, List.pairwise_cons]
        have hkept {second : γ} (hsecond : second ∈ (items.filterMap fun item =>
            (read item).filter fun other => !other == value).eraseDups) : value ≠ second := by
          obtain ⟨other, -, hother⟩ := List.mem_filterMap.mp (List.mem_eraseDups.mp hsecond)
          have hne := (Option.filter_eq_some_iff.mp hother).2
          rintro rfl
          simp at hne
        refine ⟨fun second hsecond => ?_, ?_⟩
        · exact ⟨item, List.mem_cons_self, hread, fun other hother hread' =>
            hitem other (hlater (hkept hsecond) hother hread')⟩
        · refine (ih hitems _).imp_of_mem fun {first second} _ hsecond hshows => ?_
          obtain ⟨shown, hshown, hfirst, hothers⟩ := hshows
          have hne := hkept hsecond
          refine ⟨shown, List.mem_cons_of_mem _ hshown, (Option.filter_eq_some_iff.mp hfirst).1,
            fun other hother hread' => ?_⟩
          refine hothers other (hlater hne hother hread') (Option.filter_eq_some_iff.mpr ⟨hread', ?_⟩)
          simpa using hne.symm

/-- A name stands before another: a rule asks for it that comes before all that ask for the other. -/
def AsksBefore (g : Graph α) (first second : String) : Prop :=
  ∃ id, g.Asks id first ∧ ∀ other, g.Asks other second → id.index < other.index

theorem asks_iff (hroot : g.root.isSome) (hg : g.WellFormed) {id : RuleId} {name : String} :
    g.Asks id name ↔ id ∈ g.relevant ∧ (g.rule? id).bind (·.kind.pending?) = some name := by
  obtain ⟨root, hroot⟩ := Option.isSome_iff_exists.mp hroot
  simp only [relevant, hroot, List.mem_filter, List.contains_iff_mem, mem_reached_iff hg, Asks,
    Option.bind_eq_some_iff, pending?_eq_some_iff, kind?, Option.map_eq_some_iff]
  constructor
  · rintro ⟨hid, hkind⟩
    exact ⟨⟨mem_ids.mpr (contains_iff.mp (hg.contains_of_fromRoot hid)), hid⟩, hkind⟩
  · rintro ⟨⟨-, hid⟩, hkind⟩
    exact ⟨hid, hkind⟩

theorem relevant_pairwise (g : Graph α) : g.relevant.Pairwise (·.index < ·.index) := by
  have hids : g.ids.Pairwise (·.index < ·.index) := List.pairwise_map.mpr List.pairwise_lt_range
  rw [relevant]
  split
  · exact hids.filter _
  · exact hids

theorem mem_pendingNames_relevant (hroot : g.root.isSome) (hg : g.WellFormed) {name : String} :
    name ∈ g.pendingNames g.relevant ↔ ∃ id, g.Asks id name := by
  simp only [pendingNames, List.mem_eraseDups, List.mem_filterMap, asks_iff hroot hg]

theorem pendingNames_relevant_pairwise (hroot : g.root.isSome) (hg : g.WellFormed) :
    (g.pendingNames g.relevant).Pairwise g.AsksBefore := by
  refine (pairwise_eraseDups_filterMap (relevant_pairwise g) _).imp fun ⟨id, hid, hname, hbefore⟩ => ?_
  refine ⟨id, (asks_iff hroot hg).mpr ⟨hid, hname⟩, fun other hother => ?_⟩
  obtain ⟨hother, hname'⟩ := (asks_iff hroot hg).mp hother
  exact hbefore other hother hname'

theorem AsksBefore.ne {first second : String} (h : g.AsksBefore first second) : first ≠ second := by
  rintro rfl
  obtain ⟨id, hid, hbefore⟩ := h
  exact Nat.lt_irrefl _ (hbefore id hid)

@[simp] theorem map_name_missing (g : Graph α) :
    g.missing.map (·.name) = g.pendingNames g.relevant := by
  simp [missing, Function.comp_def]

/-- A rule that still points at nothing after linking asks for a name that no rule has. -/
theorem not_mem_names_of_link {id : RuleId} {name : String}
    (h : g.link.kind? id = some (.reference name none)) : name ∉ g.names := by
  obtain ⟨rule, hrule, hkind⟩ := Option.map_eq_some_iff.mp h
  obtain ⟨hlt, rfl⟩ := Array.getElem?_eq_some_iff.mp hrule
  simp only [link, Array.getElem_map, linkRule] at hkind
  split at hkind
  · exact idOf?_eq_none_iff.mp (by injection hkind with htarget hid; exact htarget ▸ hid)
  · rename_i hpending
    exact (hpending name hkind).elim

theorem resolve_eq_ok_iff : g.resolve.1 = .ok () ↔ g.link.pendingNames g.link.relevant = [] := by
  rw [resolve, ← map_name_missing, List.map_eq_nil_iff]
  cases g.link.missing <;> simp

theorem resolve_eq_error {error : GraphError} (h : g.resolve.1 = .error error) :
    error = .missingReferences g.link.missing := by
  rw [resolve] at h
  cases hmissing : g.link.missing with
  | nil =>
      rw [hmissing] at h
      cases h
  | cons first rest =>
      rw [hmissing] at h
      exact (Except.error.inj h).symm

/-- Resolving a well-formed graph with a root succeeds just if nothing in reach of the root is left
pointing at no rule.  Then no match from the root comes to miss a rule.  If it does not succeed, it
tells just the names that are asked for in reach of the root, each once, in the order in which the
rules first ask for them; and no rule of the graph has one of these names. -/
theorem resolve_exact [Element α] (hg : g.WellFormed) (hroot : g.root.isSome) :
    (g.resolve.1 = .ok () ↔ ∀ id name, ¬ g.resolve.2.Asks id name) ∧
      (g.resolve.1 = .ok () → ∀ (input : Array α) (limit : Nat),
        (∀ name, (g.resolve.2.matchRoot input limit).1 ≠ .error (.unresolvedReference name)) ∧
        ∀ id, Event.unknownRule id ∉ (g.resolve.2.matchRoot input limit).2.journal) ∧
      ∀ error, g.resolve.1 = .error error → ∃ missing, error = .missingReferences missing ∧
        (missing.map (·.name)).Nodup ∧
        (missing.map (·.name)).Pairwise g.resolve.2.AsksBefore ∧
        (∀ name, name ∈ missing.map (·.name) ↔ ∃ id, g.resolve.2.Asks id name) ∧
        ∀ name ∈ missing.map (·.name), name ∉ g.names := by
  rw [snd_resolve]
  have hlinked := hg.link
  have hmem (name : String) : name ∈ g.link.pendingNames g.link.relevant ↔
      ∃ id, g.link.Asks id name := mem_pendingNames_relevant (g := g.link) hroot hlinked
  -- Resolving goes well if no name is left that a rule in reach asks for.
  have hok : g.resolve.1 = .ok () ↔ ∀ id name, ¬ g.link.Asks id name := by
    rw [resolve_eq_ok_iff, List.eq_nil_iff_forall_not_mem]
    simp only [hmem, not_exists]
    exact forall_comm
  refine ⟨hok, fun h input limit => ?_, fun error herror => ?_⟩
  · -- Then the run from the root meets neither an open reference nor an unknown rule.
    have hsettled : (g.link.runRoot input limit).IsSettled := by
      obtain ⟨root, hroot⟩ := Option.isSome_iff_exists.mp hroot
      have hlinkedroot : g.link.root = some root := hroot
      rw [runRoot, hlinkedroot]
      exact runWithin_isSettled hlinked (hok.mp h) input limit limit ⟨root, hlinkedroot, .refl⟩ 0
    obtain ⟨hknown, hend⟩ := hsettled {} fun id hid => by simp at hid
    refine ⟨fun name herror => ?_, hknown⟩
    rw [matchRoot] at herror
    rw [herror] at hend
    exact hend trivial
  · refine ⟨g.link.missing, resolve_eq_error herror, ?_⟩
    rw [map_name_missing]
    -- The names are listed in the order of the walk, each at its first place.
    have hordered := pendingNames_relevant_pairwise (g := g.link) hroot hlinked
    refine ⟨hordered.imp AsksBefore.ne, hordered, hmem, fun name hname => ?_⟩
    obtain ⟨id, -, hid⟩ := (hmem name).mp hname
    exact not_mem_names_of_link hid

/-- Marks with gaps between them and an end.  Only the mark is there; the end is asked for twice, and
a rule out of reach asks for a name as well. -/
def openMarks : Graph Char where
  rules := #[.ofKind (.sequence [⟨2⟩, ⟨4⟩, ⟨3⟩, ⟨1⟩]), .ofKind (.reference "end" none),
    .ofKind (.reference "mark" none), .ofKind (.reference "end" none), .ofKind (.count ⟨5⟩ 1 0),
    .ofKind (.reference "gap" none), .named "mark" (.ofKind (.single '+')),
    .ofKind (.reference "unused" none)]
  root := some ⟨0⟩

/-- The marks with what they lack. -/
def closedMarks : Graph Char where
  rules := openMarks.rules ++
    #[.named "end" (.ofKind (.not ⟨9⟩)), .named "gap" (.ofKind (.any 1 1))]
  root := openMarks.root

theorem openMarks_wellFormed : openMarks.WellFormed where
  distinct := by decide +kernel
  edges := by decide +kernel
  root := by decide +kernel

theorem closedMarks_wellFormed : closedMarks.WellFormed where
  distinct := by decide +kernel
  edges := by decide +kernel
  root := by decide +kernel

/-- The marks ask for the end and for the gap, which come to be listed in this order; with both
there, no text makes them miss a rule. -/
theorem marks_resolve_exact :
    (openMarks.WellFormed ∧ openMarks.root.isSome ∧ (∃ id, openMarks.resolve.2.Asks id "gap") ∧
      openMarks.resolve.2.AsksBefore "end" "gap" ∧ ¬ ∃ id, openMarks.resolve.2.Asks id "unused") ∧
    closedMarks.WellFormed ∧ closedMarks.root.isSome ∧
      (∀ id name, ¬ closedMarks.resolve.2.Asks id name) ∧
      ∀ (input : Array Char) (limit : Nat),
        (∀ name, (closedMarks.resolve.2.matchRoot input limit).1 ≠
          .error (.unresolvedReference name)) ∧
        ∀ id, Event.unknownRule id ∉ (closedMarks.resolve.2.matchRoot input limit).2.journal := by
  have hopen := openMarks_wellFormed
  have hclosed := closedMarks_wellFormed
  refine ⟨⟨hopen, by decide, ?_⟩, hclosed, by decide, ?_⟩
  · obtain ⟨-, -, hmissing⟩ := resolve_exact hopen (by decide)
    obtain ⟨missing, heq, -, hordered, hmem, -⟩ := hmissing
      (.missingReferences [⟨"end", none⟩, ⟨"gap", none⟩]) (by decide +kernel)
    cases heq
    refine ⟨(hmem "gap").mp (by decide), (List.pairwise_cons.mp hordered).1 _ (by decide), ?_⟩
    exact fun hunused => absurd ((hmem "unused").mpr hunused) (by decide)
  · obtain ⟨hok, hsettled, -⟩ := resolve_exact hclosed (by decide)
    have hresolve : closedMarks.resolve.1 = .ok () := by decide +kernel
    exact ⟨hok.mp hresolve, hsettled hresolve⟩

end Graph

end RuleScript
