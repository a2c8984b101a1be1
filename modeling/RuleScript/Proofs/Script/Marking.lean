import RuleScript.Proofs.Match.Shown
import RuleScript.Proofs.Script.Meaning

/-!
# Markers in the bodies of rules

A declaration adds one rule with a name and, in front of it, rules without names for the expressions
inside.  How those are pruned is up to a marker, or to what they match where there is none: what would put
a node over its match gives it up then.  Of the three markers only `-c` lets a rule keep its node, so a
script that writes none in the bodies of its rules compiles to a discreet graph
(`discreet_of_compile`).  In a header any marker may be written, since the rule has a name.

That goes for rules, which are not told by their kinds alone; `Declaring.AddsOnly` says of a step of a
declaration which rules it adds.
-/

namespace RuleScript.Script

/-! ## Markers that are written -/

section Written

variable (s : Scanned) (marker : String)

mutual

/-- No prefix among a part and those below it is written like this. -/
def Part.FreeOf : Part → Prop
  | ⟨kind, span, parts⟩ => (kind = .prune → (s.lexeme span).text ≠ marker) ∧ Part.AllFreeOf parts

def Part.AllFreeOf : List Part → Prop
  | [] => True
  | part :: rest => part.FreeOf ∧ Part.AllFreeOf rest

end

mutual

instance Part.decidableFreeOf : (part : Part) → Decidable (part.FreeOf s marker)
  | ⟨_, _, parts⟩ =>
    have := Part.decidableAllFreeOf parts
    inferInstanceAs (Decidable (_ ∧ _))

instance Part.decidableAllFreeOf : (parts : List Part) → Decidable (Part.AllFreeOf s marker parts)
  | [] => isTrue trivial
  | part :: rest =>
    have := Part.decidableFreeOf part
    have := Part.decidableAllFreeOf rest
    inferInstanceAs (Decidable (_ ∧ _))

end

end Written

/-- No rule that a script declares has a prefix in its body that is written like this. -/
def BodiesFreeOf (marker source : String) (limit : Nat) : Prop :=
  ∀ s outcome, (scan source limit).1 = .ok s →
    (grammar.matchRoot s.tokens.kinds limit).1 = .ok outcome →
      ∀ name parts, s.Declares outcome.nodes name parts → Part.AllFreeOf s marker parts

/-- It is enough to look at what stands after the header of each statement. -/
theorem bodiesFreeOf_of_parts {marker source : String} {limit : Nat}
    (h : ∀ s ∈ (scan source limit).1.toOption,
      ∀ outcome ∈ (grammar.matchRoot s.tokens.kinds limit).1.toOption,
      ∀ node ∈ statementNodes outcome.nodes, ∀ part ∈ (Part.ofNode node).toOption,
        Part.AllFreeOf s marker part.children.tail) : BodiesFreeOf marker source limit := by
  rintro s outcome hscan hmatch name parts ⟨node, hnode, span, place, others, header, hpart, -, -⟩
  exact h s (by rw [hscan]; rfl) outcome (by rw [hmatch]; rfl) node hnode _ (by rw [hpart]; rfl)

/-! ## Markers that are read -/

namespace Expression

mutual

/-- All markers in an expression have rules give up their nodes. -/
def DropsRoots : Expression → Prop
  | .pruned pruning one => pruning.dropsRoot ∧ DropsRoots one
  | .sequence parts | .choice parts | .evaluation parts => AllDropRoots parts
  | .repetition _ one | .not one | .condition one | .skip _ one | .logIf _ _ one => DropsRoots one
  | .name _ | .string _ | .set .. | .dot | .log .. => True

def AllDropRoots : List Expression → Prop
  | [] => True
  | e :: rest => DropsRoots e ∧ AllDropRoots rest

end

end Expression

namespace Scanned

variable {s : Scanned}

/-- Only the marker `-c` lets a rule keep its node. -/
theorem dropsRoot_of_pruning {span : Span} {pruning : Pruning} (h : s.pruning span = .ok pruning)
    (hfree : (s.lexeme span).text ≠ "-c") : pruning.dropsRoot := by
  simp only [Scanned.pruning] at h
  split at h
  · rename_i found hfound
    obtain rfl := Except.ok.inj h
    rw [Pruning.ofMarker?] at hfound
    have hmarker := List.find?_some hfound
    rw [beq_iff_eq] at hmarker
    have hmem := List.mem_of_find?_eq_some hfound
    cases found with
    | none => simp at hmem
    | root => rfl
    | all => rfl
    | children => exact absurd (Option.some.inj hmarker).symm hfree
  · cases h

mutual

theorem Makes.dropsRoots {part : Part} {e : Expression} :
    s.Makes part e → part.FreeOf s "-c" → e.DropsRoots
  | .group h, hfree => h.dropsRoots hfree.2
  | .only h, hfree => h.dropsRoots hfree.2.1
  | .sequence h, hfree => h.dropsRoots hfree.2
  | .unary h, hfree => h.dropsRoots hfree.2.1
  | .pruned hpruning h, hfree =>
      ⟨dropsRoot_of_pruning hpruning (hfree.2.1.1 rfl), h.dropsRoots hfree.2.2.1⟩
  | .repetition _ h, hfree => h.dropsRoots hfree.2.2.1
  | .not h, hfree => h.dropsRoots hfree.2.1
  | .condition h, hfree => h.dropsRoots hfree.2.1
  | .skip _ h, hfree => h.dropsRoots hfree.2.2.1
  | .log _, _ => trivial
  | .logIf _ h, hfree => h.dropsRoots hfree.2.2.2.1
  | .set _, _ => trivial
  | .string, _ => trivial
  | .dot, _ => trivial
  | .name, _ => trivial

theorem AllMake.dropsRoots {parts : List Part} {es : List Expression} :
    s.AllMake parts es → Part.AllFreeOf s "-c" parts → Expression.AllDropRoots es
  | .nil, _ => trivial
  | .cons h hrest, hfree => ⟨h.dropsRoots hfree.1, hrest.dropsRoots hfree.2⟩

theorem BodyMakes.dropsRoots {parts : List Part} {e : Expression} :
    s.BodyMakes parts e → Part.AllFreeOf s "-c" parts → e.DropsRoots
  | .only h, hfree => h.dropsRoots hfree.1
  | .choice h hrest, hfree => ⟨h.dropsRoots hfree.1, hrest.dropsRoots hfree.2.1.2⟩
  | .evaluation h hrest, hfree => ⟨h.dropsRoots hfree.1, hrest.dropsRoots hfree.2.1.2⟩

end

end Scanned

/-! ## Rules that are added -/

section Adding

variable {α β γ : Type} {P : Rule α → Prop}

/-- If the computation comes to a value, the value is `ok` and all rules it has added are `P`. -/
def Declaring.AddsOnly (P : Rule α → Prop) (run : Declaring α β) (ok : β → Prop) : Prop :=
  ∀ g value g', run.run.run g = (.ok value, g') →
    (∀ rule ∈ g'.rules, rule ∈ g.rules ∨ P rule) ∧ ok value

namespace Declaring.AddsOnly

variable {run : Declaring α β} {ok : β → Prop} {ok' : γ → Prop}

protected theorem pure {value : β} (h : ok value) :
    (pure value : Declaring α β).AddsOnly P ok := by
  rintro g _ _ ⟨⟩
  exact ⟨fun _ hrule => .inl hrule, h⟩

theorem bind {next : β → Declaring α γ} (h : run.AddsOnly P ok)
    (hnext : ∀ value, ok value → (next value).AddsOnly P ok') : (run >>= next).AddsOnly P ok' := by
  intro g result g'' hrun
  obtain ⟨value, g', hfirst, hrest⟩ := exists_of_bind hrun
  obtain ⟨hadded, hvalue⟩ := h g value g' hfirst
  obtain ⟨hadded', hresult⟩ := hnext value hvalue g' result g'' hrest
  exact ⟨fun rule hrule => (hadded' rule hrule).elim (hadded rule) .inr, hresult⟩

theorem lift (value? : Except CompileError β) :
    (liftM value? : Declaring α β).AddsOnly P fun _ => True := by
  intro g value g' hrun
  cases value? with
  | error error => cases hrun
  | ok value =>
      cases hrun
      exact ⟨fun _ hrule => .inl hrule, trivial⟩

theorem get : (get : Declaring α (Graph α)).AddsOnly P fun _ => True := by
  rintro g _ _ ⟨⟩
  exact ⟨fun _ hrule => .inl hrule, trivial⟩

end Declaring.AddsOnly

theorem register_addsOnly {rule : Rule α} (h : P rule) :
    (register rule).AddsOnly P fun _ => True := by
  intro g id g' hrun
  obtain ⟨-, -, hpushed⟩ := Graph.register_eq_ok (register_eq_ok_of_run hrun)
  cases hpushed
  refine ⟨fun other hother => ?_, trivial⟩
  rcases Array.mem_push.mp hother with hother | rfl
  · exact .inl hother
  · exact .inr h

end Adding

/-! ## Expressions without the marker -/

section Discreet

variable {α : Type} {terminals : Terminals α} (rule : String)

/-- The marker of a draft, if it has one, has a rule give up its node. -/
def DraftDrops (draft : Draft α) : Prop := ∀ pruning ∈ draft.2, pruning.dropsRoot

theorem draftDrops_none (kind : Kind α) : DraftDrops (kind, none) :=
  fun _ h => absurd h (Option.not_mem_none _)

theorem defaultPruning_dropsRoot {kind : Kind α} (h : kind.leavesNode) :
    (defaultPruning kind).dropsRoot := by
  cases kind <;> first | rfl | cases h

theorem registerDraft_discreet {draft : Draft α} (h : DraftDrops draft) :
    (registerDraft draft).AddsOnly (·.isDiscreet) fun _ => True := by
  refine register_addsOnly ?_
  obtain ⟨kind, _ | pruning⟩ := draft
  · cases hnode : kind.leavesNode with
    | false => simp [Rule.isDiscreet, hnode]
    | true => simp [Rule.isDiscreet, defaultPruning_dropsRoot hnode]
  · simp [Rule.isDiscreet, h pruning rfl]

theorem operand_discreet {run : Declaring α (Draft α)} (h : run.AddsOnly (·.isDiscreet) DraftDrops)
    (next : RuleId → Kind α) :
    (run >>= registerDraft >>= fun id => pure (next id, none) : Declaring α (Draft α)).AddsOnly
      (·.isDiscreet) DraftDrops :=
  (h.bind fun _ hdraft => registerDraft_discreet hdraft).bind fun id _ =>
    .pure (draftDrops_none (next id))

mutual

theorem draft_discreet : (e : Expression) → e.DropsRoots →
    (draft terminals rule e).AddsOnly (·.isDiscreet) DraftDrops
  | .name _, _ => .pure (draftDrops_none _)
  | .string _, _ =>
      (Declaring.AddsOnly.lift _).bind fun _ _ => (Declaring.AddsOnly.lift _).bind fun _ _ =>
        .pure (draftDrops_none _)
  | .set _ _, _ =>
      (Declaring.AddsOnly.lift _).bind fun _ _ => (Declaring.AddsOnly.lift _).bind fun _ _ =>
        .pure (draftDrops_none _)
  | .dot, _ => .pure (draftDrops_none _)
  | .sequence parts, h => (registerAll_discreet parts h).bind fun _ _ => .pure (draftDrops_none _)
  | .choice alternatives, h =>
      (registerAll_discreet alternatives h).bind fun _ _ => .pure (draftDrops_none _)
  | .evaluation alternatives, h =>
      (registerAll_discreet alternatives h).bind fun _ _ => .pure (draftDrops_none _)
  | .repetition _ operand, h =>
      (Declaring.AddsOnly.lift _).bind fun bounds _ =>
        operand_discreet (draft_discreet operand h) (.count · bounds.1 bounds.2)
  | .not operand, h => operand_discreet (draft_discreet operand h) .not
  | .condition operand, h => operand_discreet (draft_discreet operand h) .condition
  | .skip form operand, h => operand_discreet (draft_discreet operand h) (skipOf · form)
  | .log _ _, _ => (Declaring.AddsOnly.lift _).bind fun _ _ => .pure (draftDrops_none _)
  | .logIf severity _ guard, h =>
      (Declaring.AddsOnly.lift _).bind fun message _ =>
        operand_discreet (draft_discreet guard h) (.log severity message <| some ·)
  | .pruned _ operand, h =>
      (draft_discreet operand h.2).bind fun _ _ => .pure fun _ hmarker =>
        Option.some.inj hmarker ▸ h.1

theorem registerAll_discreet : (expressions : List Expression) →
    Expression.AllDropRoots expressions →
      (registerAll terminals rule expressions).AddsOnly (·.isDiscreet) fun _ => True
  | [], _ => .pure trivial
  | expression :: rest, h =>
      ((draft_discreet expression h.1).bind fun _ hdraft => registerDraft_discreet hdraft).bind
        fun _ _ => (registerAll_discreet rest h.2).bind fun _ _ => .pure trivial

end

/-- Where header and body both have a marker, that of the body is for a rule without a name. -/
theorem declare_discreet {body : Draft α} (hbody : DraftDrops body) (header : Header)
    (precedence : Precedence) :
    (declare header precedence body).AddsOnly (·.isDiscreet) fun _ => True := by
  rw [declare]
  split
  · rename_i outer inner _ hinner
    refine (register_addsOnly ?_).bind fun _ _ => Declaring.AddsOnly.get.bind fun _ _ =>
      register_addsOnly ?_
    · simp [Rule.isDiscreet, hbody inner hinner]
    · rfl
  · exact register_addsOnly rfl

/-- **A declaration without the marker in its body** adds rules that show a name with each node. -/
theorem declaration_discreet (header : Header) (precedence : Precedence) {body : Expression}
    (hbody : body.DropsRoots) :
    (do declare header precedence (← draft terminals rule body) : Declaring α RuleId).AddsOnly
      (·.isDiscreet) fun _ => True :=
  (draft_discreet rule body hbody).bind fun _ hdraft => declare_discreet hdraft header precedence

end Discreet

/-! ## Scripts without the marker -/

/-- A script that writes `-c` in no rule body compiles to a discreet graph. -/
theorem discreet_of_compile {α : Type} {terminals : Terminals α} {unit source : String} {limit : Nat}
    {compiled : CompiledUnit α} (hbase : terminals.base.Discreet)
    (hfree : BodiesFreeOf "-c" source limit)
    (h : (compile terminals unit source limit).1 = .ok compiled) : compiled.graph.Discreet := by
  obtain ⟨s, outcome, diagnostics, hscan, hmatch, herrors, hgraph, -⟩ := exists_draught_of_compile h
  obtain ⟨herrors, hrooted, -, -⟩ := Progress.rooted_of_errors herrors
  -- Only the rules add to the graph, and no body of theirs holds the marker.
  have hstep (done : List Node) (node : Node) (p p' : Progress α)
      (hp : (∀ node ∈ done, node ∈ statementNodes outcome.nodes) → p.graph.Discreet)
      (hgoes : p.Goes terminals s node p')
      (hdone : ∀ node' ∈ done ++ [node], node' ∈ statementNodes outcome.nodes) :
      p'.graph.Discreet := by
    have hdiscreet := hp fun node' hnode => hdone node' (List.mem_append_left _ hnode)
    cases hgoes with
    | log => exact hdiscreet
    | includeFile => exact hdiscreet
    | rule hlog hread hprecedence hrun =>
        obtain ⟨parts, hat, hbody, -⟩ := declaresAt_of_statement hread
        have hnode := hdone node (List.mem_append_right _ List.mem_cons_self)
        have hdrops := (Scanned.bodyMakes_of_body _ hbody).dropsRoots
          (hfree s outcome hscan hmatch _ parts ⟨node, hnode, hat⟩)
        intro rule hrule
        exact ((declaration_discreet _ _ _ hdrops _ _ _ hrun).1 rule hrule).elim (hdiscreet rule) id
  obtain ⟨-, hdiscreet⟩ := Progress.foldl_induction
    (P := fun done p => (∀ node ∈ done, node ∈ statementNodes outcome.nodes) → p.graph.Discreet)
    (fun _ => hbase) hstep herrors
  rw [hgraph, draught, hrooted]
  exact hdiscreet fun _ hnode => hnode

end RuleScript.Script
