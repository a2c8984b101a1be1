import Mathlib.Data.List.Induction
import RuleScript.Proofs.Graph.WellFormed
import RuleScript.Proofs.Script.Naming

/-!
# What a script adds to a graph

Compiling a script starts from a graph and adds rules to it, some of them with the names the script
declares (`Graph.Grows`).  As long as all goes well, a declaration leads from a graph to one that has
grown (`Declaring.Leads`), and what is known of a rule that was added stays known, because nothing is
said of it but what is true in every larger graph as well.

Of which kinds the new rules may be is left open.  For all that can be written they are `Drawn`:
terminals for strings and sets, combinations of other rules, pending references for names, which are
identifiers, and references that stand for the inner rule of a declaration with two markers, which are
labelled with a number after a hash sign and so do not look like names.
-/

namespace RuleScript

/-! ## Graphs that grow -/

namespace Graph

variable {α : Type} {g g' g'' : Graph α} {made : Kind α → Prop} {names names' : List String}

/-- All rules of a graph are in another one, under the same ids. -/
def Within (g g' : Graph α) : Prop := ∀ id rule, g.rule? id = some rule → g'.rule? id = some rule

theorem Within.refl (g : Graph α) : g.Within g := fun _ _ h => h

theorem Within.trans (h : g.Within g') (h' : g'.Within g'') : g.Within g'' :=
  fun id rule hrule => h' id rule (h id rule hrule)

/-- A graph becomes another one by adding rules of certain kinds, some of them with the given
names. -/
structure Grows (made : Kind α → Prop) (names : List String) (g g' : Graph α) : Prop where
  within : g.Within g'
  names : g'.names = g.names ++ names
  made : ∀ rule ∈ g'.rules, rule ∈ g.rules ∨ made rule.kind
  wellFormed : g.WellFormed → g'.WellFormed
  root : g'.root = g.root

theorem Grows.refl (made : Kind α → Prop) (g : Graph α) : Grows made [] g g where
  within := .refl g
  names := (List.append_nil _).symm
  made _ hrule := .inl hrule
  wellFormed hg := hg
  root := rfl

theorem Grows.trans (h : Grows made names g g') (h' : Grows made names' g' g'') :
    Grows made (names ++ names') g g'' where
  within := h.within.trans h'.within
  names := by rw [h'.names, h.names, List.append_assoc]
  made rule hrule := by
    rcases h'.made rule hrule with hrule | hmade
    · exact h.made rule hrule
    · exact .inr hmade
  wellFormed hg := h'.wellFormed (h.wellFormed hg)
  root := h'.root.trans h.root

theorem Grows.register {rule : Rule α} (hmade : made rule.kind) {registered : RuleId × Graph α}
    (h : g.register rule = .ok registered) :
    Grows made rule.name.toList g registered.2 ∧ registered.2.rule? registered.1 = some rule := by
  have hwell (hg : g.WellFormed) : registered.2.WellFormed := hg.register h
  obtain ⟨-, -, rfl⟩ := register_eq_ok h
  refine ⟨⟨fun id other hother => ?_, names_push g rule, fun other hother => ?_, hwell, rfl⟩, ?_⟩
  · have hlt := (Array.getElem?_eq_some_iff.mp hother).1
    rw [← hother]
    exact Array.getElem?_push_lt hlt |>.trans (Array.getElem?_eq_getElem hlt).symm
  · rcases Array.mem_push.mp hother with hother | rfl
    · exact .inl hother
    · exact .inr hmade
  · exact Array.getElem?_push_size

/-- A rule without a name is labelled with a number after a hash sign. -/
theorem hash_mem_label {id : RuleId} {rule : Rule α} (hrule : g.rule? id = some rule)
    (hname : rule.name = none) : '#' ∈ (g.label id).toList := by
  simp [label, hrule, Rule.label, hname, RuleId.text]

end Graph

/-- The kinds of rules that scripts add. -/
inductive Kind.Drawn {α : Type} (terminals : Terminals α) : Kind α → Prop
  | literal {text : String} {kind : Kind α} (h : terminals.literal text = .ok kind) :
      Drawn terminals kind
  | set {items : List SetItem} {kind : Kind α} (h : terminals.set items = .ok kind) :
      Drawn terminals kind
  | anyOne : Drawn terminals anyOne
  | sequence (subs : List RuleId) : Drawn terminals (sequence subs)
  | oneOf (subs : List RuleId) : Drawn terminals (oneOf subs)
  | evaluation (alternatives : List RuleId) : Drawn terminals (evaluation alternatives)
  | count (sub : RuleId) (min max : Nat) : Drawn terminals (count sub min max)
  | not (sub : RuleId) : Drawn terminals (not sub)
  | condition (sub : RuleId) : Drawn terminals (condition sub)
  | skip (stop : RuleId) (stopBefore failOnEnd : Bool) :
      Drawn terminals (skip stop stopBefore failOnEnd)
  | log (level : Severity) (message : String) (guard : Option RuleId) :
      Drawn terminals (log level message guard)
  | name {name : String} (h : IsIdentifier name) : Drawn terminals (reference name none)
  | inner {label : String} (h : '#' ∈ label.toList) (id : RuleId) :
      Drawn terminals (reference label (some id))

namespace Script

/-! ## Steps of a declaration -/

section Leads

variable {α β γ : Type} {made : Kind α → Prop}

/-- If the computation comes to a value, it has added rules with the given names, and in any graph
with all the rules that there are then the value is `ok`. -/
def Declaring.Leads (made : Kind α → Prop) (names : List String) (run : Declaring α β)
    (ok : Graph α → β → Prop) : Prop :=
  ∀ g value g', run.run.run g = (.ok value, g') →
    Graph.Grows made names g g' ∧ ∀ G, g'.Within G → ok G value

namespace Declaring.Leads

variable {names names' : List String} {run : Declaring α β} {ok : Graph α → β → Prop}
variable {ok' : Graph α → γ → Prop}

protected theorem pure {value : β} (h : ∀ G, ok G value) :
    (pure value : Declaring α β).Leads made [] ok := by
  rintro g _ _ ⟨⟩
  exact ⟨.refl made g, fun G _ => h G⟩

theorem mono {ok' : Graph α → β → Prop} (h : run.Leads made names ok)
    (hok : ∀ G value, ok G value → ok' G value) : run.Leads made names ok' := by
  intro g value g' hrun
  obtain ⟨hgrows, hvalue⟩ := h g value g' hrun
  exact ⟨hgrows, fun G hG => hok G value (hvalue G hG)⟩

/-- What was known before a step is still known after it. -/
theorem bind {next : β → Declaring α γ} (h : run.Leads made names ok)
    (hnext : ∀ value G, ok G value →
      (next value).Leads made names' fun G result => ok G value → ok' G result) :
    (run >>= next).Leads made (names ++ names') ok' := by
  intro g result g'' hrun
  obtain ⟨value, g', hfirst, hrest⟩ := exists_of_bind hrun
  obtain ⟨hgrows, hvalue⟩ := h g value g' hfirst
  obtain ⟨hgrows', hresult⟩ := hnext value g' (hvalue g' (.refl g')) g' result g'' hrest
  exact ⟨hgrows.trans hgrows', fun G hG => hresult G hG (hvalue G (hgrows'.within.trans hG))⟩

theorem lift (value? : Except CompileError β) :
    (liftM value? : Declaring α β).Leads made [] fun _ value => value? = .ok value := by
  intro g value g' hrun
  cases value? with
  | error error => cases hrun
  | ok value =>
      cases hrun
      exact ⟨.refl made g, fun _ _ => rfl⟩

end Declaring.Leads

theorem register_leads {rule : Rule α} (hmade : made rule.kind) :
    (register rule).Leads made rule.name.toList fun G id => G.rule? id = some rule := by
  intro g id g' hrun
  obtain ⟨hgrows, hrule⟩ := Graph.Grows.register hmade (register_eq_ok_of_run hrun)
  exact ⟨hgrows, fun G hG => hG _ _ hrule⟩

theorem registerDraft_leads {draft : Draft α} (hmade : made draft.1) :
    (registerDraft draft).Leads made [] fun G id => G.kind? id = some draft.1 :=
  (register_leads hmade).mono fun _ _ h => Graph.kind?_eq_some h

/-- A rule has a name, and it is of a kind itself or refers to a rule of that kind. -/
def Declared (name : String) (kind : Kind α) (g : Graph α) (id : RuleId) : Prop :=
  ∃ rule, g.rule? id = some rule ∧ rule.name = some name ∧
    (rule.kind = kind ∨
      ∃ label inner, rule.kind = .reference label (some inner) ∧ g.kind? inner = some kind)

/-- A declaration adds one rule with a name, which is what was declared or stands for it. -/
theorem declare_leads {body : Draft α} (hbody : made body.1)
    (hinner : ∀ label id, '#' ∈ String.toList label → made (.reference label (some id)))
    (header : Header) (precedence : Precedence) :
    (declare header precedence body).Leads made [header.name] (Declared header.name body.1) := by
  rw [declare]
  split
  · rename_i outer inner _ _
    intro g id g'' hrun
    -- A rule that is pruned twice is registered first, and the named rule refers to it.
    obtain ⟨inside, g', hfirst, hrest⟩ := Declaring.exists_of_bind hrun
    obtain ⟨hgrows, hrule⟩ := Graph.Grows.register hbody (register_eq_ok_of_run hfirst)
    have hlabel := Graph.hash_mem_label hrule rfl
    have hlast : (register
        { name := some header.name
          pruning := outer
          precedence := precedence
          kind := .reference (g'.label inside) (some inside) }).run.run g' = (.ok id, g'') := hrest
    obtain ⟨hgrows', hdeclared⟩ := register_leads (hinner _ inside hlabel) g' id g'' hlast
    refine ⟨hgrows.trans hgrows', fun G hG => ⟨_, hdeclared G hG, rfl, .inr ⟨_, inside, rfl, ?_⟩⟩⟩
    exact Graph.kind?_eq_some (hG _ _ (hgrows'.within _ _ hrule))
  · exact (register_leads hbody).mono fun G id hrule => ⟨_, hrule, rfl, .inl rfl⟩

end Leads

/-! ## What is drawn -/

section Drawn

variable {α : Type} {terminals : Terminals α} (rule : String)

/-- The kind of a draft is one that scripts add. -/
def DraftDrawn (terminals : Terminals α) (_ : Graph α) (draft : Draft α) : Prop :=
  draft.1.Drawn terminals

theorem registerDraft_drawn {run : Declaring α (Draft α)}
    (h : run.Leads (Kind.Drawn terminals) [] (DraftDrawn terminals)) :
    (run >>= registerDraft).Leads (Kind.Drawn terminals) [] fun _ _ => True :=
  h.bind fun _ _ hdraft => (registerDraft_leads hdraft).mono fun _ _ _ _ => trivial

theorem operand_drawn {run : Declaring α (Draft α)}
    (h : run.Leads (Kind.Drawn terminals) [] (DraftDrawn terminals)) {next : RuleId → Draft α}
    (hnext : ∀ id, (next id).1.Drawn terminals) :
    (run >>= registerDraft >>= fun id => pure (next id) : Declaring α (Draft α)).Leads
      (Kind.Drawn terminals) [] (DraftDrawn terminals) :=
  (registerDraft_drawn h).bind fun id _ _ => .pure fun _ _ => hnext id

theorem terminalOf_eq_ok {location : Location} {terminal : Except TerminalError (Kind α)} {kind : Kind α}
    (h : terminalOf rule location terminal = .ok kind) : terminal = .ok kind := by
  cases terminal with
  | ok kind' =>
      cases h
      rfl
  | error error => cases h

theorem terminal_drawn {location : Location} {terminal : Except TerminalError (Kind α)}
    (h : ∀ kind, terminal = .ok kind → kind.Drawn terminals) :
    (do return (← terminalOf rule location terminal, none) : Declaring α (Draft α)).Leads
      (Kind.Drawn terminals) [] (DraftDrawn terminals) :=
  (Declaring.Leads.lift (terminalOf rule location terminal)).bind fun kind _ hkind =>
    .pure fun _ _ => h kind (terminalOf_eq_ok rule hkind)

mutual

/-- An expression is made of rules that are drawn. -/
theorem draft_drawn : (e : Expression) → e.Named →
    (draft terminals rule e).Leads (Kind.Drawn terminals) [] (DraftDrawn terminals)
  | .name _, h => .pure fun _ => .name h
  | .string literal, _ =>
      (Declaring.Leads.lift (textOf rule literal)).bind fun _ _ _ =>
        (terminal_drawn rule fun _ hkind => .literal hkind).mono fun _ _ h _ => h
  | .set items location, _ =>
      (Declaring.Leads.lift (itemsOf rule items)).bind fun _ _ _ =>
        (terminal_drawn rule fun _ hkind => .set hkind).mono fun _ _ h _ => h
  | .dot, _ => .pure fun _ => .anyOne
  | .sequence parts, h =>
      (registerAll_drawn parts h).bind fun ids _ _ => .pure fun _ _ => .sequence ids
  | .choice alternatives, h =>
      (registerAll_drawn alternatives h).bind fun ids _ _ => .pure fun _ _ => .oneOf ids
  | .evaluation alternatives, h =>
      (registerAll_drawn alternatives h).bind fun ids _ _ => .pure fun _ _ => .evaluation ids
  | .repetition form operand, h =>
      (Declaring.Leads.lift (boundsOf rule form)).bind fun bounds _ _ =>
        (operand_drawn (draft_drawn operand h) fun id => .count id bounds.1 bounds.2).mono
          fun _ _ h _ => h
  | .not operand, h => operand_drawn (draft_drawn operand h) fun id => .not id
  | .condition operand, h => operand_drawn (draft_drawn operand h) fun id => .condition id
  | .skip form operand, h =>
      operand_drawn (draft_drawn operand h) fun id => by cases form <;> exact .skip id _ _
  | .log severity message, _ =>
      (Declaring.Leads.lift (textOf rule message)).bind fun message _ _ =>
        .pure fun _ _ => .log severity message none
  | .logIf severity message guard, h =>
      (Declaring.Leads.lift (textOf rule message)).bind fun message _ _ =>
        (operand_drawn (draft_drawn guard h) fun id => .log severity message (some id)).mono
          fun _ _ h _ => h
  | .pruned pruning operand, h =>
      (draft_drawn operand h).bind fun _ _ _ => .pure fun _ h => h

theorem registerAll_drawn : (expressions : List Expression) → Expression.AllNamed expressions →
    (registerAll terminals rule expressions).Leads (Kind.Drawn terminals) [] fun _ _ => True
  | [], _ => .pure fun _ => trivial
  | expression :: rest, h =>
      (registerDraft_drawn (draft_drawn expression h.1)).bind fun _ _ _ =>
        (registerAll_drawn rest h.2).bind fun _ _ _ => .pure fun _ _ _ => trivial

end

theorem declaration_drawn (header : Header) (precedence : Precedence) {body : Expression}
    (hbody : body.Named) :
    (do declare header precedence (← draft terminals rule body) : Declaring α RuleId).Leads
      (Kind.Drawn terminals) [header.name] fun _ _ => True :=
  (draft_drawn rule body hbody).bind fun _ _ hdraft =>
    (declare_leads hdraft (fun _ id h => .inner h id) header precedence).mono fun _ _ _ _ => trivial

end Drawn

/-! ## Statements that go well -/

section Statements

variable {α : Type} {terminals : Terminals α} {s : Scanned} {p : Progress α} {node : Node}

/-- What a statement does that leads to no error: nothing if it is a log entry, note an include, or
declare a rule. -/
inductive Progress.Goes (terminals : Terminals α) (s : Scanned) (p : Progress α) (node : Node) :
    Progress α → Prop
  | log (h : grammar.isLog node.rule) : Goes terminals s p node p
  | includeFile {path : Lexeme} {location : Location} {text : String}
      (hread : Part.ofNode node >>= s.statement = .ok (.includeFile path location))
      (htext : textOf p.rule path = .ok text) :
      Goes terminals s p node { p with includes := p.includes ++ [⟨text, location⟩] }
  | rule {header : Header} {body : Expression} {precedence : Precedence} {id : RuleId} {g : Graph α}
      (hlog : grammar.isLog node.rule = false)
      (hread : Part.ofNode node >>= s.statement = .ok (.rule header body))
      (hprecedence : precedenceOf header = .ok precedence)
      (hrun : (do declare header precedence (← draft terminals header.name body) :
        Declaring α RuleId).run.run p.graph = (.ok id, g)) :
      Goes terminals s p node { p with graph := g, rule := header.name, root := p.root.or (some id) }

theorem Progress.fail_errors (p : Progress α) (error : CompileError) : (p.fail error).errors ≠ [] := by
  simp [Progress.fail]

/-- Errors are never taken back. -/
theorem Progress.goes_of_errors (h : (p.statement terminals s node).errors = []) :
    p.errors = [] ∧ p.Goes terminals s node (p.statement terminals s node) := by
  unfold Progress.statement at h ⊢
  split
  · rename_i hlog
    rw [if_pos hlog] at h
    exact ⟨h, .log hlog⟩
  rename_i hlog
  rw [if_neg hlog] at h
  split at h
  · rename_i path location hread
    unfold Progress.includeFile at h ⊢
    cases htext : textOf p.rule path with
    | ok text =>
        rw [htext] at h
        exact ⟨h, .includeFile hread htext⟩
    | error error =>
        rw [htext] at h
        -- A failure leaves an error, and there is none.
        exact (Progress.fail_errors p error h).elim
  · rename_i header body hread
    unfold Progress.declareRule at h ⊢
    cases hprecedence : precedenceOf header with
    | error error =>
        rw [hprecedence] at h
        exact (Progress.fail_errors p error h).elim
    | ok precedence =>
        rw [hprecedence] at h
        dsimp only at h ⊢
        rcases hrun : (do declare header precedence (← draft terminals header.name body) :
          Declaring α RuleId).run.run p.graph with ⟨error | id, g⟩
        · rw [hrun] at h
          exact (Progress.fail_errors _ error h).elim
        · rw [hrun] at h
          exact ⟨h, .rule (Bool.eq_false_iff.mpr hlog) hread hprecedence hrun⟩
  · rename_i error _
    exact (Progress.fail_errors p error h).elim

/-- What holds at the start and after each statement that goes well holds at the end, if no statement
led to an error. -/
theorem Progress.foldl_induction {P : List Node → Progress α → Prop} {start : Progress α}
    (hstart : P [] start)
    (hstep : ∀ done node p p', P done p → p.Goes terminals s node p' → P (done ++ [node]) p')
    {nodes : List Node}
    (h : (nodes.foldl (fun p node => p.statement terminals s node) start).errors = []) :
    start.errors = [] ∧
      P nodes (nodes.foldl (fun p node => p.statement terminals s node) start) := by
  induction nodes using List.reverseRecOn with
  | nil => exact ⟨h, hstart⟩
  | append_singleton nodes node ih =>
      rw [List.foldl_append, List.foldl_cons, List.foldl_nil] at h ⊢
      obtain ⟨hbefore, hgoes⟩ := Progress.goes_of_errors h
      obtain ⟨herrors, hP⟩ := ih hbefore
      exact ⟨herrors, hstep nodes node _ _ hP hgoes⟩

/-- The first rule declared is the root of the graph, if any was. -/
theorem Progress.rooted_of_errors (h : p.rooted.errors = []) :
    p.errors = [] ∧ p.rooted.graph = { p.graph with root := p.root.or p.graph.root } ∧
      p.rooted.includes = p.includes ∧ ∀ id ∈ p.root, p.graph.contains id := by
  rw [Progress.rooted] at h ⊢
  cases hroot : p.root with
  | none =>
      rw [hroot] at h
      exact ⟨h, rfl, rfl, fun _ hid => nomatch hid⟩
  | some id =>
      rw [hroot] at h
      dsimp only at h ⊢
      cases hset : p.graph.setRoot id with
      | error error =>
          rw [hset] at h
          exact (Progress.fail_errors p _ h).elim
      | ok g =>
          rw [hset] at h
          obtain ⟨hid, rfl⟩ := Graph.setRoot_eq_ok hset
          exact ⟨h, rfl, rfl, fun other hother => Option.some.inj hother ▸ hid⟩

end Statements

/-! ## Scripts that compile -/

section Compiled

variable {α : Type} {terminals : Terminals α}

/-- A script that compiles was matched, and its statements led to no error. -/
theorem exists_draught_of_compile {unit source : String} {limit : Nat} {compiled : CompiledUnit α}
    (h : (compile terminals unit source limit).1 = .ok compiled) :
    ∃ s outcome diagnostics, (scan source limit).1 = .ok s ∧
      (grammar.matchRoot s.tokens.kinds limit).1 = .ok outcome ∧
      (draught terminals s outcome diagnostics).errors = [] ∧
      compiled.graph = (draught terminals s outcome diagnostics).graph ∧
      compiled.includes = (draught terminals s outcome diagnostics).includes := by
  -- A unit is handed out only if there is no error.
  have hfinish {d : Draught α} (hd : (d.finish unit).1 = .ok compiled) :
      d.errors = [] ∧ compiled.graph = d.graph ∧ compiled.includes = d.includes := by
    rw [Draught.finish] at hd
    cases herrors : d.errors with
    | nil =>
        simp only [herrors, Except.ok.injEq] at hd
        rw [← hd]
        exact ⟨rfl, rfl, rfl⟩
    | cons error errors =>
        simp only [herrors] at hd
        cases hd
  rw [compile] at h
  split at h
  · cases h
  · rename_i s journal hscan
    dsimp only at h
    split at h
    · have herrors := (hfinish h).1
      simp at herrors
    · rename_i outcome trace hmatch
      exact ⟨s, outcome, _, by rw [hscan], by rw [hmatch], hfinish h⟩

/-- **What a script compiles to** is a well-formed graph that has grown from the one its terminals
start from by rules that are drawn. -/
theorem compile_drawn {unit source : String} {limit : Nat} {compiled : CompiledUnit α}
    (h : (compile terminals unit source limit).1 = .ok compiled) :
    (terminals.base.WellFormed → compiled.graph.WellFormed) ∧
      ∀ rule ∈ compiled.graph.rules, rule ∈ terminals.base.rules ∨ rule.kind.Drawn terminals := by
  obtain ⟨s, outcome, diagnostics, hscan, hmatch, herrors, hgraph, -⟩ := exists_draught_of_compile h
  obtain ⟨herrors, hrooted, -, hroot⟩ := Progress.rooted_of_errors herrors
  let Grown (p : Progress α) : Prop :=
    ∃ names, Graph.Grows (Kind.Drawn terminals) names terminals.base p.graph
  -- Of all statements only the rules add to the graph.
  have hstep (done : List Node) (node : Node) (p p' : Progress α)
      (hp : (∀ node ∈ done, node ∈ statementNodes outcome.nodes) → Grown p)
      (hgoes : p.Goes terminals s node p')
      (hdone : ∀ node' ∈ done ++ [node], node' ∈ statementNodes outcome.nodes) : Grown p' := by
    obtain ⟨names, hgrows⟩ := hp fun node' hnode => hdone node' (List.mem_append_left _ hnode)
    cases hgoes with
    | log => exact ⟨names, hgrows⟩
    | includeFile => exact ⟨names, hgrows⟩
    | rule hlog hread hprecedence hrun =>
        have hnode := hdone node (List.mem_append_right _ List.mem_cons_self)
        have hbody := names_of_statement hscan hmatch hnode hread
        exact ⟨_, hgrows.trans (declaration_drawn _ _ _ hbody _ _ _ hrun).1⟩
  obtain ⟨-, hgrown⟩ := Progress.foldl_induction
    (P := fun done p => (∀ node ∈ done, node ∈ statementNodes outcome.nodes) → Grown p)
    (fun _ => ⟨[], .refl _ _⟩) hstep herrors
  obtain ⟨names, hgrows⟩ := hgrown fun _ hnode => hnode
  rw [hgraph, draught, hrooted]
  -- The root is the one of the base or the first rule that was declared.
  refine ⟨fun hbase => ?_, hgrows.made⟩
  have hwell := hgrows.wellFormed hbase
  refine ⟨hwell.distinct, hwell.edges, fun id hid => ?_⟩
  rcases Option.or_eq_some_iff.mp hid with hid | ⟨-, hid⟩
  · exact hroot id hid
  · exact hwell.root id hid

end Compiled

end Script

/-- A unit that is finished has been resolved, with nothing missing, and what it comes to is valid. -/
theorem CompiledUnit.finish_eq_ok {α : Type} {compiled : CompiledUnit α} {unit : String}
    {compilation : Compilation α} (h : compiled.finish unit = .ok compilation) :
    compiled.graph.resolve.1 = .ok () ∧ compilation.graph.validate = .ok () ∧
      compilation.graph = compiled.graph.link := by
  have hlink := Graph.snd_resolve compiled.graph
  rcases hresolve : compiled.graph.resolve with ⟨_ | _, graph⟩
  · simp [finish, hresolve] at h
  · rw [hresolve] at hlink
    obtain rfl : graph = compiled.graph.link := hlink
    cases hvalid : compiled.graph.link.validate with
    | error error => simp [finish, hresolve, hvalid] at h
    | ok =>
        simp only [finish, hresolve, hvalid, List.append_nil, Except.ok.injEq] at h
        rw [← h]
        exact ⟨rfl, hvalid, rfl⟩

end RuleScript
