import RuleScript.Proofs.Graph.Merging
import RuleScript.Proofs.Script.Language
import RuleScript.Proofs.Script.Standing

/-!
# Scripts mean what they say

A script that compiles and that is complete by itself makes a graph that implements its declarations
(`Progress.Declares.implements`).  Statement by statement the graph grows by the rules of one
declaration; the rule that has the name stands for the body with references still pending, and it goes on
doing so as further rules are added.  In the end the names are looked up.

So a rule matches just what its body means, read as a parsing expression over the declarations
(`compile_preserves_meaning`).
-/

namespace RuleScript

/-! ## Names that are looked up -/

namespace Graph

variable {α : Type}

/-- A kind after its reference, if it is a pending one, has been looked up. -/
def linkKind (g : Graph α) : Kind α → Kind α
  | .reference target none => .reference target (g.idOf? target)
  | kind => kind

theorem kind_linkRule (g : Graph α) (rule : Rule α) :
    (g.linkRule rule).kind = g.linkKind rule.kind := by
  rw [linkRule]
  split
  · rename_i target hkind
    rw [hkind]
    rfl
  · rename_i hkind
    rw [linkKind]
    exact hkind

theorem kind?_link (g : Graph α) (id : RuleId) : g.link.kind? id = (g.kind? id).map g.linkKind := by
  rw [kind?, kind?, rule?_link, Option.map_map, Option.map_map]
  exact congrArg (Option.map · _) (funext g.kind_linkRule)

end Graph

namespace Script

section Linking

variable {g : Graph Char}

theorem kind?_link_of_kind? {id : RuleId} {kind : Kind Char} (h : g.kind? id = some kind) :
    g.link.kind? id = some (g.linkKind kind) := by
  rw [Graph.kind?_link, h, Option.map_some]

mutual

theorem StandsFor.link {kind : Kind Char} {one : Peg} :
    StandsFor (fun _ => none) g kind one → StandsFor g.link.idOf? g.link (g.linkKind kind) one
  | .rule h => .rule h.link
  | .only h => .only h.link

theorem MadeFor.link {kind : Kind Char} {one : Peg} :
    MadeFor (fun _ => none) g kind one → MadeFor g.link.idOf? g.link (g.linkKind kind) one
  | .name => by
      rw [Graph.linkKind, ← Graph.idOf?_link]
      exact .name
  | .text => .text
  | .range hlo hhi => .range hlo hhi
  | .set h => .set h
  | .any => .any
  | .sequence h => .sequence h.link
  | .choice h => .choice h.link
  | .repetition hbound hmax hid h => .repetition hbound hmax (kind?_link_of_kind? hid) h.link
  | .not hid h => .not (kind?_link_of_kind? hid) h.link
  | .ahead hid h => .ahead (kind?_link_of_kind? hid) h.link
  | .skip hform hid h => .skip hform (kind?_link_of_kind? hid) h.link
  | .log hseverity => .log hseverity
  | .logIf hseverity hid h => .logIf hseverity (kind?_link_of_kind? hid) h.link

theorem AllStandFor.link {ids : List RuleId} {parts : List Peg} :
    AllStandFor (fun _ => none) g ids parts → AllStandFor g.link.idOf? g.link ids parts
  | .nil => .nil
  | .cons hid h hrest => .cons (kind?_link_of_kind? hid) h.link hrest.link

end

end Linking

/-! ## Declarations -/

section Declarations

variable {s : Scanned}

/-- A rule has a name, and it stands for an expression or refers to a rule that does, while references
are pending. -/
def DraftedAs (name : String) (one? : Option Peg) (g : Graph Char) (id : RuleId) : Prop :=
  ∃ kind, Declared name kind g id ∧ Drafted g one? kind

/-- A declaration adds one rule with a name, which stands for the body. -/
theorem declaration_drafted (rule : String) (header : Header) (precedence : Precedence)
    {parts : List Part} {body : Expression} (hbody : s.body parts = .ok body)
    (hplain : Part.arePlain parts) :
    (do declare header precedence (← draft charTerminals rule body) : Declaring Char RuleId).Leads
      Ordinary [header.name] (DraftedAs header.name (s.pegBody parts)) :=
  (body_drafted hbody hplain).bind fun draft _ hdraft => by
    obtain ⟨_, -, hstands⟩ := hdraft
    exact (declare_leads hstands.isOrdinary (fun _ _ _ => rfl) header precedence).mono
      fun _ _ hdeclared hdraft => ⟨draft.1, hdeclared, hdraft⟩

/-- A statement that is a rule was read off a declaration. -/
theorem declaresAt_of_statement {node : Node} {header : Header} {body : Expression}
    (h : Part.ofNode node >>= s.statement = .ok (.rule header body)) :
    ∃ parts, s.DeclaresAt node header.name parts ∧ s.body parts = .ok body ∧
      ∀ name parts', s.DeclaresAt node name parts' → name = header.name ∧ parts' = parts := by
  obtain ⟨span, place, others, parts, hpart, hheader, hbody⟩ := Scanned.rule_of_statement h
  refine ⟨parts, ⟨span, place, others, header, hpart, hheader, rfl⟩, hbody, ?_⟩
  rintro name parts' ⟨span', place', others', header', hpart', hheader', rfl⟩
  cases hpart.symm.trans hpart'
  cases hheader.symm.trans hheader'
  exact ⟨rfl, rfl⟩

theorem not_declaresAt_of_include {node : Node} {path : Lexeme} {location : Location}
    (h : Part.ofNode node >>= s.statement = .ok (.includeFile path location)) (name : String)
    (parts : List Part) : ¬ s.DeclaresAt node name parts := by
  rintro ⟨span, place, others, header, hpart, -, -⟩
  obtain ⟨_, _, _, hpart', -⟩ := Scanned.include_of_statement h
  cases hpart.symm.trans hpart'

theorem not_declaresAt_of_isLog {node : Node} (hlog : grammar.isLog node.rule) (name : String)
    (parts : List Part) : ¬ s.DeclaresAt node name parts := by
  rintro ⟨span, place, others, header, hpart, -, -⟩
  rw [Part.not_isLog_of_ofNode hpart] at hlog
  cases hlog

/-- What is known after some statements that went well: the graph has grown by rules whose names are the
declared ones, each declared once, and each rule that has a name stands for what it is declared to be,
whatever rules may be added. -/
structure Progress.Declares (s : Scanned) (done : List Node) (p : Progress Char) : Prop where
  grows : Graph.Grows Ordinary p.graph.names .empty p.graph
  drafted : ∀ node ∈ done, ∀ name parts, s.DeclaresAt node name parts →
    ∀ G, p.graph.Within G → ∃ id, DraftedAs name (s.pegBody parts) G id
  declared : ∀ name ∈ p.graph.names, ∃ node ∈ done, ∃ parts, s.DeclaresAt node name parts

namespace Progress.Declares

variable {done : List Node} {node : Node} {p p' : Progress Char}

/-- A statement that declares nothing leaves all as it is. -/
theorem pass (h : Progress.Declares s done p) (hgraph : p'.graph = p.graph)
    (hnone : ∀ name parts, ¬ s.DeclaresAt node name parts) :
    Progress.Declares s (done ++ [node]) p' where
  grows := hgraph ▸ h.grows
  drafted other hother name parts hat := by
    rcases List.mem_append.mp hother with hother | hother
    · exact hgraph ▸ h.drafted other hother name parts hat
    · obtain rfl := List.mem_singleton.mp hother
      exact absurd hat (hnone name parts)
  declared name hname := by
    obtain ⟨other, hother, hat⟩ := h.declared name (hgraph ▸ hname)
    exact ⟨other, List.mem_append_left _ hother, hat⟩

/-- A declaration adds a rule that stands for what it says. -/
theorem rule (h : Progress.Declares s done p) {header : Header} {body : Expression}
    {precedence : Precedence} {id : RuleId}
    (hplain : ∀ name parts, s.DeclaresAt node name parts → Part.arePlain parts)
    (hread : Part.ofNode node >>= s.statement = .ok (.rule header body))
    (hrun : (do declare header precedence (← draft charTerminals header.name body) :
      Declaring Char RuleId).run.run p.graph = (.ok id, p'.graph)) :
    Progress.Declares s (done ++ [node]) p' := by
  obtain ⟨parts, hat, hbody, hunique⟩ := declaresAt_of_statement hread
  obtain ⟨hgrows, hdrafted⟩ := declaration_drafted header.name header precedence hbody
    (hplain _ _ hat) _ _ _ hrun
  refine ⟨?_, fun other hother name parts' hat' G hG => ?_, fun name hname => ?_⟩
  · rw [hgrows.names]
    exact h.grows.trans hgrows
  · -- A body drafted before stays what it was, since the graph only grows.
    rcases List.mem_append.mp hother with hother | hother
    · exact h.drafted other hother name parts' hat' G (hgrows.within.trans hG)
    · -- The new one is the body of the statement just read.
      obtain rfl := List.mem_singleton.mp hother
      obtain ⟨rfl, rfl⟩ := hunique name parts' hat'
      exact ⟨id, hdrafted G hG⟩
  · rw [hgrows.names] at hname
    rcases List.mem_append.mp hname with hname | hname
    · obtain ⟨other, hother, hat'⟩ := h.declared name hname
      exact ⟨other, List.mem_append_left _ hother, hat'⟩
    · obtain rfl := List.mem_singleton.mp hname
      exact ⟨node, List.mem_append_right _ List.mem_cons_self, parts, hat⟩

theorem goes (h : Progress.Declares s done p)
    (hplain : ∀ name parts, s.DeclaresAt node name parts → Part.arePlain parts)
    (hgoes : p.Goes charTerminals s node p') : Progress.Declares s (done ++ [node]) p' := by
  cases hgoes with
  | log hlog => exact h.pass rfl (not_declaresAt_of_isLog hlog)
  | includeFile hread => exact h.pass rfl (not_declaresAt_of_include hread)
  | rule _ hread _ hrun => exact h.rule hplain hread hrun

end Progress.Declares

/-! ## Complete scripts -/

theorem isOrdinary_linkKind (g : Graph Char) {kind : Kind Char} (h : kind.isOrdinary) :
    (g.linkKind kind).isOrdinary := by
  unfold Graph.linkKind
  split
  · rfl
  · exact h

/-- A rule that was declared leads to what it was declared to be, once the names have been looked up. -/
theorem DraftedAs.leadsTo {g : Graph Char} {name : String} {one? : Option Peg} {id : RuleId}
    (h : DraftedAs name one? g id) (hnames : g.names.Nodup) :
    ∃ body, one? = some body ∧ g.link.idOf? name = some id ∧ LeadsTo g.link id body := by
  obtain ⟨kind, ⟨rule, hrule, hname, hkind⟩, body, hbody, hstands⟩ := h
  refine ⟨body, hbody, ?_, ?_⟩
  · rw [Graph.idOf?_link, Graph.idOf?_eq_some_iff hnames]
    exact Graph.nameOf?_eq_some_iff.mpr ⟨rule, hrule, hname⟩
  · have hself := kind?_link_of_kind? (Graph.kind?_eq_some hrule)
    rcases hkind with rfl | ⟨label, inner, hreference, hinner⟩
    · exact .inl ⟨_, hself, hstands.link⟩
    · rw [hreference] at hself
      exact .inr ⟨label, inner, hself, _, kind?_link_of_kind? hinner, hstands.link⟩

/-- A name that is declared leads to what it is declared to be, after the names have been looked up. -/
theorem Progress.Declares.leadsTo {nodes : List Node} {p : Progress Char} {name : String}
    {parts : List Part} (h : Progress.Declares s (statementNodes nodes) p) (root : Option RuleId)
    (hname : s.Declares nodes name parts) :
    ∃ body id, s.pegBody parts = some body ∧
      (Graph.link { p.graph with root := root }).idOf? name = some id ∧
      LeadsTo (Graph.link { p.graph with root := root }) id body := by
  have hnames : Graph.names { p.graph with root := root } |>.Nodup :=
    (h.grows.wellFormed Graph.empty_wellFormed).distinct
  obtain ⟨node, hnode, hat⟩ := hname
  obtain ⟨id, hid⟩ := h.drafted node hnode name parts hat { p.graph with root := root }
    fun _ _ hrule => hrule
  obtain ⟨body, hbody, hname, hlead⟩ := hid.leadsTo hnames
  exact ⟨body, id, hbody, hname, hlead⟩

/-- What all statements of a script come to, with whatever rule for a root, implements the declarations
as soon as the names have been looked up, if it is valid then. -/
theorem Progress.Declares.implements {nodes : List Node} {p : Progress Char} (root : Option RuleId)
    (h : Progress.Declares s (statementNodes nodes) p)
    (hvalid : (Graph.link { p.graph with root := root }).validate = .ok ()) :
    Implements (s.Decls nodes) (Graph.link { p.graph with root := root }) := by
  let g : Graph Char := { p.graph with root := root }
  -- All rules come from drafts, and linking keeps them ordinary.
  have hordinary : g.link.Ordinary := by
    intro rule hrule
    obtain ⟨origin, horigin, rfl⟩ := Array.mem_map.mp hrule
    rw [Graph.kind_linkRule]
    exact isOrdinary_linkKind g ((h.grows.made origin horigin).resolve_left fun hmem => nomatch hmem)
  refine ⟨hordinary, fun name body hdecl => ?_, fun name id hid => ?_, fun id one min hkind =>
    not_derives_empty_of_validate hordinary hvalid hkind⟩
  · obtain ⟨parts, hdeclares, hbody⟩ := hdecl
    obtain ⟨body', id, hbody', hid, hlead⟩ := h.leadsTo root hdeclares
    cases hbody.symm.trans hbody'
    exact ⟨id, hid, hlead⟩
  · rw [Graph.idOf?_link] at hid
    have hmem : name ∈ p.graph.names := Graph.mem_names_iff.mpr ⟨id, Graph.nameOf?_of_idOf? hid⟩
    obtain ⟨node, hnode, parts, hat⟩ := h.declared name hmem
    obtain ⟨body, _, hbody, -, -⟩ := h.leadsTo root ⟨node, hnode, hat⟩
    exact ⟨body, parts, ⟨node, hnode, hat⟩, hbody⟩

/-- The statements of a script that compiles declare what its graph has. -/
theorem exists_declares_of_compile {unit source : String} {limit : Nat} {compiled : CompiledUnit Char}
    (h : (compile charTerminals unit source limit).1 = .ok compiled) :
    ∃ s outcome, (scan source limit).1 = .ok s ∧
      (grammar.matchRoot s.tokens.kinds limit).1 = .ok outcome ∧
      ((∀ name parts, s.Declares outcome.nodes name parts → Part.arePlain parts) →
        ∃ p : Progress Char, Progress.Declares s (statementNodes outcome.nodes) p ∧
          ∃ root, compiled.graph = { p.graph with root := root }) := by
  obtain ⟨s, outcome, diagnostics, hscan, hmatch, herrors, hgraph, -⟩ := exists_draught_of_compile h
  refine ⟨s, outcome, hscan, hmatch, fun hplain => ?_⟩
  obtain ⟨herrors, hrooted, -, -⟩ := Progress.rooted_of_errors herrors
  have hstart :
      Progress.Declares s [] { graph := charTerminals.base, errors := errorsIn diagnostics } :=
    ⟨.refl Ordinary .empty, fun _ hnode => (nomatch hnode), fun _ hname => (nomatch hname)⟩
  -- Statement by statement, since a draft without errors has accepted each of them.
  have hall := Progress.foldl_induction (P := fun done p =>
    (∀ node ∈ done, ∀ name parts, s.DeclaresAt node name parts → Part.arePlain parts) →
      Progress.Declares s done p) (fun _ => hstart) (fun done node p p' hdone hgoes hplain => ?_) herrors
  · exact ⟨_, hall.2 fun node hnode name parts hat => hplain name parts ⟨node, hnode, hat⟩, _,
      hgraph.trans hrooted⟩
  · refine (hdone fun other hother => hplain other (List.mem_append_left _ hother)).goes ?_ hgoes
    exact hplain node (List.mem_append_right _ List.mem_cons_self)

/-- **Compilation preserves meaning.**  A script without operator chains and fatal log entries, which
compiles and is complete by itself, declares names for parsing expressions, and the rule with a name
matches just what its body means.  A match that comes to an end at any depth comes to what is meant; and
what is meant is come to from some depth on. -/
theorem compile_preserves_meaning {unit source : String} {limit : Nat} {compiled : CompiledUnit Char}
    {compilation : Compilation Char}
    (hcompile : (compile charTerminals unit source limit).1 = .ok compiled)
    (hfinish : compiled.finish unit = .ok compilation) :
    ∃ s outcome, (scan source limit).1 = .ok s ∧
      (grammar.matchRoot s.tokens.kinds limit).1 = .ok outcome ∧
      ((∀ name parts, s.Declares outcome.nodes name parts → Part.arePlain parts) →
        ∀ name parts, s.Declares outcome.nodes name parts →
          ∃ body id, s.pegBody parts = some body ∧ compilation.graph.idOf? name = some id ∧
            ∀ input start,
              (∀ verdict, Peg.Means (s.Decls outcome.nodes) input body start verdict ↔
                ∃ least, ∀ depth ≥ least, ∃ matched,
                  (compilation.graph.matchAt input depth id start).1 = .ok matched ∧
                    matched.verdict = verdict) ∧
              ∀ depth matched, (compilation.graph.matchAt input depth id start).1 = .ok matched →
                Peg.Means (s.Decls outcome.nodes) input body start matched.verdict) := by
  obtain ⟨s, outcome, hscan, hmatch, hdeclares⟩ := exists_declares_of_compile hcompile
  refine ⟨s, outcome, hscan, hmatch, fun hplain name parts hname => ?_⟩
  obtain ⟨p, hp, root, hroot⟩ := hdeclares hplain
  obtain ⟨-, hvalid, hlinked⟩ := CompiledUnit.finish_eq_ok hfinish
  rw [hroot] at hlinked
  rw [hlinked] at hvalid ⊢
  -- Finishing links the graph and validates it, which is all that the meaning needs.
  have himplements := hp.implements root hvalid
  obtain ⟨body, id, hbody, hid, hlead⟩ := hp.leadsTo root hname
  refine ⟨body, id, hbody, hid, fun input start => ⟨fun verdict => ?_, ?_⟩⟩
  · exact (himplements.matchAt_iff hlead start verdict).1
  · exact (himplements.matchAt_iff hlead start none).2

/-- Two rules.  The first has two markers and refers to the second, which is not there yet. -/
def markedScript : String := "-r a = -c (b | 'y'); b = +'x';"

/-- What the script compiles to: the choice is a rule of its own, with the inner marker. -/
def markedUnit : CompiledUnit Char where
  graph :=
    { rules := #[⟨none, .none, .zero, .reference "b" none⟩, ⟨none, .all, .zero, .literal ['y']⟩,
        ⟨none, .children, .zero, .oneOf [⟨0⟩, ⟨1⟩]⟩,
        ⟨some "a", .root, .zero, .reference "one_of#2" (some ⟨2⟩)⟩,
        ⟨none, .all, .zero, .literal ['x']⟩, ⟨some "b", .none, .zero, .count ⟨4⟩ 1 0⟩]
      root := some ⟨3⟩ }
  includes := []
  diagnostics := []

theorem markedScript_preserves_meaning :
    ∃ s outcome, (scan markedScript 32).1 = .ok s ∧
      (grammar.matchRoot s.tokens.kinds 32).1 = .ok outcome ∧
      (∀ name parts, s.Declares outcome.nodes name parts → Part.arePlain parts) ∧
      ∀ name parts, s.Declares outcome.nodes name parts →
        ∃ body id, s.pegBody parts = some body ∧ markedUnit.graph.link.idOf? name = some id ∧
          ∀ input start,
            (∀ verdict, Peg.Means (s.Decls outcome.nodes) input body start verdict ↔
              ∃ least, ∀ depth ≥ least, ∃ matched,
                (markedUnit.graph.link.matchAt input depth id start).1 = .ok matched ∧
                  matched.verdict = verdict) ∧
            ∀ depth matched, (markedUnit.graph.link.matchAt input depth id start).1 = .ok matched →
              Peg.Means (s.Decls outcome.nodes) input body start matched.verdict := by
  -- all at once, because the grammar has to be built for it
  obtain ⟨hcompile, hfinish, hplain⟩ :
      (compile charTerminals "marked" markedScript 32).1 = .ok markedUnit ∧
        markedUnit.finish "marked" = .ok ⟨markedUnit.graph.link, []⟩ ∧
        ∀ s ∈ (scan markedScript 32).1.toOption,
          ∀ outcome ∈ (grammar.matchRoot s.tokens.kinds 32).1.toOption,
          ∀ node ∈ statementNodes outcome.nodes, ∀ part ∈ (Part.ofNode node).toOption, part.isPlain := by
    decide +kernel
  obtain ⟨s, outcome, hscan, hmatch, hmeans⟩ := compile_preserves_meaning hcompile hfinish
  have hdeclared : ∀ name parts, s.Declares outcome.nodes name parts → Part.arePlain parts := by
    rintro name parts ⟨node, hnode, span, place, others, header, hpart, -, -⟩
    have hwhole := hplain s (by rw [hscan]; rfl) outcome (by rw [hmatch]; rfl) node hnode _
      (by rw [hpart]; rfl)
    exact (Part.arePlain_cons (Part.isPlain_mk hwhole).2.2).2
  exact ⟨s, outcome, hscan, hmatch, hdeclared, hmeans hdeclared⟩

end Declarations

end Script

end RuleScript
