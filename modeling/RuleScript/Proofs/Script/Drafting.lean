import RuleScript.Proofs.Match.Derivation
import RuleScript.Proofs.Script.Forms
import RuleScript.Proofs.Script.Growing
import RuleScript.Proofs.Script.Values

/-!
# Rules stand for what is written

What the compiler makes of an expression is a rule that stands for it (`StandsFor`): a rule of the
same kind whose rules stand for the parts.  Only a sequence of one part has no rule of its own.  A
rule is told by its meaning and not by when it was registered, so `StandsFor` is about any graph that
has all the rules registered so far, and nothing has to be proved again when more are added
(`Declaring.Leads`).
-/

namespace RuleScript

namespace Script

/-! ## Rules for expressions -/

section Standing

variable (target : String → Option RuleId) (g : Graph Char)

mutual

/-- Rules of a kind stand for a parsing expression if references to a name point at `target` of
it.  A sequence of one part has no rule of its own. -/
inductive StandsFor : Kind Char → Peg → Prop
  | rule {kind : Kind Char} {one : Peg} (h : MadeFor kind one) : StandsFor kind one
  | only {kind : Kind Char} {part : Peg} (h : StandsFor kind part) : StandsFor kind (.sequence [part])

/-- Rules of a kind are of the form that goes with the form of a parsing expression. -/
inductive MadeFor : Kind Char → Peg → Prop
  | name {name : String} : MadeFor (.reference name (target name)) (.name name)
  | text {text : String} : MadeFor (.literal text.toList) (.text text)
  | range {lo hi : String} {first last : Char} (hlo : lo.toList = [first])
      (hhi : hi.toList = [last]) : MadeFor (.range first last) (.oneOf [.range lo hi])
  | set {items : List SetItem} {values : List Char}
      (h : ∀ c, c ∈ values ↔ items.any (·.admits c)) : MadeFor (.set values) (.oneOf items)
  | any : MadeFor (.any 1 1) .any
  | sequence {ids : List RuleId} {parts : List Peg} (h : AllStandFor ids parts) :
      MadeFor (.sequence ids) (.sequence parts)
  | choice {ids : List RuleId} {alternatives : List Peg} (h : AllStandFor ids alternatives) :
      MadeFor (.oneOf ids) (.choice alternatives)
  | repetition {id : RuleId} {kind : Kind Char} {one : Peg} {min bound : Nat} {max : Option Nat}
      (hbound : bound = max.getD 0) (hmax : ∀ most ∈ max, 0 < most ∧ min ≤ most)
      (hid : g.kind? id = some kind) (h : StandsFor kind one) :
      MadeFor (.count id min bound) (.repetition min max one)
  | not {id : RuleId} {kind : Kind Char} {one : Peg} (hid : g.kind? id = some kind)
      (h : StandsFor kind one) : MadeFor (.not id) (.not one)
  | ahead {id : RuleId} {kind : Kind Char} {one : Peg} (hid : g.kind? id = some kind)
      (h : StandsFor kind one) : MadeFor (.condition id) (.ahead one)
  | skip {id : RuleId} {kind : Kind Char} {stop : Peg} {form : SkipForm}
      {stopBefore failOnEnd : Bool}
      (hform : skipOf id form = (.skip id stopBefore failOnEnd : Kind Char))
      (hid : g.kind? id = some kind) (h : StandsFor kind stop) :
      MadeFor (.skip id stopBefore failOnEnd) (.skip form stop)
  | log {severity : Severity} {message : String} (hseverity : severity ≠ .fatal) :
      MadeFor (.log severity message none) .log
  | logIf {severity : Severity} {message : String} {id : RuleId} {kind : Kind Char} {guard : Peg}
      (hseverity : severity ≠ .fatal) (hid : g.kind? id = some kind) (h : StandsFor kind guard) :
      MadeFor (.log severity message (some id)) (.logIf guard)

/-- Rules stand for parsing expressions, one for each. -/
inductive AllStandFor : List RuleId → List Peg → Prop
  | nil : AllStandFor [] []
  | cons {id : RuleId} {kind : Kind Char} {ids : List RuleId} {part : Peg} {parts : List Peg}
      (hid : g.kind? id = some kind) (h : StandsFor kind part) (hrest : AllStandFor ids parts) :
      AllStandFor (id :: ids) (part :: parts)

end

/-- Rules of a kind stand for an expression, if there is one, while references are pending. -/
def Drafted (one? : Option Peg) (kind : Kind Char) : Prop :=
  ∃ one, one? = some one ∧ StandsFor (fun _ => none) g kind one

/-- A rule stands for an expression, if there is one, while references are pending. -/
def Registered (one? : Option Peg) (id : RuleId) : Prop :=
  ∃ kind, g.kind? id = some kind ∧ Drafted g one? kind

/-- Rules stand for expressions, if there are any, while references are pending. -/
def AllRegistered (parts? : Option (List Peg)) (ids : List RuleId) : Prop :=
  ∃ parts, parts? = some parts ∧ AllStandFor (fun _ => none) g ids parts

end Standing

section Standing

variable {target : String → Option RuleId} {g : Graph Char} {kind : Kind Char} {one : Peg}

theorem MadeFor.isOrdinary (h : MadeFor target g kind one) : kind.isOrdinary := by
  cases h with
  | log hseverity => exact decide_eq_true hseverity
  | logIf hseverity => exact decide_eq_true hseverity
  | _ => rfl

theorem StandsFor.isOrdinary {kind : Kind Char} {one : Peg} :
    StandsFor target g kind one → kind.isOrdinary
  | .rule h => h.isOrdinary
  | .only h => h.isOrdinary

/-- The rule for a set of characters stands for it. -/
theorem madeFor_set {items : List SetItem} (h : charTerminals.set items = .ok kind) :
    MadeFor target g kind (.oneOf items) := by
  rcases charTerminals_set_eq_ok h with ⟨lo, hi, first, last, rfl, hlo, hhi, rfl⟩ | ⟨_, rfl, hset⟩
  · exact .range hlo hhi
  · exact .set hset

theorem madeFor_text {text : String} (h : charTerminals.literal text = .ok kind) :
    MadeFor target g kind (.text text) := by
  simp only [charTerminals] at h
  split at h
  · cases h
  · cases h
    exact .text

end Standing

/-! ## Steps of a draft -/

section Steps

/-- What scripts without operator chains and fatal log entries add are ordinary rules. -/
abbrev Ordinary (kind : Kind Char) : Prop := kind.isOrdinary

variable {one? : Option Peg} {run : Declaring Char (Draft Char)}

theorem register_drafted (h : run.Leads Ordinary [] (Drafted · one? ·.1)) :
    (run >>= registerDraft).Leads Ordinary [] (Registered · one?) :=
  h.bind fun draft G hdraft => by
    obtain ⟨one, -, hstands⟩ := hdraft
    exact (registerDraft_leads hstands.isOrdinary).mono fun G id hid hdraft => ⟨_, hid, hdraft⟩

/-- An expression with one operand is a rule that refers to the rule of the operand. -/
theorem operand_drafted (h : run.Leads Ordinary [] (Drafted · one? ·.1)) {next : RuleId → Draft Char}
    {form : Peg → Peg}
    (hnext : ∀ G id kind one, Graph.kind? G id = some kind →
      StandsFor (fun _ => none) G kind one → MadeFor (fun _ => none) G (next id).1 (form one)) :
    (run >>= registerDraft >>= fun id => pure (next id) : Declaring Char (Draft Char)).Leads Ordinary []
      (Drafted · (form <$> one?) ·.1) :=
  (register_drafted h).bind fun id _ _ => .pure fun G hid => by
    obtain ⟨kind, hkind, one, rfl, hstands⟩ := hid
    exact ⟨form one, rfl, .rule (hnext G id kind one hkind hstands)⟩

/-- Expressions become rules, one for each. -/
theorem registerAll_cons_drafted {rule : String} {first : Expression} {rest : List Expression}
    {rest? : Option (List Peg)}
    (hfirst : (draft charTerminals rule first).Leads Ordinary [] (Drafted · one? ·.1))
    (hrest : (registerAll charTerminals rule rest).Leads Ordinary [] (AllRegistered · rest?)) :
    (registerAll charTerminals rule (first :: rest)).Leads Ordinary []
      (AllRegistered · (return (← one?) :: (← rest?))) :=
  (register_drafted hfirst).bind fun _ _ _ => hrest.bind fun _ _ _ => .pure fun _ hids hid => by
    obtain ⟨kind, hkind, one, rfl, hstands⟩ := hid
    obtain ⟨parts, rfl, hall⟩ := hids
    exact ⟨one :: parts, rfl, .cons hkind hstands hall⟩

/-- An expression with any number of operands is a rule that refers to their rules. -/
theorem operands_drafted {rule : String} {expressions : List Expression} {parts? : Option (List Peg)}
    (h : (registerAll charTerminals rule expressions).Leads Ordinary [] (AllRegistered · parts?))
    {next : List RuleId → Draft Char} {form : List Peg → Peg}
    (hnext : ∀ G ids parts, AllStandFor (fun _ => none) G ids parts →
      MadeFor (fun _ => none) G (next ids).1 (form parts)) :
    (registerAll charTerminals rule expressions >>= fun ids => pure (next ids) :
      Declaring Char (Draft Char)).Leads Ordinary [] (Drafted · (form <$> parts?) ·.1) :=
  h.bind fun ids _ _ => .pure fun G hids => by
    obtain ⟨parts, rfl, hall⟩ := hids
    exact ⟨form parts, rfl, .rule (hnext G ids parts hall)⟩

theorem terminal_drafted {rule : String} {location : Location}
    {terminal : Except TerminalError (Kind Char)}
    (h : ∀ G kind, terminal = .ok kind → Drafted G one? kind) :
    (do return (← terminalOf rule location terminal, none) : Declaring Char (Draft Char)).Leads Ordinary
      [] (Drafted · one? ·.1) :=
  (Declaring.Leads.lift (terminalOf rule location terminal)).bind fun kind _ hkind =>
    .pure fun G _ => h G kind (terminalOf_eq_ok rule hkind)

end Steps

/-! ## Forms of expressions -/

section Forms

variable {s : Scanned} {rule : String} {span place : Span} {operand : Part} {inner : Expression}

/-- A sequence of one part has no rule of its own. -/
theorem only_drafted
    (hone : (draft charTerminals rule inner).Leads Ordinary [] (Drafted · (s.peg operand) ·.1)) :
    (draft charTerminals rule inner).Leads Ordinary []
      (Drafted · (s.peg ⟨.sequence, span, [operand]⟩) ·.1) :=
  hone.mono fun G draft hdraft => by
    obtain ⟨one, hone, hstands⟩ := hdraft
    exact ⟨.sequence [one], by rw [Scanned.peg, Scanned.pegs, Scanned.pegs, hone]; rfl, .only hstands⟩

/-- A marker is no part of what an expression means. -/
theorem pruned_drafted {parts : List Part} (pruning : Pruning)
    (hone : (draft charTerminals rule inner).Leads Ordinary [] (Drafted · (s.peg operand) ·.1)) :
    (draft charTerminals rule (.pruned pruning inner)).Leads Ordinary []
      (Drafted · (s.peg ⟨.unary, span, [⟨.prune, place, parts⟩, operand]⟩) ·.1) := by
  rw [Scanned.peg]
  exact hone.bind fun _ _ _ => .pure fun _ hdraft => hdraft

/-- Bounds that the compiler takes are those that are written. -/
theorem repetition_drafted {operator : Part} {form : RepetitionForm}
    (hform : s.repetition operator = .ok form)
    (hone : (draft charTerminals rule inner).Leads Ordinary [] (Drafted · (s.peg operand) ·.1)) :
    (draft charTerminals rule (.repetition form inner)).Leads Ordinary []
      (Drafted · (s.peg ⟨.count, span, [operator, operand]⟩) ·.1) := by
  refine (Declaring.Leads.lift (boundsOf rule form)).bind fun bounds _ hbounds => ?_
  obtain ⟨max, hwritten, hbound, hmax⟩ := Scanned.bounds?_of_boundsOf hform hbounds
  rw [Scanned.peg, hwritten]
  exact (operand_drafted hone fun _ _ _ _ hid hstands => .repetition hbound hmax hid hstands).mono
    fun _ _ h _ => by
      rw [map_eq_pure_bind] at h
      exact h

theorem skip_drafted {keyword : NodeKind} {parts : List Part} {form : SkipForm}
    (hform : Scanned.skipForm keyword = .ok form)
    (hone : (draft charTerminals rule inner).Leads Ordinary [] (Drafted · (s.peg operand) ·.1)) :
    (draft charTerminals rule (.skip form inner)).Leads Ordinary []
      (Drafted · (s.peg ⟨.skip, span, [⟨keyword, place, parts⟩, operand]⟩) ·.1) := by
  have hmade (G : Graph Char) (id : RuleId) (kind : Kind Char) (one : Peg)
      (hid : G.kind? id = some kind) (hstands : StandsFor (fun _ => none) G kind one) :
      MadeFor (fun _ => none) G (skipOf id form) (.skip form one) := by
    cases form <;> exact .skip rfl hid hstands
  rw [Scanned.peg, Scanned.ending?_of_skipForm hform]
  exact (operand_drafted hone hmade).mono fun _ _ h => by
    rw [map_eq_pure_bind] at h
    exact h

theorem log_drafted {keyword : NodeKind} {parts content : List Part} {message : Span}
    {level : Severity} (hlevel : Scanned.severity keyword = .ok level) (hkeyword : keyword ≠ .kwFatal) :
    (draft charTerminals rule (.log level (s.lexeme message))).Leads Ordinary [] (Drafted ·
      (s.peg ⟨.log, span, [⟨keyword, place, parts⟩, ⟨.string, message, content⟩]⟩) ·.1) := by
  rw [Scanned.peg, if_neg hkeyword]
  exact (Declaring.Leads.lift (textOf rule _)).bind fun _ _ _ => .pure fun _ _ =>
    ⟨.log, rfl, .rule (.log (Scanned.severity_ne_fatal hlevel hkeyword))⟩

theorem logIf_drafted {keyword : NodeKind} {parts content : List Part} {message : Span}
    {level : Severity} (hlevel : Scanned.severity keyword = .ok level) (hkeyword : keyword ≠ .kwFatal)
    (hone : (draft charTerminals rule inner).Leads Ordinary [] (Drafted · (s.peg operand) ·.1)) :
    (draft charTerminals rule (.logIf level (s.lexeme message) inner)).Leads Ordinary [] (Drafted ·
      (s.peg ⟨.log, span, [⟨keyword, place, parts⟩, ⟨.string, message, content⟩, operand]⟩) ·.1) := by
  rw [Scanned.peg, if_neg hkeyword]
  exact (Declaring.Leads.lift (textOf rule _)).bind fun message _ _ =>
    (operand_drafted hone fun _ _ _ _ hid hstands =>
      .logIf (Scanned.severity_ne_fatal hlevel hkeyword) hid hstands).mono fun _ _ h _ => h

theorem set_drafted {items : List Part} {forms : List ItemForm} (location : Location)
    (hforms : items.mapM s.item = .ok forms) :
    (draft charTerminals rule (.set forms location)).Leads Ordinary []
      (Drafted · (s.peg ⟨.set, span, items⟩) ·.1) := by
  rw [Scanned.peg]
  refine (Declaring.Leads.lift (itemsOf rule forms)).bind fun items _ hitems => ?_
  rw [Scanned.setItems_of_itemsOf hforms hitems]
  exact (terminal_drafted fun _ _ hkind => ⟨_, rfl, .rule (madeFor_set hkind)⟩).mono fun _ _ h _ => h

theorem string_drafted (s : Scanned) (rule : String) (span : Span) (parts : List Part) :
    (draft charTerminals rule (.string (s.lexeme span))).Leads Ordinary []
      (Drafted · (s.peg ⟨.string, span, parts⟩) ·.1) := by
  rw [Scanned.peg]
  refine (Declaring.Leads.lift (textOf rule _)).bind fun text _ htext => ?_
  rw [Scanned.text?_of_textOf htext]
  exact (terminal_drafted fun _ _ hkind => ⟨_, rfl, .rule (madeFor_text hkind)⟩).mono fun _ _ h _ => h

end Forms

/-! ## Drafts -/

section Drafts

variable {s : Scanned} {rule : String}

mutual

/-- **What a part makes is drafted as a rule for the parsing expression that it is.** -/
theorem Scanned.Makes.drafted {part : Part} {e : Expression} :
    s.Makes part e → part.isPlain →
      (draft charTerminals rule e).Leads Ordinary [] (Drafted · (s.peg part) ·.1)
  | .group h, hplain => by
      rw [Scanned.peg]
      exact h.drafted (Part.isPlain_mk hplain).2.2
  -- A part with one child stands for that child.
  | .only h, hplain => only_drafted (h.drafted (Part.isPlain_first hplain))
  | .sequence h, hplain => by
      rw [Scanned.peg]
      exact operands_drafted (h.drafted (Part.isPlain_mk hplain).2.2) fun _ _ _ hall => .sequence hall
  | .unary h, hplain => by
      rw [Scanned.peg]
      exact h.drafted (Part.isPlain_first hplain)
  | .pruned _ h, hplain => pruned_drafted _ (h.drafted (Part.isPlain_second hplain))
  | .repetition hform h, hplain => repetition_drafted hform (h.drafted (Part.isPlain_second hplain))
  | .not h, hplain => by
      have hone := h.drafted (Part.isPlain_first hplain)
      rw [Scanned.peg]
      exact operand_drafted hone fun _ _ _ _ hid hstands => .not hid hstands
  | .condition h, hplain => by
      have hone := h.drafted (Part.isPlain_first hplain)
      rw [Scanned.peg]
      exact operand_drafted hone fun _ _ _ _ hid hstands => .ahead hid hstands
  | .skip hform h, hplain => skip_drafted hform (h.drafted (Part.isPlain_second hplain))
  | .log hlevel, hplain =>
      log_drafted hlevel (Part.isPlain_mk (Part.isPlain_first hplain)).2.1
  | .logIf hlevel h, hplain => by
      obtain ⟨hkeyword, hrest⟩ := Part.arePlain_cons (Part.isPlain_mk hplain).2.2
      have hguard := h.drafted (Part.arePlain_cons (Part.arePlain_cons hrest).2).1
      exact logIf_drafted hlevel (Part.isPlain_mk hkeyword).2.1 hguard
  | .set hforms, _ => set_drafted _ hforms
  | .string, _ => string_drafted s rule _ _
  | .dot, _ => by
      rw [Scanned.peg]
      exact .pure fun _ => ⟨.any, rfl, .rule .any⟩
  | .name, _ => by
      rw [Scanned.peg]
      exact .pure fun _ => ⟨_, rfl, .rule .name⟩

theorem Scanned.AllMake.drafted {parts : List Part} {es : List Expression} :
    s.AllMake parts es → Part.arePlain parts →
      (registerAll charTerminals rule es).Leads Ordinary [] (AllRegistered · (s.pegs parts))
  | .nil, _ => .pure fun _ => ⟨[], rfl, .nil⟩
  | .cons h hrest, hplain => by
      obtain ⟨hpart, hparts⟩ := Part.arePlain_cons hplain
      rw [Scanned.pegs]
      exact registerAll_cons_drafted (h.drafted hpart) (hrest.drafted hparts)

theorem Scanned.BodyMakes.drafted {parts : List Part} {e : Expression} :
    s.BodyMakes parts e → Part.arePlain parts →
      (draft charTerminals rule e).Leads Ordinary [] (Drafted · (s.pegBody parts) ·.1)
  | .only h, hplain => by
      rw [Scanned.pegBody]
      exact h.drafted (Part.arePlain_cons hplain).1
  | @BodyMakes.choice _ first _ rest _ _ h hrest, hplain => by
      obtain ⟨hfirst, hlast⟩ := Part.arePlain_cons hplain
      have hall := registerAll_cons_drafted (h.drafted hfirst)
        (hrest.drafted (Part.isPlain_mk (Part.arePlain_cons hlast).1).2.2)
      rw [Scanned.pegBody]
      exact (operands_drafted hall fun _ _ _ hall => .choice hall).mono fun _ _ h => by
        cases hone : s.peg first <;> cases hrest : s.pegs rest <;> rw [hone, hrest] at h <;> exact h
  | .evaluation _ _, hplain =>
      absurd rfl (Part.isPlain_mk (Part.arePlain_cons (Part.arePlain_cons hplain).2).1).1

end

theorem body_drafted {parts : List Part} {e : Expression} (h : s.body parts = .ok e)
    (hplain : Part.arePlain parts) :
    (draft charTerminals rule e).Leads Ordinary [] (Drafted · (s.pegBody parts) ·.1) :=
  (Scanned.bodyMakes_of_body parts h).drafted hplain

end Drafts

end Script

end RuleScript
