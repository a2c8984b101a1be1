import RuleScript.Proofs.Script.Extent
import RuleScript.Proofs.Script.Forms

/-!
# Where declarations fail

An expression keeps the places of the literals, sets and bounds that may turn out to stand for nothing
(`Expression.EachPlace`).  They are all inside the part that the expression was read from
(`Scanned.BodyMakes.eachPlace`), and declaring a rule fails for one of them if it does not fail as a rule
is registered (`declaration_failsOnly`).
-/

namespace RuleScript.Script

/-! ## Places in expressions -/

namespace Expression

mutual

/-- All places that an expression keeps are `P`. -/
def EachPlace (P : Location → Prop) : Expression → Prop
  | .string literal => P literal.location
  | .set items location => (∀ item ∈ items, item.EachPlace P) ∧ P location
  | .log _ message => P message.location
  | .logIf _ message guard => P message.location ∧ EachPlace P guard
  | .repetition form operand => form.EachPlace P ∧ EachPlace P operand
  | .sequence parts | .choice parts | .evaluation parts => AllEachPlace P parts
  | .not one | .condition one | .skip _ one | .pruned _ one => EachPlace P one
  | .name _ | .dot => True

def AllEachPlace (P : Location → Prop) : List Expression → Prop
  | [] => True
  | e :: rest => EachPlace P e ∧ AllEachPlace P rest

end

end Expression

namespace Part.Nested

variable {s : Scanned} {lo hi : Nat} {outer : Span} {parts : List Part} {part : Part}

theorem inside (h : Part.Nested lo hi parts) (hpart : part ∈ parts) :
    Part.Nested lo hi part.children := by
  obtain ⟨hlo, hhi, -, hchildren⟩ := h.of_mem hpart
  exact hchildren.mono hlo hhi

theorem holds (h : Part.Nested outer.start outer.stop parts) (hpart : part ∈ parts)
    (hkind : part.kind ≠ .script) : s.Holds outer (s.location part.span) := by
  obtain ⟨hlo, hhi, hlen, -⟩ := h.of_mem hpart
  exact ⟨part.span, rfl, hlen hkind, by simp [Span.includes, hlo, hhi]⟩

end Part.Nested

namespace Scanned

variable {s : Scanned} {outer : Span} {P : Location → Prop}

theorem repetition_eachPlace (hP : ∀ location, s.Holds outer location → P location)
    {operator : Part} {form : RepetitionForm} {parts : List Part}
    (h : s.repetition operator = .ok form) (hnested : Part.Nested outer.start outer.stop parts)
    (hpart : operator ∈ parts) : form.EachPlace P := by
  unfold repetition at h
  split at h
  · cases h
    trivial
  · cases h
    trivial
  · cases h
    trivial
  · -- The bounds in brackets lie inside the operator, and the operator inside the body.
    have hinside := hnested.inside hpart
    have hbrackets := hP _ (hnested.holds hpart (by simp))
    unfold bounds at h
    split at h
    · cases h
      exact ⟨hP _ (hinside.holds List.mem_cons_self (by simp)), hbrackets⟩
    · cases h
      exact hP _ (hinside.holds List.mem_cons_self (by simp))
    · cases h
      exact ⟨hP _ (hinside.holds List.mem_cons_self (by simp)),
        hP _ (hinside.holds (List.mem_cons_of_mem _ (List.mem_cons_of_mem _ List.mem_cons_self))
          (by simp)), hbrackets⟩
    · cases h
  · cases h

theorem item_eachPlace (hP : ∀ location, s.Holds outer location → P location)
    {part : Part} {form : ItemForm} {parts : List Part}
    (h : s.item part = .ok form) (hnested : Part.Nested outer.start outer.stop parts)
    (hpart : part ∈ parts) : form.EachPlace P := by
  have hinside := hnested.inside hpart
  unfold item at h
  split at h
  · cases h
    exact hP _ (hinside.holds List.mem_cons_self (by simp))
  · cases h
    exact ⟨hP _ (hinside.holds List.mem_cons_self (by simp)),
      hP _ (hinside.holds (List.mem_cons_of_mem _ List.mem_cons_self) (by simp))⟩
  · cases h

mutual

/-- All places that an expression keeps are inside the part that it was read from. -/
theorem Makes.eachPlace (hP : ∀ location, s.Holds outer location → P location)
    {part : Part} {e : Expression} {parts : List Part} :
    s.Makes part e → Part.Nested outer.start outer.stop parts → part ∈ parts → e.EachPlace P
  | .group h, hnested, hpart => h.eachPlace hP (hnested.inside hpart)
  | .only h, hnested, hpart => h.eachPlace hP (hnested.inside hpart) List.mem_cons_self
  | .sequence h, hnested, hpart => h.eachPlace hP (hnested.inside hpart)
  | .unary h, hnested, hpart => h.eachPlace hP (hnested.inside hpart) List.mem_cons_self
  | .pruned _ h, hnested, hpart =>
      h.eachPlace hP (hnested.inside hpart) (List.mem_cons_of_mem _ List.mem_cons_self)
  | .repetition hform h, hnested, hpart =>
      ⟨repetition_eachPlace hP hform (hnested.inside hpart) List.mem_cons_self,
        h.eachPlace hP (hnested.inside hpart) (List.mem_cons_of_mem _ List.mem_cons_self)⟩
  | .not h, hnested, hpart => h.eachPlace hP (hnested.inside hpart) List.mem_cons_self
  | .condition h, hnested, hpart => h.eachPlace hP (hnested.inside hpart) List.mem_cons_self
  | .skip _ h, hnested, hpart =>
      h.eachPlace hP (hnested.inside hpart) (List.mem_cons_of_mem _ List.mem_cons_self)
  | .log _, hnested, hpart =>
      hP _ ((hnested.inside hpart).holds (List.mem_cons_of_mem _ List.mem_cons_self) (by simp))
  | .logIf _ h, hnested, hpart =>
      ⟨hP _ ((hnested.inside hpart).holds (List.mem_cons_of_mem _ List.mem_cons_self) (by simp)),
        h.eachPlace hP (hnested.inside hpart)
          (List.mem_cons_of_mem _ (List.mem_cons_of_mem _ List.mem_cons_self))⟩
  | .set hforms, hnested, hpart =>
      ⟨fun form hform => by
        obtain ⟨item, hitem, hread⟩ := exists_of_mem_mapM hforms hform
        exact item_eachPlace hP hread (hnested.inside hpart) hitem,
      hP _ (hnested.holds hpart (by simp))⟩
  | .string, hnested, hpart => hP _ (hnested.holds hpart (by simp))
  | .dot, _, _ => trivial
  | .name, _, _ => trivial

theorem AllMake.eachPlace (hP : ∀ location, s.Holds outer location → P location)
    {parts : List Part} {es : List Expression} :
    s.AllMake parts es → Part.Nested outer.start outer.stop parts → Expression.AllEachPlace P es
  | .nil, _ => trivial
  | .cons h hrest, hnested => ⟨h.eachPlace hP hnested List.mem_cons_self, hrest.eachPlace hP hnested.tail⟩

theorem BodyMakes.eachPlace (hP : ∀ location, s.Holds outer location → P location)
    {parts : List Part} {e : Expression} :
    s.BodyMakes parts e → Part.Nested outer.start outer.stop parts → e.EachPlace P
  | .only h, hnested => h.eachPlace hP hnested List.mem_cons_self
  | .choice h hrest, hnested =>
      ⟨h.eachPlace hP hnested List.mem_cons_self,
        hrest.eachPlace hP (hnested.inside (List.mem_cons_of_mem _ List.mem_cons_self))⟩
  | .evaluation h hrest, hnested =>
      ⟨h.eachPlace hP hnested List.mem_cons_self,
        hrest.eachPlace hP (hnested.inside (List.mem_cons_of_mem _ List.mem_cons_self))⟩

end

theorem headerPart_precedence {soFar after : Option Pruning × Option String × Option Lexeme}
    {part : Part} (h : s.headerPart soFar part = .ok after) :
    after.2.2 = soFar.2.2 ∨ part.kind = .integer ∧ after.2.2 = some (s.lexeme part.span) := by
  unfold headerPart at h
  split at h
  · obtain ⟨pruning, -, heq⟩ := ok_of_bind h
    cases heq
    exact .inl rfl
  · cases h
    exact .inl rfl
  · cases h
    exact .inr ⟨rfl, rfl⟩
  · cases h

theorem foldlM_precedence {parts : List Part}
    {soFar after : Option Pruning × Option String × Option Lexeme}
    (h : parts.foldlM s.headerPart soFar = .ok after) :
    after.2.2 = soFar.2.2 ∨
      ∃ part ∈ parts, part.kind = .integer ∧ after.2.2 = some (s.lexeme part.span) := by
  induction parts generalizing soFar with
  | nil =>
      cases h
      exact .inl rfl
  | cons part parts ih =>
      rw [List.foldlM_cons] at h
      obtain ⟨next, hnext, h⟩ := ok_of_bind h
      rcases ih h with hsame | ⟨other, hother, hdigits⟩
      · rcases headerPart_precedence hnext with hfirst | hdigits
        · exact .inl (hsame.trans hfirst)
        · exact .inr ⟨part, List.mem_cons_self, hdigits.1, hsame.trans hdigits.2⟩
      · exact .inr ⟨other, List.mem_cons_of_mem _ hother, hdigits⟩

/-- The digits of a precedence are a part of the header. -/
theorem precedence_of_header {parts : List Part} {header : Header} {digits : Lexeme}
    (h : s.header parts = .ok header) (hdigits : digits ∈ header.precedence) :
    ∃ part ∈ parts, part.kind = .integer ∧ digits = s.lexeme part.span := by
  obtain ⟨after, hafter, h⟩ := ok_of_bind h
  split at h
  · cases h
    rcases foldlM_precedence hafter with hnone | ⟨part, hpart, hkind, hsome⟩
    · cases hnone.symm.trans hdigits
    · exact ⟨part, hpart, hkind, Option.some.inj (hdigits.symm.trans hsome)⟩
  · cases h

end Scanned

/-! ## Declarations -/

section Declarations

variable {α β γ : Type} {ok : CompileError → Prop}

/-- If the computation ends with an error, the error is `ok`. -/
def Declaring.FailsOnly (ok : CompileError → Prop) (run : Declaring α β) : Prop :=
  ∀ g, Script.FailsOnly ok (run.run.run g).1

namespace Declaring.FailsOnly

variable {run : Declaring α β}

protected theorem pure (value : β) : (pure value : Declaring α β).FailsOnly ok :=
  fun _ => Script.FailsOnly.of_ok value

theorem bind {next : β → Declaring α γ} (h : run.FailsOnly ok)
    (hnext : ∀ value, (next value).FailsOnly ok) : (run >>= next).FailsOnly ok := by
  intro g
  have hfirst := h g
  rw [ExceptT.run_bind, StateT.run_bind]
  rcases hrun : run.run.run g with ⟨error | value, g'⟩
  · rw [hrun] at hfirst
    rintro _ ⟨⟩
    exact hfirst error rfl
  · exact hnext value g'

theorem lift {value? : Except CompileError β} (h : Script.FailsOnly ok value?) :
    (liftM value? : Declaring α β).FailsOnly ok := by
  intro g
  cases value? with
  | ok value => exact .of_ok value
  | error error => exact h

theorem get : (get : Declaring α (Graph α)).FailsOnly ok := fun g => .of_ok g

theorem register (hgraph : ∀ error, ok (.graph error)) (rule : Rule α) :
    (register rule).FailsOnly ok := by
  intro g
  rw [run_register]
  cases g.register rule with
  | ok registered => exact .of_ok registered.1
  | error error =>
      rintro _ ⟨⟩
      exact hgraph error

end Declaring.FailsOnly

section Drafts

variable (terminals : Terminals α) (rule : String) (hgraph : ∀ error, ok (.graph error))

include hgraph

theorem registerDraft_failsOnly (draft : Draft α) : (registerDraft draft).FailsOnly ok :=
  .register hgraph _

theorem operand_failsOnly {run : Declaring α (Draft α)} (h : run.FailsOnly ok) (next : RuleId → Kind α) :
    (run >>= registerDraft >>= fun id => pure (next id, none) : Declaring α (Draft α)).FailsOnly ok :=
  (h.bind (registerDraft_failsOnly hgraph)).bind fun _ => .pure _

mutual

/-- Drafting an expression fails for one of its places, or as a rule is registered. -/
theorem draft_failsOnly : (e : Expression) → e.EachPlace (Admits ok rule) →
    (draft terminals rule e).FailsOnly ok
  | .name _, _ => .pure _
  | .string _, h =>
      (Declaring.FailsOnly.lift (.textOf h)).bind fun _ =>
        (Declaring.FailsOnly.lift (.terminalOf h _)).bind fun _ => .pure _
  | .set _ _, h =>
      (Declaring.FailsOnly.lift (.itemsOf h.1)).bind fun _ =>
        (Declaring.FailsOnly.lift (.terminalOf h.2 _)).bind fun _ => .pure _
  | .dot, _ => .pure _
  | .sequence parts, h => (registerAll_failsOnly parts h).bind fun _ => .pure _
  | .choice alternatives, h => (registerAll_failsOnly alternatives h).bind fun _ => .pure _
  | .evaluation alternatives, h => (registerAll_failsOnly alternatives h).bind fun _ => .pure _
  | .repetition _ operand, h =>
      (Declaring.FailsOnly.lift (.boundsOf h.1)).bind fun bounds =>
        operand_failsOnly hgraph (draft_failsOnly operand h.2) (.count · bounds.1 bounds.2)
  | .not operand, h => operand_failsOnly hgraph (draft_failsOnly operand h) .not
  | .condition operand, h => operand_failsOnly hgraph (draft_failsOnly operand h) .condition
  | .skip form operand, h => operand_failsOnly hgraph (draft_failsOnly operand h) (skipOf · form)
  | .log _ _, h => (Declaring.FailsOnly.lift (.textOf h)).bind fun _ => .pure _
  | .logIf severity _ guard, h =>
      (Declaring.FailsOnly.lift (.textOf h.1)).bind fun message =>
        operand_failsOnly hgraph (draft_failsOnly guard h.2) (.log severity message <| some ·)
  | .pruned _ operand, h => (draft_failsOnly operand h).bind fun _ => .pure _

theorem registerAll_failsOnly : (expressions : List Expression) →
    Expression.AllEachPlace (Admits ok rule) expressions →
      (registerAll terminals rule expressions).FailsOnly ok
  | [], _ => .pure _
  | expression :: rest, h =>
      ((draft_failsOnly expression h.1).bind (registerDraft_failsOnly hgraph)).bind fun _ =>
        (registerAll_failsOnly rest h.2).bind fun _ => .pure _

end

theorem declare_failsOnly (header : Header) (precedence : Precedence) (body : Draft α) :
    (declare header precedence body).FailsOnly ok := by
  rw [declare]
  split
  · exact (Declaring.FailsOnly.register hgraph _).bind fun _ => Declaring.FailsOnly.get.bind fun _ =>
      .register hgraph _
  · exact .register hgraph _

/-- **Declaring a rule fails for a place in its body**, or as a rule is registered. -/
theorem declaration_failsOnly (header : Header) (precedence : Precedence) {body : Expression}
    (h : body.EachPlace (Admits ok rule)) :
    (do declare header precedence (← draft terminals rule body) : Declaring α RuleId).FailsOnly ok :=
  (draft_failsOnly terminals rule hgraph body h).bind (declare_failsOnly hgraph header precedence)

end Drafts

end Declarations

end RuleScript.Script
