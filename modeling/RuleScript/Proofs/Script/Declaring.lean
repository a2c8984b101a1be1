import RuleScript.Proofs.Match.Origin
import RuleScript.Script.Declaration

/-!
# Declarations are at fault only for what they say

Declaring a rule fails if something in it stands for nothing, or if its name is taken; it never asks
for a rule that is not in the graph (`declaration_adds`).  The reason is that rules are only ever
added at the end, so an id that was given out stays below the number of rules: `Declaring.Adds`
carries this through the steps of a declaration, and an expression becomes a rule whose ids are all
below.

What stands for nothing is always found at a place that the declaration keeps: `FailsOnly` tells what a
value fails for, given what may be said of these places.
-/

namespace RuleScript

/-- An error that a script is to blame for, and not that the compiler and the script grammar are at
odds. -/
def CompileError.FromScript : CompileError → Prop
  | unmappedNode .. | malformedNode .. => False
  | graph error => ∃ name, error = .duplicateName name
  | aborted cause => cause.IsDepth
  | invalidRule .. | script _ => True

/-- An error about what a declaration says. -/
def CompileError.InDeclaration : CompileError → Prop
  | invalidRule .. => True
  | graph error => ∃ name, error = .duplicateName name
  | _ => False

theorem CompileError.InDeclaration.fromScript {error : CompileError} (h : error.InDeclaration) :
    error.FromScript := by
  cases error with
  | invalidRule => trivial
  | graph error => exact h
  | _ => cases h

/-- Strings and sets stand for rules that look at elements and at no other rule. -/
structure Terminals.Plain {α : Type} (terminals : Terminals α) : Prop where
  literal : ∀ text kind, terminals.literal text = .ok kind → kind.isTerminal
  set : ∀ items kind, terminals.set items = .ok kind → kind.isTerminal

namespace Script

/-! ## Places -/

/-- All places that a repetition form keeps are `P`. -/
def RepetitionForm.EachPlace (P : Location → Prop) : RepetitionForm → Prop
  | .star | .plus | .question => True
  | .exactly times location => P times.location ∧ P location
  | .atLeast min => P min.location
  | .between min max location => P min.location ∧ P max.location ∧ P location

theorem RepetitionForm.EachPlace.of_forall {P : Location → Prop} (h : ∀ location, P location)
    (form : RepetitionForm) : form.EachPlace P := by
  cases form <;> simp [EachPlace, h]

/-- All places that an item keeps are `P`. -/
def ItemForm.EachPlace (P : Location → Prop) : ItemForm → Prop
  | .one literal => P literal.location
  | .range lo hi => P lo.location ∧ P hi.location

theorem ItemForm.EachPlace.of_forall {P : Location → Prop} (h : ∀ location, P location)
    (item : ItemForm) : item.EachPlace P := by
  cases item <;> simp [EachPlace, h]

/-! ## Values -/

/-- Where there is no value, the error is `ok`. -/
def FailsOnly {β : Type} (ok : CompileError → Prop) (value? : Except CompileError β) : Prop :=
  ∀ error, value? = .error error → ok error

/-- An error about a place in a rule is `ok`, whatever it says. -/
def Admits (ok : CompileError → Prop) (rule : String) (location : Location) : Prop :=
  ∀ message, ok (.invalidRule rule message location)

namespace FailsOnly

variable {β γ : Type} {ok : CompileError → Prop} {rule : String}

theorem of_ok (value : β) : FailsOnly ok (.ok value) := fun _ h => nomatch h

theorem invalid {location : Location} (h : Admits ok rule location) (message : String) :
    FailsOnly ok (invalid rule message location : Except CompileError β) := by
  rintro _ ⟨⟩
  exact h message

theorem bind {value? : Except CompileError β} {next : β → Except CompileError γ}
    (h : FailsOnly ok value?) (hnext : ∀ value, FailsOnly ok (next value)) :
    FailsOnly ok (value? >>= next) := by
  cases value? with
  | error error =>
      rintro _ ⟨⟩
      exact h error rfl
  | ok value => exact hnext value

theorem map {value? : Except CompileError β} (f : β → γ) (h : FailsOnly ok value?) :
    FailsOnly ok (f <$> value?) := by
  rw [map_eq_pure_bind]
  exact h.bind fun value => of_ok (f value)

theorem mapM {f : β → Except CompileError γ} {list : List β}
    (h : ∀ a ∈ list, FailsOnly ok (f a)) : FailsOnly ok (list.mapM f) := by
  induction list with
  | nil => exact of_ok []
  | cons a list ih =>
      obtain ⟨ha, hlist⟩ := List.forall_mem_cons.mp h
      rw [List.mapM_cons]
      exact ha.bind fun value => (ih hlist).bind fun values => of_ok (value :: values)

theorem textOf {literal : Lexeme} (h : Admits ok rule literal.location) :
    FailsOnly ok (textOf rule literal) := by
  rw [Script.textOf]
  split
  · exact of_ok _
  · exact invalid h _

theorem countOf {digits : Lexeme} (h : Admits ok rule digits.location) :
    FailsOnly ok (countOf rule digits) := by
  rw [Script.countOf]
  split
  · exact of_ok _
  · exact invalid h _

theorem boundsOf {form : RepetitionForm} (h : form.EachPlace (Admits ok rule)) :
    FailsOnly ok (boundsOf rule form) := by
  cases form with
  | star => exact of_ok _
  | plus => exact of_ok _
  | question => exact of_ok _
  | exactly times location =>
      refine (countOf h.1).bind fun times => ?_
      split
      · exact invalid h.2 _
      · exact of_ok _
  | atLeast min => exact (countOf h).bind fun min => of_ok _
  | between min max location =>
      refine (countOf h.1).bind fun min => (countOf h.2.1).bind fun max => ?_
      split_ifs
      · exact invalid h.2.2 _
      · exact invalid h.2.2 _
      · exact of_ok _

theorem itemsOf {items : List ItemForm} (h : ∀ item ∈ items, item.EachPlace (Admits ok rule)) :
    FailsOnly ok (itemsOf rule items) := by
  refine mapM fun item hitem => ?_
  have hplace := h item hitem
  cases item with
  | one literal => exact (textOf hplace).map _
  | range lo hi => exact (textOf hplace.1).bind fun lo => (textOf hplace.2).bind fun hi => of_ok _

theorem terminalOf {α : Type} {location : Location} (h : Admits ok rule location)
    (terminal : Except TerminalError (Kind α)) : FailsOnly ok (terminalOf rule location terminal) := by
  cases terminal with
  | ok kind => exact of_ok kind
  | error error => exact invalid h _

theorem precedenceOf {header : Header}
    (h : ∀ digits ∈ header.precedence, Admits ok header.name digits.location) :
    FailsOnly ok (precedenceOf header) := by
  rw [Script.precedenceOf]
  split
  · exact of_ok _
  · rename_i digits hdigits
    split
    · exact of_ok _
    · exact invalid (h digits hdigits) _

end FailsOnly

/-- Where there is no value, the declaration is to blame. -/
def Faultless {β : Type} (value? : Except CompileError β) : Prop :=
  ∀ error, value? = .error error → error.InDeclaration

namespace Faultless

theorem admits (rule : String) (location : Location) :
    Admits CompileError.InDeclaration rule location :=
  fun _ => trivial

variable (rule : String)

theorem textOf (literal : Lexeme) : Faultless (textOf rule literal) :=
  FailsOnly.textOf (admits rule _)

theorem boundsOf (form : RepetitionForm) : Faultless (boundsOf rule form) :=
  FailsOnly.boundsOf (.of_forall (admits rule) form)

theorem itemsOf (items : List ItemForm) : Faultless (itemsOf rule items) :=
  FailsOnly.itemsOf fun item _ => .of_forall (admits rule) item

theorem terminalOf {α : Type} (location : Location) (terminal : Except TerminalError (Kind α)) :
    Faultless (terminalOf rule location terminal) :=
  FailsOnly.terminalOf (admits rule location) terminal

theorem precedenceOf (header : Header) : Faultless (precedenceOf header) :=
  FailsOnly.precedenceOf fun _ _ => admits _ _

end Faultless

/-! ## Rules -/

section Rules

variable {α β γ : Type}

/-- From a graph of at least `size` rules on, the computation adds rules and comes to what is `ok`
for the number of rules there are then, unless the declaration is to blame. -/
def Declaring.Adds (size : Nat) (run : Declaring α β) (ok : Nat → β → Prop) : Prop :=
  ∀ g : Graph α, size ≤ g.size →
    g.size ≤ (run.run.run g).2.size ∧
      match (run.run.run g).1 with
      | .ok value => ok (run.run.run g).2.size value
      | .error error => error.InDeclaration

namespace Declaring.Adds

variable {size : Nat} {ok : Nat → β → Prop} {ok' : Nat → γ → Prop} {run : Declaring α β}

protected theorem pure {value : β} (h : ∀ more, size ≤ more → ok more value) :
    (pure value : Declaring α β).Adds size ok :=
  fun g hg => ⟨Nat.le_refl _, h g.size hg⟩

theorem bind {next : β → Declaring α γ} (h : run.Adds size ok)
    (hnext : ∀ more value, size ≤ more → ok more value → (next value).Adds more ok') :
    (run >>= next).Adds size ok' := by
  intro g hg
  obtain ⟨hsize, hend⟩ := h g hg
  rw [ExceptT.run_bind, StateT.run_bind]
  rcases hresult : run.run.run g with ⟨error | value, g'⟩
  · rw [hresult] at hsize hend
    exact ⟨hsize, hend⟩
  · rw [hresult] at hsize hend
    obtain ⟨hsize', hend'⟩ := hnext g'.size value (Nat.le_trans hg hsize) hend g' (Nat.le_refl _)
    exact ⟨Nat.le_trans hsize hsize', hend'⟩

theorem lift {value? : Except CompileError β} (h : Faultless value?) :
    (liftM value? : Declaring α β).Adds size fun _ value => value? = .ok value := by
  intro g hg
  cases value? with
  | ok value => exact ⟨Nat.le_refl _, rfl⟩
  | error error => exact ⟨Nat.le_refl _, h error rfl⟩

end Declaring.Adds

/-- Rules that are among the first so many. -/
def AllBelow (size : Nat) (ids : List RuleId) : Prop := ∀ id ∈ ids, id.index < size

theorem AllBelow.mono {size more : Nat} {ids : List RuleId} (h : AllBelow size ids)
    (hmore : size ≤ more) : AllBelow more ids :=
  fun id hid => Nat.lt_of_lt_of_le (h id hid) hmore

theorem AllBelow.nil {size : Nat} : AllBelow size [] := fun _ h => nomatch h

theorem AllBelow.cons {size : Nat} {id : RuleId} {ids : List RuleId} (hid : id.index < size)
    (h : AllBelow size ids) : AllBelow size (id :: ids) :=
  List.forall_mem_cons.mpr ⟨hid, h⟩

theorem run_register (rule : Rule α) (g : Graph α) :
    (register rule).run.run g = match g.register rule with
      | .ok (id, graph) => (.ok id, graph)
      | .error error => (.error (.graph error), g) := by
  have hget : (register rule).run.run g =
      ((match g.register rule with
        | .ok (id, graph) => do
          set graph
          return id
        | .error error => throw (.graph error) : Declaring α RuleId)).run.run g := rfl
  rw [hget]
  cases g.register rule with
  | ok registered => rfl
  | error error => rfl

theorem register_eq_ok_of_run {rule : Rule α} {g g' : Graph α} {id : RuleId}
    (h : (register rule).run.run g = (.ok id, g')) : g.register rule = .ok (id, g') := by
  rw [run_register] at h
  cases hregister : g.register rule with
  | error error =>
      rw [hregister] at h
      cases h
  | ok registered =>
      rw [hregister] at h
      cases h
      rfl

/-- A computation in two steps comes to a value if each of them does, from where the first left the
graph. -/
theorem Declaring.exists_of_bind {run : Declaring α β} {next : β → Declaring α γ} {g g'' : Graph α}
    {result : γ} (h : (run >>= next).run.run g = (.ok result, g'')) :
    ∃ value g', run.run.run g = (.ok value, g') ∧ (next value).run.run g' = (.ok result, g'') := by
  rw [ExceptT.run_bind, StateT.run_bind] at h
  rcases hfirst : run.run.run g with ⟨error | value, g'⟩
  · rw [hfirst] at h
    cases h
  · rw [hfirst] at h
    exact ⟨value, g', rfl, h⟩

/-- Of a rule that refers to rules which are there, only the name can be refused. -/
theorem register_adds {size : Nat} {rule : Rule α} (h : AllBelow size rule.kind.subs) :
    (register rule).Adds size fun size id => id.index < size := by
  intro g hg
  have hsubs : rule.kind.subs.find? (!g.contains ·) = none := by
    rw [List.find?_eq_none]
    intro id hid
    simpa [Graph.contains] using Nat.lt_of_lt_of_le (h id hid) hg
  rw [run_register, Graph.register, hsubs]
  cases rule.name.filter g.hasName with
  | none => simp [Graph.size]
  | some taken => exact ⟨Nat.le_refl _, taken, rfl⟩

/-- The rules that a draft refers to are among the first so many. -/
def Ready (size : Nat) (draft : Draft α) : Prop := AllBelow size draft.1.subs

theorem pure_adds {size : Nat} {draft : Draft α} (h : Ready size draft) :
    (pure draft : Declaring α (Draft α)).Adds size Ready :=
  .pure fun _ hmore => AllBelow.mono h hmore

theorem registerDraft_adds {size : Nat} {draft : Draft α} (h : Ready size draft) :
    (registerDraft draft).Adds size fun size id => id.index < size :=
  register_adds h

variable {terminals : Terminals α} (rule : String)

/-- A terminal refers to no rules. -/
theorem terminal_adds {size : Nat} {location : Location} {terminal : Except TerminalError (Kind α)}
    (h : ∀ kind, terminal = .ok kind → kind.isTerminal) :
    (do return (← terminalOf rule location terminal, none) : Declaring α (Draft α)).Adds size
      Ready := by
  refine (Declaring.Adds.lift (Faultless.terminalOf rule location terminal)).bind
    fun size kind _ hkind => pure_adds ?_
  cases terminal with
  | ok kind' =>
      cases hkind
      have hterminal := h kind rfl
      rw [Ready]
      cases kind <;> first | exact .nil | cases hterminal
  | error error => cases hkind

/-- What is inside of an expression is registered before the expression is a rule itself. -/
theorem registered_adds {size : Nat} {run : Declaring α (Draft α)} (h : run.Adds size Ready)
    {next : RuleId → Draft α} (hnext : ∀ id, (next id).1.subs = [id]) :
    (run >>= registerDraft >>= fun id => pure (next id) : Declaring α (Draft α)).Adds size Ready := by
  refine (h.bind fun _ _ _ hready => registerDraft_adds hready).bind fun size id _ hid => pure_adds ?_
  rw [Ready, hnext]
  exact .cons hid .nil

mutual

/-- An expression stands for a rule that refers to rules which were added before it. -/
theorem draft_adds (hterminals : terminals.Plain) (size : Nat) :
    (e : Expression) → (draft terminals rule e).Adds size Ready
  | .name name => pure_adds .nil
  | .string literal =>
      (Declaring.Adds.lift (Faultless.textOf rule literal)).bind fun _ text _ _ =>
        terminal_adds rule (hterminals.literal text)
  | .set items location =>
      (Declaring.Adds.lift (Faultless.itemsOf rule items)).bind fun _ items _ _ =>
        terminal_adds rule (hterminals.set items)
  | .dot => pure_adds .nil
  | .sequence parts => (registerAll_adds hterminals size parts).bind fun _ _ _ h => pure_adds h
  | .choice alternatives =>
      (registerAll_adds hterminals size alternatives).bind fun _ _ _ h => pure_adds h
  | .evaluation alternatives =>
      (registerAll_adds hterminals size alternatives).bind fun _ _ _ h => pure_adds h
  | .repetition form operand =>
      (Declaring.Adds.lift (Faultless.boundsOf rule form)).bind fun size _ _ _ =>
        registered_adds (draft_adds hterminals size operand) fun _ => rfl
  | .not operand => registered_adds (draft_adds hterminals size operand) fun _ => rfl
  | .condition operand => registered_adds (draft_adds hterminals size operand) fun _ => rfl
  | .skip form operand =>
      registered_adds (draft_adds hterminals size operand) fun _ => by cases form <;> rfl
  | .log severity message =>
      (Declaring.Adds.lift (Faultless.textOf rule message)).bind fun _ _ _ _ => pure_adds .nil
  | .logIf severity message guard =>
      (Declaring.Adds.lift (Faultless.textOf rule message)).bind fun size _ _ _ =>
        registered_adds (draft_adds hterminals size guard) fun _ => rfl
  | .pruned pruning operand =>
      (draft_adds hterminals size operand).bind fun _ _ _ h => pure_adds h

theorem registerAll_adds (hterminals : terminals.Plain) (size : Nat) :
    (expressions : List Expression) → (registerAll terminals rule expressions).Adds size AllBelow
  | [] => .pure fun _ _ => .nil
  | expression :: rest =>
      ((draft_adds hterminals size expression).bind fun _ _ _ h => registerDraft_adds h).bind
        fun size _ _ hid => (registerAll_adds hterminals size rest).bind
          fun _ _ hsize hids => .pure fun _ hmore =>
            .cons (Nat.lt_of_lt_of_le hid (Nat.le_trans hsize hmore)) (hids.mono hmore)

end

theorem declare_adds {size : Nat} {body : Draft α} (h : Ready size body) (header : Header)
    (precedence : Precedence) :
    (declare header precedence body).Adds size fun size id => id.index < size := by
  rw [declare]
  split
  · refine .bind (register_adds ?_) fun size id _ hid => ?_
    · exact h
    have hget : (get : Declaring α (Graph α)).Adds size fun size _ => id.index < size :=
      fun g hg => ⟨Nat.le_refl _, Nat.lt_of_lt_of_le hid hg⟩
    exact hget.bind fun size g _ hid => register_adds (.cons hid .nil)
  · exact register_adds h

/-- **A declaration is at fault only for what it says**: the rules that it refers to are in the
graph, so what can be wrong with it is a text or a number that stands for nothing and a name that is
taken. -/
theorem declaration_adds (hterminals : terminals.Plain) (header : Header) (precedence : Precedence)
    (body : Expression) (size : Nat) :
    (do declare header precedence (← draft terminals rule body) : Declaring α RuleId).Adds size
      fun size id => id.index < size :=
  (draft_adds rule hterminals size body).bind fun _ _ _ h => declare_adds h header precedence

end Rules

/-! ## Terminals -/

theorem ok_of_bind {ε β γ : Type} {value? : Except ε β} {next : β → Except ε γ} {result : γ}
    (h : value? >>= next = .ok result) : ∃ value, value? = .ok value ∧ next value = .ok result := by
  cases value? with
  | error error => cases h
  | ok value => exact ⟨value, rfl, h⟩

theorem ok_of_map {ε β γ : Type} {value? : Except ε β} {f : β → γ} {result : γ}
    (h : f <$> value? = .ok result) : ∃ value, value? = .ok value ∧ f value = result := by
  cases value? with
  | error error => cases h
  | ok value => exact ⟨value, rfl, Except.ok.inj h⟩

theorem exists_of_mem_mapM {ε β γ : Type} {f : β → Except ε γ} {list : List β} {values : List γ}
    (h : list.mapM f = .ok values) {value : γ} (hvalue : value ∈ values) :
    ∃ a ∈ list, f a = .ok value := by
  induction list generalizing values with
  | nil =>
      cases h
      exact nomatch hvalue
  | cons a list ih =>
      rw [List.mapM_cons] at h
      obtain ⟨first, hfirst, h⟩ := ok_of_bind h
      obtain ⟨rest, hrest, h⟩ := ok_of_bind h
      cases h
      rcases List.mem_cons.mp hvalue with rfl | hvalue
      · exact ⟨a, List.mem_cons_self, hfirst⟩
      · obtain ⟨b, hb, hfb⟩ := ih hrest hvalue
        exact ⟨b, List.mem_cons_of_mem _ hb, hfb⟩

theorem charTerminals_plain : charTerminals.Plain where
  literal text kind h := by
    simp only [charTerminals] at h
    split at h
    · cases h
    · cases h
      rfl
  set items kind h := by
    simp only [charTerminals] at h
    split at h
    · obtain ⟨bounds, -, hkind⟩ := ok_of_bind h
      cases hkind
      rfl
    · obtain ⟨chars, -, hkind⟩ := ok_of_bind h
      cases hkind
      rfl

theorem tokenTerminals_plain (tokenizer : Graph Char) : (tokenTerminals tokenizer).Plain where
  literal text kind h := by
    simp only [tokenTerminals] at h
    cases htoken : tokenizer.token text with
    | error error =>
        rw [htoken] at h
        cases h
    | ok id =>
        rw [htoken] at h
        cases h
        rfl
  set items kind h := by
    obtain ⟨ids, -, hkind⟩ := ok_of_bind h
    cases hkind
    rfl

end Script

end RuleScript
