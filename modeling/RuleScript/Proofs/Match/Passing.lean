import RuleScript.Proofs.Forest
import RuleScript.Proofs.Match.Derivation
import RuleScript.Proofs.Match.Folding
import RuleScript.Proofs.Match.Loops

/-!
# What rules pass on

A rule adds little of its own to what the rules inside come to: records in the journal, one node over
what they left or one log entry, and a stop of the whole match if it is a fatal log or a reference
that points nowhere.  So whatever the rules inside keep to, the rule keeps to (`Match.kind_passes`),
be it said of traces, of what stops a match or of forests.  Of a forest it has to be something that
holds of two forests put together if it holds of each.

Rules of some kinds put no node over what they match (`Kind.leavesNode`).  Log entries apart, such a rule
leaves just what the rules inside left (`Match.kind_passes_on`).
-/

namespace RuleScript

/-- A property that two forests one after the other have if each of them has. -/
structure Node.Additive (P : List Node → Prop) : Prop where
  nil : P []
  append : ∀ {first second : List Node}, P first → P second → P (first ++ second)

theorem Node.additive_true : Node.Additive fun _ => True := ⟨trivial, fun _ _ => trivial⟩

/-- A property of traces that only a rule which is not there can put an end to. -/
structure Trace.Steady (inv : Trace → Prop) : Prop where
  record : ∀ {trace : Trace} {event : Event}, (∀ id, event ≠ .unknownRule id) → inv trace →
    inv { trace with journal := trace.journal.push event }
  miss : ∀ {trace : Trace} {pos : Nat}, inv trace →
    inv { trace with farthest := max trace.farthest pos }

theorem Trace.steady_true : Trace.Steady fun _ => True := ⟨fun _ _ => trivial, fun _ => trivial⟩

theorem Trace.Steady.meets_record {inv : Trace → Prop} (hinv : Trace.Steady inv)
    {bad : Abort → Prop} {event : Event} (h : ∀ id, event ≠ .unknownRule id) :
    (Run.record event).Meets inv bad fun _ => True :=
  .record trivial fun _ => hinv.record h

namespace Match

variable {inv : Trace → Prop} {bad : Abort → Prop} {P : List Node → Prop}
variable {sub : RuleId → Nat → Run Outcome} {start : Nat}

section Loops

variable (hinv : Trace.Steady inv) (hP : Node.Additive P)

include hP

theorem appendList_additive {nodes : Array Node} {found : List Node} (hnodes : P nodes.toList)
    (hfound : P found) : P (nodes ++ found).toList := by
  rw [Array.toList_appendList]
  exact hP.append hnodes hfound

theorem enough_additive {min reps len : Nat} {nodes : Array Node} (hnodes : P nodes.toList) :
    P (enough min reps len nodes).nodes := by
  rw [enough]
  split
  · exact hP.nil
  · exact hnodes

theorem inSequence_passes {ids : List RuleId}
    (hsub : ∀ id ∈ ids, ∀ pos, (sub id pos).Meets inv bad fun outcome => P outcome.nodes)
    (len : Nat) (nodes : Array Node) (hnodes : P nodes.toList) :
    (inSequence sub start ids len nodes).Meets inv bad fun outcome => P outcome.nodes := by
  induction ids generalizing len nodes with
  | nil => exact .pure hnodes
  | cons id ids ih =>
      refine inSequence_cons_meets (hsub id List.mem_cons_self (start + len)) (fun _ => hP.nil)
        fun more found hfound => ?_
      exact ih (fun id hid => hsub id (List.mem_cons_of_mem _ hid)) _ _
        (appendList_additive hP hnodes hfound)

theorem firstOf_passes {ids : List RuleId}
    (hsub : ∀ id ∈ ids, ∀ pos, (sub id pos).Meets inv bad fun outcome => P outcome.nodes) :
    (firstOf sub start ids).Meets inv bad fun outcome => P outcome.nodes :=
  firstOf_meets (P := fun _ outcome => P outcome.nodes) (fun id hid => hsub id hid start) hP.nil
    fun _ _ _ _ houtcome => houtcome

theorem skipTo_passes {stop : RuleId}
    (hsub : ∀ pos, (sub stop pos).Meets inv bad fun outcome => P outcome.nodes)
    (stopBefore failOnEnd : Bool) (room passed : Nat) :
    (skipTo sub stop stopBefore failOnEnd start room passed).Meets inv bad
      fun outcome => P outcome.nodes := by
  have htry {beyond : Run Outcome} (passed : Nat)
      (hbeyond : beyond.Meets inv bad fun outcome => P outcome.nodes) :
      (stopOr sub stop stopBefore start passed beyond).Meets inv bad
        fun outcome => P outcome.nodes := by
    refine stopOr_meets (hsub (start + passed)) (fun len nodes hfound => ?_) fun _ => hbeyond
    split
    · exact hP.nil
    · exact hfound
  induction room generalizing passed with
  | zero =>
      refine htry passed (.pure ?_)
      split <;> exact hP.nil
  | succ room ih => exact htry passed (ih (passed + 1))

include hinv

theorem repeated_passes {id : RuleId}
    (hsub : ∀ pos, (sub id pos).Meets inv bad fun outcome => P outcome.nodes) (label : String)
    (min max room reps len : Nat) (nodes : Array Node) (hnodes : P nodes.toList) :
    (repeated sub label id min max start room reps len nodes).Meets inv bad
      fun outcome => P outcome.nodes := by
  have hround {again : Nat → Nat → Array Node → Run Outcome} (reps len : Nat) (nodes : Array Node)
      (hnodes : P nodes.toList)
      (hagain : ∀ reps len (nodes : Array Node), P nodes.toList →
        (again reps len nodes).Meets inv bad fun outcome => P outcome.nodes) :
      (repetition sub label id min max start again reps len nodes).Meets inv bad
        fun outcome => P outcome.nodes := by
    refine repetition_meets (hsub (start + len)) ?_ ?_ ?_ ?_ ?_
    · exact fun _ _ => enough_additive hP hnodes
    · exact fun _ _ => enough_additive hP hnodes
    · exact fun _ _ _ => (hinv.meets_record (by simp)).bind fun _ _ =>
        .pure hP.nil
    · exact fun _ _ _ hfound => enough_additive hP (appendList_additive hP hnodes hfound)
    · exact fun _ _ _ _ hfound => hagain _ _ _ (appendList_additive hP hnodes hfound)
  induction room generalizing reps len nodes with
  | zero =>
      exact hround reps len nodes hnodes fun reps len nodes hnodes =>
        .pure (enough_additive hP hnodes)
  | succ room ih => exact hround reps len nodes hnodes ih

end Loops

/-- A chain keeps to what the rules inside keep to, if each operator does over what is between. -/
theorem chain_passes {α : Type} {g : Graph α} {form : ChainForm} {size : Nat} (hP : Node.Additive P)
    (hsub : ∀ id pos, (sub id pos).Meets inv bad fun outcome => P outcome.nodes)
    (hoperators : ∀ operator ∈ form.operators, ∀ span inner, P inner →
      P (g.prune operator.pruning [⟨operator.identity, span, inner⟩])) :
    (chain sub form g size start).Meets inv bad fun outcome => P outcome.nodes := by
  have hright (operator : BinaryOperator) (pos : Nat) :
      (rightOperand sub form operator pos).Meets inv bad fun outcome => P outcome.nodes := by
    rw [rightOperand]
    split
    · exact firstOf_passes hP fun id _ => hsub id
    · exact hsub operator.right pos
  -- A link has an operator of the form, and nodes that come from calls.
  have hnext (pos : Nat) : (nextLink sub form pos form.operators).Meets inv bad fun link? =>
      ∀ link ∈ link?, (link.operator ∈ form.operators ∧ P link.nodes ∧ P link.right.nodes) ∧ True :=
    nextLink_meets (fun operator _ => hsub operator.operator pos)
      (fun operator _ _ _ _ => hright operator _)
      fun _ hoperator _ _ _ _ _ hnodes hright => ⟨⟨hoperator, hnodes, hright⟩, trivial⟩
  refine (firstOf_passes hP fun id _ => hsub id).bind fun outcome houtcome => ?_
  cases outcome with
  | failure => exact .pure hP.nil
  | success len nodes =>
      refine (extend_meets (fun _ => True) (fun pos _ => hnext pos) _ _ #[] trivial
        fun _ hlink => absurd hlink (Array.not_mem_empty _)).bind fun links hlinks => .pure ?_
      refine ChainTree.fold_ofChain (P := fun operand => P operand.nodes)
        (Q := fun operator nodes => operator ∈ form.operators ∧ P nodes) houtcome ?_ ?_
      · intro link hlink
        obtain ⟨hoperator, hnodes, hright⟩ := hlinks link (Array.mem_toList_iff.mp hlink)
        exact ⟨⟨hoperator, hnodes⟩, hright⟩
      · intro operator nodes left right hoperator hleft hright
        exact hoperators operator hoperator.1 _ _ (hP.append (hP.append hleft hoperator.2) hright)

end Match

/-! ## Single rules -/

/-- Whether rules of this kind put a node of their own over what they match. -/
def Kind.leavesNode {α : Type} : Kind α → Bool
  | sequence _ | oneOf _ | count .. | skip .. => true
  | kind => kind.isTerminal

/-- What is left are forests that `P` holds of, a node of the rule over one, or a log entry. -/
def Outcome.MadeOf {α : Type} (g : Graph α) (P : List Node → Prop) (id : RuleId) (start : Nat) :
    Outcome → Prop
  | failure => True
  | success len nodes => P nodes ∨ (∃ inner, P inner ∧ nodes = [⟨id, ⟨start, len⟩, inner⟩]) ∨
      g.isLog id ∧ ∃ span, nodes = [.leaf id span]

namespace Outcome.MadeOf

variable {α : Type} {g : Graph α} {P : List Node → Prop} {id : RuleId} {start : Nat}

theorem of_nodes {outcome : Outcome} (h : P outcome.nodes) : outcome.MadeOf g P id start := by
  cases outcome with
  | failure => trivial
  | success len nodes => exact .inl h

theorem under {outcome : Outcome} (h : P outcome.nodes) :
    (outcome.under id start).MadeOf g P id start := by
  cases outcome with
  | failure => trivial
  | success len nodes => exact .inr (.inl ⟨nodes, h, rfl⟩)

/-- What holds of all that an outcome may be made of holds of what it leaves. -/
theorem nodes {Q : List Node → Prop} {outcome : Outcome} (h : outcome.MadeOf g P id start)
    (hnil : Q []) (hinner : ∀ inner, P inner → Q inner)
    (hunder : ∀ len inner, P inner → Q [⟨id, ⟨start, len⟩, inner⟩])
    (hlog : g.isLog id → ∀ span, Q [.leaf id span]) : Q outcome.nodes := by
  cases outcome with
  | failure => exact hnil
  | success len nodes =>
      rcases h with hnodes | ⟨inner, hnodes, rfl⟩ | ⟨hid, span, rfl⟩
      · exact hinner _ hnodes
      · exact hunder _ _ hnodes
      · exact hlog hid span

end Outcome.MadeOf

namespace Match

variable {α : Type} [Element α] {g : Graph α} {input : Array α}
variable {inv : Trace → Prop} {bad : Abort → Prop} {P : List Node → Prop}
variable {sub : RuleId → Nat → Run Outcome} {start : Nat}

/-- What a rule with no node of its own comes to is a log entry over it, or a forest that rules inside
of it left. -/
theorem kind_passes_on {Q : Outcome → Prop} (hinv : Trace.Steady inv) (hP : Node.Additive P)
    {id : RuleId} {kind : Kind α} (hkind : g.kind? id = some kind) (hnode : kind.leavesNode = false)
    (hpending : ∀ name, kind = .reference name none → bad (.unresolvedReference name))
    (hfatal : ∀ message guard, kind = .log .fatal message guard → ∀ span, bad (.fatal message span))
    (hchain : ∀ alternatives, kind = .evaluation alternatives →
      (chain sub (ChainForm.ofEvaluation g id alternatives) g input.size start).Meets inv bad Q)
    (hsub : ∀ one ∈ kind.subs, ∀ pos, (sub one pos).Meets inv bad fun outcome => P outcome.nodes)
    (hnodes : ∀ outcome, P outcome.nodes → Q outcome)
    (hentry : g.isLog id → ∀ len span, Q (.success len [.leaf id span])) :
    (Match.kind g input sub id kind start).Meets inv bad Q := by
  cases kind with
  | not one =>
      refine (hsub one (by simp [Kind.subs]) start).bind fun outcome _ => ?_
      cases outcome with
      | failure => exact .pure (hnodes _ hP.nil)
      | success len nodes => exact .pure (hnodes _ hP.nil)
  | condition one =>
      refine (hsub one (by simp [Kind.subs]) start).bind fun outcome houtcome => ?_
      cases outcome with
      | failure => exact .pure (hnodes _ hP.nil)
      | success len nodes => exact .pure (hnodes _ houtcome)
  | log severity message guard =>
      -- An entry is all that a log adds, and it is a leaf of its own rule.
      have hover (guarded : Outcome) :
          (entryOver g id severity message start guarded : Run Outcome).Meets inv bad Q := by
        cases guarded with
        | failure => exact .pure (hnodes _ hP.nil)
        | success len nodes =>
            rw [entryOver]
            split
            · rename_i hseverity
              exact .throw (hfatal message guard (by rw [hseverity]) _)
            · exact (hinv.meets_record (by simp)).bind fun _ _ =>
                .pure (hentry (Graph.isLog_of_kind? hkind) _ _)
      cases guard with
      | none => exact hover _
      | some guard =>
          exact (hsub guard (by simp [Kind.subs]) start).bind fun guarded _ => hover guarded
  | breakpoint subject =>
      refine (hinv.meets_record (by simp)).bind fun _ _ =>
        (hsub subject (by simp [Kind.subs]) start).bind fun outcome houtcome => ?_
      exact (hinv.meets_record (by simp)).bind fun _ _ => .pure (hnodes _ houtcome)
  | evaluation alternatives => exact hchain alternatives rfl
  | reference target subject =>
      cases subject with
      | none => exact .throw (hpending target rfl)
      | some subject =>
          exact (hsub subject (by simp [Kind.subs]) start).mono (fun _ h => h) hnodes
  | _ => cases hnode

/-- A rule keeps to what the rules inside keep to, unless it stops the match itself. -/
theorem kind_passes (hinv : Trace.Steady inv) (hP : Node.Additive P) {id : RuleId} {kind : Kind α}
    (hkind : g.kind? id = some kind)
    (hpending : ∀ name, kind = .reference name none → bad (.unresolvedReference name))
    (hfatal : ∀ message guard, kind = .log .fatal message guard → ∀ span, bad (.fatal message span))
    (hchain : ∀ alternatives, kind = .evaluation alternatives →
      (chain sub (ChainForm.ofEvaluation g id alternatives) g input.size start).Meets inv bad
        (·.MadeOf g P id start))
    (hsub : ∀ one ∈ kind.subs, ∀ pos, (sub one pos).Meets inv bad fun outcome => P outcome.nodes) :
    (Match.kind g input sub id kind start).Meets inv bad (·.MadeOf g P id start) := by
  cases hnode : kind.leavesNode with
  | false =>
      exact kind_passes_on hinv hP hkind hnode hpending hfatal hchain hsub (fun _ => .of_nodes)
        fun hlog _ span => .inr (.inr ⟨hlog, span, rfl⟩)
  | true =>
      have hmiss (pos : Nat) : (Run.miss pos).Meets inv bad (·.MadeOf g P id start) :=
        .miss trivial fun _ => hinv.miss
      -- Every kind that leaves a node misses, or puts a node around what its calls have found.
      have hleaf (len : Nat) : (pure ((Outcome.success len []).under id start) : Run Outcome).Meets
          inv bad (·.MadeOf g P id start) := .pure (.under hP.nil)
      have helement (test : α → Bool) :
          (element input id test start : Run Outcome).Meets inv bad (·.MadeOf g P id start) := by
        rw [element]
        split
        · exact hleaf 1
        · exact hmiss start
      have hunder {run : Run Outcome} (hrun : run.Meets inv bad fun outcome => P outcome.nodes) :
          ((·.under id start) <$> run).Meets inv bad (·.MadeOf g P id start) :=
        hrun.map fun _ => .under
      cases kind with
      | any min max =>
          simp only [Match.kind, anyOf]
          split
          · exact hmiss input.size
          · exact hleaf _
      | single value => exact helement _
      | set values => exact helement _
      | range lo hi => exact helement _
      | literal values =>
          simp only [Match.kind, allOf]
          split
          · exact hleaf _
          · exact hmiss _
      | sequence subs => exact hunder (inSequence_passes hP hsub 0 #[] hP.nil)
      | oneOf subs => exact hunder (firstOf_passes hP hsub)
      | count one min max =>
          exact hunder (repeated_passes hinv hP (hsub one (by simp [Kind.subs])) _ min max _ 0 0 #[]
            hP.nil)
      | skip stop stopBefore failOnEnd =>
          exact hunder (skipTo_passes hP (hsub stop (by simp [Kind.subs])) stopBefore failOnEnd _ 0)
      | _ => cases hnode

/-- A rule of a primitive graph keeps to what the rules inside keep to. -/
theorem primitive_passes (hinv : Trace.Steady inv) (hP : Node.Additive P) {id : RuleId}
    {kind : Kind α} (hkind : g.kind? id = some kind) (hprimitive : kind.isPrimitive)
    (hsub : ∀ one ∈ kind.subs, ∀ pos, (sub one pos).Meets inv bad fun outcome => P outcome.nodes) :
    (Match.kind g input sub id kind start).Meets inv bad (·.MadeOf g P id start) := by
  refine kind_passes hinv hP hkind ?_ ?_ ?_ hsub
  · rintro name rfl
    cases hprimitive
  · rintro message guard rfl
    cases hprimitive
  · rintro alternatives rfl
    cases hprimitive

end Match

end RuleScript
