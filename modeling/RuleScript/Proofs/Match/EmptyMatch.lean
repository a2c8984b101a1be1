import Mathlib.Logic.Relation
import RuleScript.Graph.Resolve
import RuleScript.Proofs.Graph.Nullable
import RuleScript.Proofs.Match.Agreement
import RuleScript.Proofs.Match.Folding
import RuleScript.Proofs.Match.Loops

/-!
# Matches that consume nothing

`Graph.validate` is meant to keep a repetition without bound from coming to a match that consumes
nothing.  It asks the table of nullable rules, so it does what it is meant to do as far as a rule
that the table does not mark never matches without consuming.

For all kinds of rules but one the table errs on the safe side.  The exception is an evaluation:
the table marks it if it marks one of the alternatives, but a match never tries an alternative
that is an operator as a whole.  It tries the left operand alone, which may match nothing where
the whole does not.  `Graph.OperandsCovered` says of an evaluation that the table marks it on
account of such an operand as well.

`Match.kind_emptyOnlyIf` is the step for one rule, with any way `N` of telling which rules may match
nothing.  It asks nothing of repetitions unless the trace is to tell of them (`Trace.Lasting`), so
that a table is right about rules even in a graph that repeats what it should not.
-/

namespace RuleScript

/-! ## Reachable rules -/

namespace Graph

variable {α : Type} {g : Graph α}

/-- Whether rules refer from one to the other, in any number of steps. -/
def Reaches (g : Graph α) : RuleId → RuleId → Prop :=
  Relation.ReflTransGen fun id sub => sub ∈ g.subs id

/-- Whether a rule is the root or is reached from it. -/
def FromRoot (g : Graph α) (id : RuleId) : Prop := ∃ root ∈ g.root, g.Reaches root id

theorem FromRoot.trans {id sub : RuleId} (h : g.FromRoot id) (hsub : g.Reaches id sub) :
    g.FromRoot sub := by
  obtain ⟨root, hroot, hreaches⟩ := h
  exact ⟨root, hroot, hreaches.trans hsub⟩

theorem reaches_of_mem_subs {id sub : RuleId} {kind : Kind α} (hkind : g.kind? id = some kind)
    (hsub : sub ∈ kind.subs) : g.Reaches id sub := by
  obtain ⟨rule, hrule, rfl⟩ := Option.map_eq_some_iff.mp hkind
  refine Relation.ReflTransGen.single ?_
  rw [subs, hrule]
  exact hsub

/-- An alternative leads to all three parts of the operator it contributes. -/
theorem reaches_of_operatorFrom? {steps : Nat} {identity : Option RuleId} {current : RuleId}
    {operator : BinaryOperator} (h : g.operatorFrom? steps identity current = some operator) :
    g.Reaches current operator.left ∧ g.Reaches current operator.operator ∧
      g.Reaches current operator.right := by
  induction steps generalizing identity current with
  | zero => cases h
  | succ steps ih =>
      -- What is reached behind a wrapper is reached from the wrapper as well.
      have hpass {next : RuleId} (hnext : g.Reaches current next)
          (hparts : g.Reaches next operator.left ∧ g.Reaches next operator.operator ∧
            g.Reaches next operator.right) :
          g.Reaches current operator.left ∧ g.Reaches current operator.operator ∧
            g.Reaches current operator.right :=
        ⟨hnext.trans hparts.1, hnext.trans hparts.2.1, hnext.trans hparts.2.2⟩
      rw [operatorFrom?] at h
      split at h
      · rename_i target next hkind
        exact hpass (reaches_of_mem_subs hkind (by simp [Kind.subs])) (ih h)
      · rename_i next hkind
        exact hpass (reaches_of_mem_subs hkind (by simp [Kind.subs])) (ih h)
      · rename_i left op right hkind
        cases h
        exact ⟨reaches_of_mem_subs hkind (by simp [operatorOf, Kind.subs]),
          reaches_of_mem_subs hkind (by simp [operatorOf, Kind.subs]),
          reaches_of_mem_subs hkind (by simp [operatorOf, Kind.subs])⟩
      · cases h

section Chains

variable {evaluation : RuleId} {alternatives : List RuleId}
variable (hkind : g.kind? evaluation = some (.evaluation alternatives))

include hkind

theorem reaches_of_mem_operands {id : RuleId}
    (h : id ∈ (Match.ChainForm.ofEvaluation g evaluation alternatives).operands) :
    g.Reaches evaluation id := by
  simp only [Match.ChainForm.ofEvaluation, List.map_map, List.mem_filter, List.mem_map,
    Function.comp_apply] at h
  obtain ⟨⟨alternative, hmem, rfl⟩, -⟩ := h
  have halternative := reaches_of_mem_subs hkind hmem
  rw [classify]
  split
  · rename_i operator hoperator
    exact halternative.trans (reaches_of_operatorFrom? hoperator).1
  · exact halternative

theorem reaches_of_mem_operators {operator : BinaryOperator}
    (h : operator ∈ (Match.ChainForm.ofEvaluation g evaluation alternatives).operators) :
    g.Reaches evaluation operator.operator ∧ g.Reaches evaluation operator.right := by
  obtain ⟨alternative, hmem, hfound⟩ := Match.exists_operatorFrom?_of_mem_operators h
  have halternative := reaches_of_mem_subs hkind hmem
  obtain ⟨-, hoperator, hright⟩ := reaches_of_operatorFrom? hfound
  exact ⟨halternative.trans hoperator, halternative.trans hright⟩

end Chains

/-- The rules that the operands of an evaluation come from; none for a rule of another kind. -/
def operandsOf (g : Graph α) (id : RuleId) : List RuleId :=
  match g.kind? id with
  | some (.evaluation alternatives) => (Match.ChainForm.ofEvaluation g id alternatives).operands
  | _ => []

/-- Whether the table marks an evaluation if it marks a rule that its operands come from. -/
def OperandsCovered (g : Graph α) (id : RuleId) : Prop :=
  ∀ operand ∈ g.operandsOf id, marks g.nullableTable operand → marks g.nullableTable id

instance (g : Graph α) (id : RuleId) : Decidable (g.OperandsCovered id) :=
  inferInstanceAs (Decidable (∀ operand ∈ g.operandsOf id, _ → _))

end Graph

theorem Graph.operandsCovered_of_ids {α : Type} {g : Graph α}
    (h : ∀ id ∈ g.ids, g.OperandsCovered id) (id : RuleId) : g.OperandsCovered id := by
  by_cases hid : id ∈ g.ids
  · exact h id hid
  · -- There is no such rule, so nothing is an operand of it.
    have hout : g.size ≤ id.index := Nat.not_lt.mp fun hlt => hid (mem_ids.mpr hlt)
    have hkind : g.kind? id = none := kind?_eq_none (Array.getElem?_eq_none hout)
    intro operand hmem
    simp [operandsOf, hkind] at hmem

/-! ## Quiet runs -/

/-- Whether no repetition has come to a match that consumes nothing. -/
def Trace.Quiet (trace : Trace) : Prop :=
  ∀ label pos, Event.emptyRepetition label pos ∉ trace.journal

/-- Only a match that satisfies `p` succeeds without consuming anything. -/
def Outcome.EmptyOnlyIf (p : Prop) : Outcome → Prop
  | .failure => True
  | .success len _ => len = 0 → p

/-- A run in which no repetition comes to a match that consumes nothing. -/
def Run.StaysQuiet {β : Type} (run : Run β) (ok : β → Prop) : Prop :=
  run.Meets Trace.Quiet (fun _ => True) ok

/-- A run that keeps a property of traces, whatever it is aborted for. -/
def Run.Upholds {β : Type} (run : Run β) (inv : Trace → Prop) (ok : β → Prop) : Prop :=
  run.Meets inv (fun _ => True) ok

/-- A property of traces that lasts, though perhaps not when a repetition comes to a match of
nothing. -/
structure Trace.Lasting (inv : Trace → Prop) : Prop where
  record : ∀ {trace : Trace} {event : Event}, (∀ label pos, event ≠ .emptyRepetition label pos) →
    inv trace → inv { trace with journal := trace.journal.push event }
  miss : ∀ {trace : Trace} {pos : Nat}, inv trace →
    inv { trace with farthest := max trace.farthest pos }

/-- A property of traces that lasts when a repetition comes to a match of nothing. -/
def Trace.AllowsEmpty (inv : Trace → Prop) : Prop :=
  ∀ trace label pos, inv trace →
    inv { trace with journal := trace.journal.push (.emptyRepetition label pos) }

theorem Trace.lasting_quiet : Trace.Lasting Trace.Quiet where
  record hevent htrace label pos hmem := (Array.mem_push.mp hmem).elim (htrace label pos)
    fun heq => hevent label pos heq.symm
  miss htrace := htrace

namespace Outcome.EmptyOnlyIf

variable {p q : Prop} {outcome : Outcome}

theorem mono (h : outcome.EmptyOnlyIf p) (hpq : p → q) : outcome.EmptyOnlyIf q := by
  cases outcome with
  | failure => trivial
  | success len nodes => exact fun hlen => hpq (h hlen)

theorem of_true (h : p) : outcome.EmptyOnlyIf p := by
  cases outcome with
  | failure => trivial
  | success len nodes => exact fun _ => h

theorem under (h : outcome.EmptyOnlyIf p) (id : RuleId) (start : Nat) :
    (outcome.under id start).EmptyOnlyIf p := by
  cases outcome with
  | failure => trivial
  | success len nodes => exact h

theorem mapNodes (h : outcome.EmptyOnlyIf p) (f : List Node → List Node) :
    (outcome.mapNodes f).EmptyOnlyIf p := by
  cases outcome with
  | failure => trivial
  | success len nodes => exact h

end Outcome.EmptyOnlyIf

namespace Match

variable {p : Prop} {inv : Trace → Prop}

theorem record_upholds (hinv : Trace.Lasting inv) {event : Event}
    (h : ∀ label pos, event ≠ .emptyRepetition label pos) :
    (Run.record event).Upholds inv fun _ => True :=
  Run.Meets.record trivial fun _ => hinv.record h

theorem miss_upholds (hinv : Trace.Lasting inv) (pos : Nat) :
    (Run.miss pos).Upholds inv (·.EmptyOnlyIf p) :=
  Run.Meets.miss trivial fun _ => hinv.miss

section Combinations

variable {sub : RuleId → Nat → Run Outcome} {N : RuleId → Bool} {start : Nat}

theorem inSequence_emptyOnlyIf {ids : List RuleId}
    (hsub : ∀ id ∈ ids, ∀ pos, (sub id pos).Upholds inv (·.EmptyOnlyIf (N id)))
    (len : Nat) (nodes : Array Node) :
    (inSequence sub start ids len nodes).Upholds inv
      (·.EmptyOnlyIf (len = 0 ∧ ids.all N)) := by
  induction ids generalizing len nodes with
  | nil => exact .pure fun hlen => ⟨hlen, rfl⟩
  | cons id ids ih =>
      refine inSequence_cons_meets (hsub id List.mem_cons_self _) (fun _ => trivial)
        fun more found hid => ?_
      have hrest := ih (fun id hid => hsub id (List.mem_cons_of_mem _ hid)) (len + more)
        (nodes ++ found)
      refine hrest.mono (fun _ _ => trivial) fun outcome hempty => hempty.mono ?_
      rintro ⟨hlen, hids⟩
      have hmore : more = 0 := by omega
      exact ⟨by omega, by rw [List.all_cons, hid hmore, hids]; rfl⟩

theorem firstOf_emptyOnlyIf {ids : List RuleId}
    (hsub : ∀ id ∈ ids, ∀ pos, (sub id pos).Upholds inv (·.EmptyOnlyIf (N id))) :
    (firstOf sub start ids).Upholds inv (·.EmptyOnlyIf (ids.any N)) := by
  refine firstOf_meets (fun id hid => hsub id hid start) trivial fun id hid len nodes hempty => ?_
  exact hempty.mono fun hN => List.any_eq_true.mpr ⟨id, hid, hN⟩

/-- A repetition consumes nothing if it need not match at all, or else if the rule inside consumes
nothing; a repetition without bound had better be of a rule that consumes something, if the trace is
not to tell of it. -/
theorem repeated_emptyOnlyIf {label : String} {id : RuleId} {min max : Nat}
    (hsub : ∀ pos, (sub id pos).Upholds inv (·.EmptyOnlyIf (N id)))
    (hmax : max = 0 → N id → Trace.AllowsEmpty inv) (room reps len : Nat) (nodes : Array Node)
    (hlen : len = 0 → reps = 0) :
    (repeated sub label id min max start room reps len nodes).Upholds inv
      (·.EmptyOnlyIf (min = 0 ∨ N id)) := by
  -- A match of nothing ends the loop, so none is counted as long as nothing is consumed.
  have henough (reps len : Nat) (nodes : Array Node) (hlen : len = 0 → reps = 0) :
      (enough min reps len nodes).EmptyOnlyIf (min = 0 ∨ N id) := by
    rw [enough]
    split
    · trivial
    · intro hzero
      have := hlen hzero
      omega
  have hround (again : Nat → Nat → Array Node → Run Outcome) (reps len : Nat)
      (nodes : Array Node) (hlen : len = 0 → reps = 0)
      (hagain : ∀ reps len nodes, (len = 0 → reps = 0) →
        (again reps len nodes).Upholds inv (·.EmptyOnlyIf (min = 0 ∨ N id))) :
      (repetition sub label id min max start again reps len nodes).Upholds inv
        (·.EmptyOnlyIf (min = 0 ∨ N id)) := by
    refine repetition_meets (hsub _) ?_ ?_ ?_ ?_ ?_
    · exact fun _ _ => henough reps len nodes hlen
    · exact fun _ _ => henough reps len nodes hlen
    · intro found hzero hempty
      have hrecord : (Run.record (.emptyRepetition label (start + len))).Upholds inv fun _ => True :=
        .record trivial fun trace => hmax hzero (hempty rfl) trace label _
      exact hrecord.bind fun _ _ => .pure trivial
    · exact fun found _ _ hempty => Outcome.EmptyOnlyIf.of_true (.inr (hempty rfl))
    · exact fun more found _ hmore _ => hagain _ _ _ (by omega)
  induction room generalizing reps len nodes with
  | zero => exact hround _ _ _ _ hlen fun reps len nodes hlen => .pure (henough reps len nodes hlen)
  | succ room ih => exact hround _ _ _ _ hlen ih

theorem skipTo_emptyOnlyIf {stop : RuleId} {stopBefore failOnEnd : Bool}
    (hsub : ∀ pos, (sub stop pos).Upholds inv (·.EmptyOnlyIf (N stop))) (room passed : Nat) :
    (skipTo sub stop stopBefore failOnEnd start room passed).Upholds inv
      (·.EmptyOnlyIf (stopBefore || !failOnEnd || N stop)) := by
  -- A skip is empty only where it passes over nothing: in front of its stop, past an empty one, or at
  -- the end.
  have hround (passed : Nat) (beyond : Run Outcome)
      (hbeyond : beyond.Upholds inv (·.EmptyOnlyIf (stopBefore || !failOnEnd || N stop))) :
      (stopOr sub stop stopBefore start passed beyond).Upholds inv
        (·.EmptyOnlyIf (stopBefore || !failOnEnd || N stop)) := by
    refine stopOr_meets (hsub _) (fun len nodes hempty => ?_) fun _ => hbeyond
    cases stopBefore with
    | true => exact .of_true rfl
    | false =>
        intro hlen
        have hstop := hempty (by omega)
        simp [hstop]
  induction room generalizing passed with
  | zero =>
      refine hround passed _ (.pure ?_)
      cases failOnEnd with
      | true => trivial
      | false => exact .of_true (by simp)
  | succ room ih => exact hround passed _ (ih (passed + 1))

/-! ## Operator chains -/

variable {form : ChainForm}

theorem rightOperand_upholds {operator : BinaryOperator} {pos : Nat}
    (hoperands : ∀ id ∈ form.operands, ∀ pos, (sub id pos).Upholds inv (·.EmptyOnlyIf (N id)))
    (hright : ∀ pos, (sub operator.right pos).Upholds inv (·.EmptyOnlyIf (N operator.right))) :
    (rightOperand sub form operator pos).Upholds inv fun _ => True := by
  rw [rightOperand]
  split
  · exact (firstOf_emptyOnlyIf hoperands).mono (fun _ h => h) fun _ _ => trivial
  · exact (hright pos).mono (fun _ h => h) fun _ _ => trivial

/-- A chain consumes nothing only if its first operand does. -/
theorem chain_emptyOnlyIf {α : Type} {g : Graph α} {size : Nat}
    (hoperands : ∀ id ∈ form.operands, ∀ pos, (sub id pos).Upholds inv (·.EmptyOnlyIf (N id)))
    (hoperators : ∀ operator ∈ form.operators,
      (∀ pos, (sub operator.operator pos).Upholds inv (·.EmptyOnlyIf (N operator.operator))) ∧
        ∀ pos, (sub operator.right pos).Upholds inv (·.EmptyOnlyIf (N operator.right))) :
    (chain sub form g size start).Upholds inv (·.EmptyOnlyIf (form.operands.any N)) := by
  refine (firstOf_emptyOnlyIf hoperands).bind fun outcome houtcome => ?_
  cases outcome with
  | failure => exact .pure trivial
  | success len nodes =>
      have hnext (pos : Nat) : (nextLink sub form pos form.operators).Upholds inv
          fun link? => ∀ link ∈ link?, True ∧ True :=
        nextLink_meets (fun operator hmem => (hoperators operator hmem).1 pos)
          (fun operator hmem _ _ _ => rightOperand_upholds hoperands (hoperators operator hmem).2)
          fun _ _ _ _ _ _ _ _ _ => ⟨trivial, trivial⟩
      refine (extend_meets (fun _ => True) (fun pos _ => hnext pos) _ _ #[] trivial
        fun _ _ => trivial).bind fun links _ => .pure fun hempty => houtcome ?_
      -- The links do not matter: no reading of the chain ends before its first operand does.
      have hstop := ChainTree.stop_le_stop_fold g ⟨⟨start, len⟩, nodes⟩ links.toList
      simp only [Span.stop] at hstop hempty
      omega

end Combinations

/-! ## Rules -/

variable {α : Type} {g : Graph α} {sub : RuleId → Nat → Run Outcome} {N : RuleId → Bool}

theorem entryOver_upholds (hinv : Trace.Lasting inv) {id : RuleId} {severity : Severity}
    {message : String} {start : Nat} {guarded : Outcome} :
    (entryOver g id severity message start guarded : Run Outcome).Upholds inv fun _ => True := by
  cases guarded with
  | failure => exact .pure trivial
  | success len nodes =>
      rw [entryOver]
      split
      · exact .throw trivial
      · exact (record_upholds hinv (by simp)).bind fun _ _ => .pure trivial

variable {input : Array α} {id one : RuleId} {start : Nat}

theorem anyOf_emptyOnlyIf (hinv : Trace.Lasting inv) {min max : Nat} :
    (anyOf input id min max start : Run Outcome).Upholds inv (·.EmptyOnlyIf (min = 0)) := by
  rw [anyOf]
  split
  · exact miss_upholds hinv _
  · rename_i hmin
    refine .pure fun hlen => ?_
    split at hlen
    · omega
    · have := Nat.min_eq_zero_iff.mp hlen
      omega

theorem element_emptyOnlyIf (hinv : Trace.Lasting inv) {test : α → Bool} :
    (element input id test start : Run Outcome).Upholds inv (·.EmptyOnlyIf False) := by
  rw [element]
  split
  · exact .pure fun hlen => absurd hlen Nat.one_ne_zero
  · exact miss_upholds hinv _

variable [Element α]

theorem allOf_emptyOnlyIf (hinv : Trace.Lasting inv) {values : List α} :
    (allOf input id values start : Run Outcome).Upholds inv (·.EmptyOnlyIf (values = [])) := by
  rw [allOf]
  split
  · rename_i hall
    refine .pure fun hlen => ?_
    rw [hlen] at hall
    exact List.eq_nil_of_length_eq_zero hall.symm
  · exact miss_upholds hinv _

theorem not_upholds {p : Prop} (hone : (sub one start).Upholds inv (·.EmptyOnlyIf p)) :
    (Match.kind g input sub id (.not one) start).Upholds inv fun _ => True := by
  refine hone.bind fun outcome _ => ?_
  cases outcome with
  | failure => exact .pure trivial
  | success len nodes => exact .pure trivial

theorem condition_upholds {p : Prop} (hone : (sub one start).Upholds inv (·.EmptyOnlyIf p)) :
    (Match.kind g input sub id (.condition one) start).Upholds inv fun _ => True := by
  refine hone.bind fun outcome _ => ?_
  cases outcome with
  | failure => exact .pure trivial
  | success len nodes => exact .pure trivial

theorem log_upholds (hinv : Trace.Lasting inv) {severity : Severity} {message : String}
    {guard : Option RuleId}
    (hguard : ∀ one ∈ guard, (sub one start).Upholds inv (·.EmptyOnlyIf (N one))) :
    (Match.kind g input sub id (.log severity message guard) start).Upholds inv fun _ => True := by
  cases guard with
  | none => exact entryOver_upholds hinv
  | some guard => exact (hguard guard rfl).bind fun guarded _ => entryOver_upholds hinv

theorem breakpoint_emptyOnlyIf (hinv : Trace.Lasting inv) {p : Prop}
    (hone : (sub one start).Upholds inv (·.EmptyOnlyIf p)) :
    (Match.kind g input sub id (.breakpoint one) start).Upholds inv (·.EmptyOnlyIf p) := by
  refine (record_upholds hinv (by simp)).bind fun _ _ => hone.bind fun outcome hempty => ?_
  exact (record_upholds hinv (by simp)).bind fun _ _ => .pure hempty

/-- An evaluation consumes nothing only if one of its operands does. -/
theorem evaluation_emptyOnlyIf {alternatives : List RuleId}
    (hkind : g.kind? id = some (.evaluation alternatives))
    (hsub : ∀ sub', g.Reaches id sub' →
      ∀ pos, (sub sub' pos).Upholds inv (·.EmptyOnlyIf (N sub'))) :
    (Match.kind g input sub id (.evaluation alternatives) start).Upholds inv
      (·.EmptyOnlyIf ((g.operandsOf id).any N)) := by
  have hparts : g.operandsOf id = (ChainForm.ofEvaluation g id alternatives).operands := by
    simp only [Graph.operandsOf, hkind]
  rw [hparts]
  refine chain_emptyOnlyIf ?_ ?_
  · exact fun operand hmem => hsub operand (Graph.reaches_of_mem_operands hkind hmem)
  · intro operator hmem
    obtain ⟨hoperator, hright⟩ := Graph.reaches_of_mem_operators hkind hmem
    exact ⟨hsub operator.operator hoperator, hsub operator.right hright⟩

/-- A rule upholds what the rules inside uphold, and consumes nothing only if its kind says so or one
of its operands does. -/
theorem kind_emptyOnlyIf (hinv : Trace.Lasting inv) {id : RuleId} {kind : Kind α} (start : Nat)
    (hkind : g.kind? id = some kind)
    (hsub : ∀ sub', g.Reaches id sub' →
      ∀ pos, (sub sub' pos).Upholds inv (·.EmptyOnlyIf (N sub')))
    (hrepeat : ∀ one min, kind = .count one min 0 → N one → Trace.AllowsEmpty inv) :
    (Match.kind g input sub id kind start).Upholds inv
      (·.EmptyOnlyIf (kind.isNullable N ∨ (g.operandsOf id).any N)) := by
  have hsubs (sub' : RuleId) (hmem : sub' ∈ kind.subs) (pos : Nat) :=
    hsub sub' (Graph.reaches_of_mem_subs hkind hmem) pos
  have hfrom {p : Prop} {run : Run Outcome} (h : run.Upholds inv (·.EmptyOnlyIf p))
      (hp : p → kind.isNullable N) :
      run.Upholds inv (·.EmptyOnlyIf (kind.isNullable N ∨ (g.operandsOf id).any N)) :=
    h.mono (fun _ h => h) fun _ hempty => hempty.mono fun h => .inl (hp h)
  -- What a rule of a kind that is always nullable consumes does not matter.
  have hany {run : Run Outcome} (h : run.Upholds inv fun _ => True) (hnullable : kind.isNullable N) :
      run.Upholds inv (·.EmptyOnlyIf (kind.isNullable N ∨ (g.operandsOf id).any N)) :=
    h.mono (fun _ h => h) fun _ _ => .of_true (.inl hnullable)
  cases kind with
  | any min max => exact hfrom (anyOf_emptyOnlyIf hinv) beq_iff_eq.mpr
  | single value => exact hfrom (element_emptyOnlyIf hinv) False.elim
  | set values => exact hfrom (element_emptyOnlyIf hinv) False.elim
  | range lo hi => exact hfrom (element_emptyOnlyIf hinv) False.elim
  | literal values => exact hfrom (allOf_emptyOnlyIf hinv) List.isEmpty_iff.mpr
  | sequence subs =>
      exact (inSequence_emptyOnlyIf hsubs 0 #[]).map fun outcome hempty =>
        (hempty.mono fun hall => .inl hall.2).under id start
  | oneOf subs =>
      exact (firstOf_emptyOnlyIf hsubs).map fun outcome hempty => (hempty.mono .inl).under id start
  | count one min max =>
      have hmax : max = 0 → N one → Trace.AllowsEmpty inv := by
        rintro rfl
        exact hrepeat one min rfl
      have hone := hsubs one (by simp [Kind.subs])
      refine (repeated_emptyOnlyIf hone hmax _ 0 0 #[] fun _ => rfl).map
        fun outcome hempty => (hempty.mono fun h => .inl ?_).under id start
      simpa [Kind.isNullable] using h
  | not one => exact hany (not_upholds (hsubs one (by simp [Kind.subs]) start)) rfl
  | condition one => exact hany (condition_upholds (hsubs one (by simp [Kind.subs]) start)) rfl
  | skip stop stopBefore failOnEnd =>
      exact (skipTo_emptyOnlyIf (hsubs stop (by simp [Kind.subs])) _ 0).map fun outcome hempty =>
        (hempty.mono .inl).under id start
  | log severity message guard =>
      exact hany (log_upholds hinv fun one hone => hsubs one (Option.mem_toList.mpr hone) start) rfl
  | breakpoint subject =>
      exact hfrom (breakpoint_emptyOnlyIf hinv (hsubs subject (by simp [Kind.subs]) start)) fun h => h
  | evaluation alternatives =>
      exact (evaluation_emptyOnlyIf hkind hsub).mono (fun _ h => h) fun _ hempty => hempty.mono .inr
  | reference target subject =>
      cases subject with
      | none => exact .throw trivial
      | some subject =>
          refine hfrom (hsubs subject (by simp [Kind.subs]) start) fun hN => ?_
          simpa [Kind.isNullable] using hN

end Match

/-! ## Matches of reachable rules -/

namespace Graph

variable {α : Type} [Element α] {g : Graph α}

/-- Whether some match of a rule succeeds without consuming anything. -/
def MatchesEmpty (g : Graph α) (id : RuleId) : Prop :=
  ∃ input limit start nodes, (g.matchAt input limit id start).1 = .ok (.success 0 nodes)

/-- Whether no repetition comes to a match that consumes nothing, whatever rule in reach of the
root is matched. -/
def RepeatsSafely (g : Graph α) : Prop :=
  ∀ id, g.FromRoot id → ∀ input limit start, (g.matchAt input limit id start).2.Quiet

variable {input : Array α} {limit depth start : Nat} {id : RuleId}

/-- What a rule comes to inside of a match, it comes to by itself as well. -/
theorem matchesEmpty_of_result {trace after : Trace} {nodes : List Node}
    (h : (g.runWithin input limit depth id start).result trace = (.ok (.success 0 nodes), after)) :
    g.MatchesEmpty id := by
  obtain ⟨result, more, hrun⟩ := g.runWithin_uniform input limit depth id start
  have hresult : result = .ok (.success 0 nodes) := by
    rw [hrun trace] at h
    exact congrArg Prod.fst h
  have hfresh : (g.runWithin input limit depth id start).result {} =
      (.ok (.success 0 nodes), Trace.append {} more) := by rw [hrun, hresult]
  have hdeeper : (g.runWithin input depth depth id start).result {} =
      (.ok (.success 0 nodes), Trace.append {} more) :=
    (runWithin_deeper (by simp [hfresh]) depth 0).trans hfresh
  refine ⟨input, depth, start, nodes, ?_⟩
  rw [matchAt, run, hdeeper]

theorem matchesEmpty_upholds {inv : Trace → Prop} {p : Prop}
    (h : (g.runWithin input limit depth id start).Upholds inv (·.EmptyOnlyIf p)) :
    (g.runWithin input limit depth id start).Upholds inv
      (·.EmptyOnlyIf (p ∧ g.MatchesEmpty id)) := by
  intro trace htrace
  obtain ⟨hinv, hend⟩ := h trace htrace
  refine ⟨hinv, ?_⟩
  rcases hresult : (g.runWithin input limit depth id start).result trace with
    ⟨_ | _ | ⟨len, nodes⟩, after⟩
  · trivial
  · trivial
  · rintro rfl
    rw [hresult] at hend
    exact ⟨hend rfl, matchesEmpty_of_result hresult⟩

/-- In a set of rules that is closed under references, a rule consumes nothing only if `N` says so of
it.  `N` must be true of a rule that matches nothing, if its kind says so or one of its operands may.
If it is true of a rule repeated without bound, the property of traces has to bear that. -/
theorem runWithin_emptyOnlyIf {inv : Trace → Prop} {N : RuleId → Bool} (hinv : Trace.Lasting inv)
    (known : RuleId → Prop) (hknown : ∀ id sub, known id → g.Reaches id sub → known sub)
    (hrepeat : ∀ id one min, known id → g.kind? id = some (.count one min 0) → N one →
      Trace.AllowsEmpty inv)
    (hN : ∀ id kind, known id → g.kind? id = some kind →
      kind.isNullable N ∨ (g.operandsOf id).any N → g.MatchesEmpty id → N id)
    (hid : known id) :
    (g.runWithin input limit depth id start).Upholds inv (·.EmptyOnlyIf (N id)) := by
  refine runWithin_induction (P := fun id _ run => known id →
    run.Upholds inv (·.EmptyOnlyIf (N id))) ?_ ?_ ?_ depth id start hid
  · intro id start _ _
    exact (Match.record_upholds hinv (by simp)).bind fun _ _ => .pure trivial
  · intro id start _
    exact .throw trivial
  · intro depth ih id rule hrule start hid
    have hkind := kind?_eq_some hrule
    have hend : (Match.rule g input (g.runWithin input limit depth) id rule start).Upholds inv
        (·.EmptyOnlyIf (rule.kind.isNullable N ∨ (g.operandsOf id).any N)) := by
      refine (Match.kind_emptyOnlyIf hinv start hkind ?_ ?_).map
        fun outcome hempty => hempty.mapNodes _
      · exact fun sub hsub pos => ih sub pos (hknown id sub hid hsub)
      · exact fun one min hcount => hrepeat id one min hid (hkind.trans (by rw [hcount]))
    -- `hN` asks for a match of its own, which the rule has as soon as it matches nothing here.
    rw [← runWithin_succ hrule] at hend ⊢
    exact (matchesEmpty_upholds hend).mono (fun _ h => h) fun outcome hempty =>
      hempty.mono fun h => hN id rule.kind hid hkind h.1 h.2

/-- Matching stays quiet from a set of rules that is closed under references, if no rule in it
repeats without bound what may match nothing.  `N` tells which rules may match nothing: it must be
true of a rule that does, if its kind says so or one of its operands may. -/
theorem runWithin_quiet {N : RuleId → Bool} (known : RuleId → Prop)
    (hknown : ∀ id sub, known id → g.Reaches id sub → known sub)
    (hrepeat : ∀ id one min, known id → g.kind? id = some (.count one min 0) → N one = false)
    (hN : ∀ id kind, known id → g.kind? id = some kind →
      kind.isNullable N ∨ (g.operandsOf id).any N → g.MatchesEmpty id → N id)
    (hid : known id) :
    (g.runWithin input limit depth id start).StaysQuiet (·.EmptyOnlyIf (N id)) := by
  refine runWithin_emptyOnlyIf Trace.lasting_quiet known hknown ?_ hN hid
  intro id one min hid hkind hone
  rw [hrepeat id one min hid hkind] at hone
  cases hone

theorem quiet_of_staysQuiet {ok : Outcome → Prop}
    (h : (g.runWithin input limit limit id start).StaysQuiet ok) :
    (g.matchAt input limit id start).2.Quiet :=
  (h {} fun _ _ hmem => by simp at hmem).1

/-- A repetition without bound over a rule that can match nothing comes to such a match. -/
theorem not_quiet_of_matchesEmpty {one : RuleId} {min : Nat}
    (hkind : g.kind? id = some (.count one min 0)) (hempty : g.MatchesEmpty one) :
    ∃ (input : Array α) (limit start : Nat), ¬ (g.matchAt input limit id start).2.Quiet := by
  obtain ⟨input, limit, start, nodes, hmatch⟩ := hempty
  obtain ⟨⟨name, pruning, precedence, kind⟩, hrule, rfl⟩ := Option.map_eq_some_iff.mp hkind
  refine ⟨input, limit + 1, start, fun hquiet => ?_⟩
  rcases hone : g.matchAt input limit one start with ⟨result, after⟩
  rw [hone] at hmatch
  cases hmatch
  -- Below the repetition there is as much depth as the match had, but under another limit.
  have hinside : (g.runWithin input (limit + 1) limit one (start + 0)).result {} =
      (.ok (.success 0 nodes), after) := by
    rw [matchAt, run] at hone
    exact (runWithin_deeper (by simp [hone]) (limit + 1) 0).trans hone
  have hrepeated (room : Nat) :
      (Match.repeated (g.runWithin input (limit + 1) limit) (g.label id) one min 0 start room 0 0
        #[]).result {} = (.ok .failure,
          { after with journal := after.journal.push (.emptyRepetition (g.label id) start) }) := by
    cases room with
    | zero =>
        rw [Match.repeated, Match.repetition, if_neg (by simp), Run.result_bind_ok hinside]
        rfl
    | succ room =>
        rw [Match.repeated, Match.repetition, if_neg (by simp), Run.result_bind_ok hinside]
        rfl
  have hcount : g.matchAt input (limit + 1) id start = (.ok .failure,
      { after with journal := after.journal.push (.emptyRepetition (g.label id) start) }) := by
    rw [matchAt, run, runWithin_succ hrule, Match.rule, Match.kind, map_eq_pure_bind,
      map_eq_pure_bind, bind_assoc, Run.result_bind_ok (hrepeated _)]
    rfl
  rw [hcount] at hquiet
  exact hquiet (g.label id) start (Array.mem_push_self)

/-- A match of a rule that matches nothing is foreseen by the table, as long as the operands of all
evaluations below it are covered. -/
theorem marks_of_matchesEmpty (hvalid : g.validate = .ok ())
    (hcovered : ∀ sub, g.Reaches id sub → g.OperandsCovered sub) (h : g.MatchesEmpty id) :
    marks g.nullableTable id := by
  obtain ⟨input, limit, start, nodes, hmatch⟩ := h
  have hquiet : (g.runWithin input limit limit id start).StaysQuiet
      (·.EmptyOnlyIf (marks g.nullableTable id)) := by
    -- Marked rules may match nothing, and the table is closed under what makes a rule nullable.
    refine runWithin_quiet (g.Reaches id) (fun _ _ h h' => h.trans h') ?_ ?_ .refl
    · exact fun _ one min _ hkind => not_marks_of_validate hvalid hkind
    · rintro sub kind hsub hkind (hnullable | hoperand) -
      · obtain ⟨rule, hrule, rfl⟩ := Option.map_eq_some_iff.mp hkind
        exact marks_of_isNullable hrule hnullable
      · obtain ⟨operand, hmem, hmarks⟩ := List.any_eq_true.mp hoperand
        exact hcovered sub hsub operand hmem hmarks
  have hend := (hquiet {} fun _ _ hmem => by simp at hmem).2
  rw [matchAt, run] at hmatch
  rw [hmatch] at hend
  exact hend rfl

/-- In a valid graph repetition is safe just if no rule repeated without bound can match nothing.
This is so if the operands of all evaluations below such rules are covered. -/
theorem repeatsSafely_iff_of_validate (hvalid : g.validate = .ok ()) :
    (g.RepeatsSafely ↔ ∀ id one min, g.FromRoot id → g.kind? id = some (.count one min 0) →
      ¬ g.MatchesEmpty one) ∧
    ((∀ id one min, g.FromRoot id → g.kind? id = some (.count one min 0) →
      ∀ sub, g.Reaches one sub → g.OperandsCovered sub) → g.RepeatsSafely) := by
  have hiff : g.RepeatsSafely ↔ ∀ id one min, g.FromRoot id →
      g.kind? id = some (.count one min 0) → ¬ g.MatchesEmpty one := by
    constructor
    · intro hsafe id one min hid hkind hempty
      obtain ⟨input, limit, start, hloud⟩ := not_quiet_of_matchesEmpty hkind hempty
      exact hloud (hsafe id hid input limit start)
    · intro hone id hid input limit start
      classical
      -- `N` need not be computed here: it is the set of the rules that do match nothing.
      refine quiet_of_staysQuiet (runWithin_quiet (N := fun id => decide (g.MatchesEmpty id))
        g.FromRoot (fun _ _ h h' => h.trans h') ?_ ?_ hid)
      · exact fun id one min hid hkind => decide_eq_false (hone id one min hid hkind)
      · exact fun id kind _ _ _ hempty => decide_eq_true hempty
  refine ⟨hiff, fun hcovered => hiff.mpr fun id one min hid hkind hempty => ?_⟩
  have hmarks := marks_of_matchesEmpty hvalid (hcovered id one min hid hkind) hempty
  rw [not_marks_of_validate hvalid hkind] at hmarks
  cases hmarks

/-- Statements, each a sum and a semicolon, where a sum may lack digits or be missing. -/
def statements : Graph Char where
  rules := #[.ofKind (.range '0' '9'), .ofKind (.optional ⟨0⟩), .ofKind (.single '+'),
    .ofKind (.sequence [⟨1⟩, ⟨2⟩, ⟨1⟩]), .ofKind (.evaluation [⟨3⟩, ⟨1⟩]), .ofKind (.single ';'),
    .ofKind (.sequence [⟨4⟩, ⟨5⟩]), .ofKind (.count ⟨6⟩ 0 0)]
  root := some ⟨7⟩

theorem statements_repeatsSafely : statements.validate = .ok () ∧ statements.RepeatsSafely := by
  have hnone : statements.nullableRepetition? = none := by decide +kernel
  have hvalid : statements.validate = .ok () := by rw [validate, hnone]
  have hcovered : ∀ id ∈ statements.ids, statements.OperandsCovered id := by decide +kernel
  exact ⟨hvalid, (repeatsSafely_iff_of_validate hvalid).2
    fun _ _ _ _ _ sub _ => operandsCovered_of_ids hcovered sub⟩

/-- Sums without operands, as many as there are. -/
def hollowSums : Graph Char where
  rules := #[.ofKind (.literal []), .ofKind (.single '+'), .ofKind (.sequence [⟨0⟩, ⟨1⟩, ⟨0⟩]),
    .ofKind (.evaluation [⟨2⟩]), .ofKind (.count ⟨3⟩ 0 0)]
  root := some ⟨4⟩

/-- The table does not mark the sum, since it holds a plus, yet a chain may end before that. -/
theorem hollowSums_not_repeatsSafely :
    hollowSums.resolve = (.ok (), hollowSums) ∧ hollowSums.validate = .ok () ∧
      ¬ hollowSums.RepeatsSafely := by
  refine ⟨by decide +kernel, by decide +kernel, fun hsafe => ?_⟩
  have hjournal : (hollowSums.matchAt #[] 3 ⟨4⟩ 0).2.journal =
      #[.emptyRepetition "count#4" 0] := by decide +kernel
  refine hsafe ⟨4⟩ ⟨⟨4⟩, rfl, .refl⟩ #[] 3 0 "count#4" 0 ?_
  rw [hjournal]
  exact Array.mem_singleton.mpr rfl

end Graph

end RuleScript
