import RuleScript.Proofs.Match.NullableRules
import RuleScript.Proofs.Match.TokenSpans
import RuleScript.Proofs.Script.FrontEnd

/-!
# Where parts stand

The parts of a script are nested like the nodes that they stand for: one after the other, and those of a
part inside its span (`Part.Nested`).  That is not so of the nodes themselves, since some log entries of
the grammar look ahead and reach past what they are in front of.  But log entries are no parts, so it is
enough that what recovers goes forward, and the derivation of a script tells the rest
(`derives_nested`).

None but a whole script is a part over no tokens.  That matters where spans over tokens become spans
over characters: what is inside another span over tokens is then inside of it in the text
(`Scanned.Holds.includes`), and not inside of a span that comes before or after it
(`Scanned.Holds.not_includes`).
-/

namespace RuleScript

/-! ## Derivations go forward -/

/-- A step from one position to another goes forward; `still` tells whether it may stay. -/
def Advances (still : Bool) (start stop : Nat) : Prop := start ≤ stop ∧ (still = false → start < stop)

namespace Advances

variable {still still' : Bool} {start mid stop : Nat}

theorem of_lt (h : start < stop) : Advances still start stop := ⟨Nat.le_of_lt h, fun _ => h⟩

theorem stay (pos : Nat) : Advances true pos pos := ⟨Nat.le_refl pos, fun h => nomatch h⟩

theorem mono (h : Advances still start stop) (hstill : still → still') :
    Advances still' start stop := by
  refine ⟨h.1, fun hfalse => h.2 ?_⟩
  cases still with
  | false => rfl
  | true => exact (hstill rfl).symm.trans hfalse

theorem append (h : Advances still start mid) (hrest : Advances still' mid stop) :
    Advances (still && still') start stop := by
  refine ⟨Nat.le_trans h.1 hrest.1, fun hfalse => ?_⟩
  rcases Bool.and_eq_false_iff.mp hfalse with hstill | hstill
  · exact Nat.lt_of_lt_of_le (h.2 hstill) hrest.1
  · exact Nat.lt_of_le_of_lt h.1 (hrest.2 hstill)

end Advances

namespace Phrase

variable {α ι : Type} {S : Productions α ι} {F : Forecast α ι} {input : Array α}
variable {passed : Nat → Nat → List Node → Prop}

mutual

/-- A derivation goes forward, if what recovers does, and only a phrase that may be nothing stays. -/
theorem Derives.advances (hF : ∀ name, F.nullable (S.phrase name) → F.empty name)
    (hpassed : ∀ start stop nodes, passed start stop nodes → start < stop) {phrase : Phrase α ι}
    {start stop : Nat} {nodes : List Node} :
    Derives S passed input phrase start stop nodes → Advances (F.nullable phrase) start stop
  | .kept _ | .dropped _ => .of_lt (Nat.lt_succ_self _)
  | .rule h => (h.advances hF hpassed).mono (hF _)
  | .sequence h => h.advances hF hpassed
  | .choice hpart h => (h.advances hF hpassed).mono (F.nullableAny_of_mem hpart)
  | .absent => .stay _
  | .present h => (h.advances hF hpassed).mono fun _ => rfl
  | .many h => h.advances hF hpassed
  | .several h hrest => by
      have hboth := (h.advances hF hpassed).append (hrest.advances hF hpassed)
      rwa [Bool.and_true] at hboth
  | .recovery h => .of_lt (hpassed _ _ _ h)

theorem InOrder.advances (hF : ∀ name, F.nullable (S.phrase name) → F.empty name)
    (hpassed : ∀ start stop nodes, passed start stop nodes → start < stop)
    {parts : List (Phrase α ι)} {start stop : Nat} {nodes : List Node} :
    InOrder S passed input parts start stop nodes → Advances (F.nullableAll parts) start stop
  | .nil => .stay _
  | .cons h hrest => (h.advances hF hpassed).append (hrest.advances hF hpassed)

theorem InRounds.advances (hF : ∀ name, F.nullable (S.phrase name) → F.empty name)
    (hpassed : ∀ start stop nodes, passed start stop nodes → start < stop) {part : Phrase α ι}
    {start stop : Nat} {nodes : List Node} :
    InRounds S passed input part start stop nodes → Advances true start stop
  | .nil => .stay _
  | .cons h hrest =>
      ((h.advances hF hpassed).append (hrest.advances hF hpassed)).mono fun _ => rfl

end

end Phrase

namespace Script

/-! ## What recovers goes forward -/

/-- What the grammar passes over: some tokens, for which there are log entries. -/
def Passed (start stop : Nat) (nodes : List Node) : Prop :=
  start < stop ∧ ∀ node ∈ nodes, grammar.isLog node.rule

theorem grammar_recoveries : grammar.EvaluationFree ∧
    ∀ id ∈ grammar.ids, wholeScope.aside id → Graph.marks grammar.nullableTable id = false := by
  decide +kernel

theorem promises_passed (tokens : Array RuleId) (id : RuleId) (pos : Nat) (h : wholeScope.aside id) :
    grammar.Promises tokens id pos (·.Steps Passed pos) := by
  have hmarks : Graph.marks grammar.nullableTable id = false := by
    cases hrule : grammar.rule? id with
    | none => exact Graph.marks_eq_false_of_rule?_eq_none hrule
    | some rule =>
        have hid : id ∈ grammar.ids := Graph.mem_ids.mpr (Array.getElem?_eq_some_iff.mp hrule).1
        exact grammar_recoveries.2 id hid h
  have hlen : grammar.Promises tokens id pos (·.EmptyOnlyIf (Graph.marks grammar.nullableTable id)) :=
    fun limit depth => Graph.runWithin_marks grammar_recoveries.1 tokens limit depth id pos
  refine ((promises_remarks tokens id pos h).and hlen).mono fun outcome houtcome => ?_
  obtain ⟨hremarks, hempty⟩ := houtcome
  cases outcome with
  | failure => trivial
  | success len nodes =>
      refine ⟨Nat.lt_add_of_pos_right (Nat.pos_of_ne_zero fun hzero => ?_), hremarks.2⟩
      exact Bool.noConfusion (hmarks.symm.trans (hempty hzero))

/-! ## Nested parts -/

namespace Part

/-- The parts lie between two positions, one after the other, those of each part between the bounds of
its span, and none but a whole script is over nothing. -/
inductive Nested : Nat → Nat → List Part → Prop
  | nil {lo hi : Nat} : Nested lo hi []
  | cons {lo hi : Nat} {kind : NodeKind} {span : Span} {parts rest : List Part}
      (hlo : lo ≤ span.start) (hhi : span.stop ≤ hi) (hlen : kind ≠ .script → 0 < span.len)
      (hparts : Nested span.start span.stop parts) (hrest : Nested span.stop hi rest) :
      Nested lo hi (⟨kind, span, parts⟩ :: rest)

namespace Nested

variable {lo lo' mid hi hi' : Nat} {parts first second : List Part} {part : Part}

theorem mono (h : Part.Nested lo hi parts) (hlo : lo' ≤ lo) (hhi : hi ≤ hi') :
    Part.Nested lo' hi' parts := by
  induction parts generalizing lo lo' with
  | nil => exact .nil
  | cons part rest ih =>
      cases h with
      | cons hstart hstop hlen hparts hrest =>
          exact .cons (Nat.le_trans hlo hstart) (Nat.le_trans hstop hhi) hlen hparts
            (ih hrest (Nat.le_refl _))

theorem append (hfirst : Part.Nested lo mid first) (hsecond : Part.Nested mid hi second)
    (hlo : lo ≤ mid) (hhi : mid ≤ hi) : Part.Nested lo hi (first ++ second) := by
  induction first generalizing lo with
  | nil => exact hsecond.mono hlo (Nat.le_refl _)
  | cons part rest ih =>
      cases hfirst with
      | cons hstart hstop hlen hparts hrest =>
          exact .cons hstart (Nat.le_trans hstop hhi) hlen hparts (ih hrest hstop)

theorem tail (h : Part.Nested lo hi (part :: parts)) : Part.Nested lo hi parts := by
  cases h with
  | cons hstart _ _ _ hrest =>
      exact hrest.mono (Nat.le_trans hstart (Span.start_le_stop _)) (Nat.le_refl _)

theorem of_mem (h : Part.Nested lo hi parts) (hpart : part ∈ parts) :
    lo ≤ part.span.start ∧ part.span.stop ≤ hi ∧ (part.kind ≠ .script → 0 < part.span.len) ∧
      Part.Nested part.span.start part.span.stop part.children := by
  induction parts with
  | nil => cases hpart
  | cons first rest ih =>
      rcases List.mem_cons.mp hpart with rfl | hpart
      · cases h with
        | cons hstart hstop hlen hparts _ => exact ⟨hstart, hstop, hlen, hparts⟩
      · exact ih h.tail hpart

theorem pairwise (h : Part.Nested lo hi parts) :
    parts.Pairwise fun first second => first.span.stop ≤ second.span.start := by
  induction h with
  | nil => exact .nil
  | cons _ _ _ _ hrest _ ih => exact .cons (fun _ hpart => (hrest.of_mem hpart).1) ih

/-- Of two parts that are not the same one comes before the other. -/
theorem apart (h : Part.Nested lo hi parts) {other : Part} (hpart : part ∈ parts)
    (hother : other ∈ parts) (hne : part ≠ other) :
    part.span.stop ≤ other.span.start ∨ other.span.stop ≤ part.span.start := by
  have hsymm : Std.Symm fun first second : Part =>
      first.span.stop ≤ second.span.start ∨ second.span.stop ≤ first.span.start :=
    ⟨fun _ _ => Or.symm⟩
  have hpairwise : parts.Pairwise fun first second =>
      first.span.stop ≤ second.span.start ∨ second.span.stop ≤ first.span.start :=
    h.pairwise.imp .inl
  exact hpairwise.forall hpart hother hne

end Nested

theorem span_of_ofNode {node : Node} {part : Part} (h : ofNode node = .ok part) :
    part.span = node.span := by
  obtain ⟨rule, span, children⟩ := node
  rw [ofNode] at h
  split at h
  · obtain ⟨parts, -, rfl⟩ := ok_of_map h
    rfl
  · cases h

end Part

/-- What some nodes stand for are nested parts. -/
def NestedParts (start stop : Nat) (nodes : List Node) : Prop :=
  ∃ parts, Part.ofNodes nodes = .ok parts ∧ Part.Nested start stop parts

theorem NestedParts.nil {start stop : Nat} : NestedParts start stop [] := ⟨[], rfl, .nil⟩

theorem NestedParts.append {still still' : Bool} {start mid stop : Nat} {first second : List Node}
    (hfirst : NestedParts start mid first) (hsecond : NestedParts mid stop second)
    (hstart : Advances still start mid) (hstop : Advances still' mid stop) :
    NestedParts start stop (first ++ second) := by
  obtain ⟨parts, hparts, hnested⟩ := hfirst
  obtain ⟨rest, hrest, hmore⟩ := hsecond
  exact ⟨_, Part.ofNodes_append hparts hrest, hnested.append hmore hstart.1 hstop.1⟩

section

variable {tokens : Array RuleId}

theorem derives_advances {phrase : Phrase RuleId NodeKind} {start stop : Nat} {nodes : List Node}
    (h : Phrase.Derives layout Passed tokens phrase start stop nodes) :
    Advances (outlook.nullable phrase) start stop :=
  h.advances outlook_foresees.empty fun _ _ _ h => h.1

theorem inOrder_advances {phrases : List (Phrase RuleId NodeKind)} {start stop : Nat}
    {nodes : List Node} (h : Phrase.InOrder layout Passed tokens phrases start stop nodes) :
    Advances (outlook.nullableAll phrases) start stop :=
  h.advances outlook_foresees.empty fun _ _ _ h => h.1

theorem inRounds_advances {phrase : Phrase RuleId NodeKind} {start stop : Nat} {nodes : List Node}
    (h : Phrase.InRounds layout Passed tokens phrase start stop nodes) : Advances true start stop :=
  h.advances outlook_foresees.empty fun _ _ _ h => h.1

/-- Only a whole script may be nothing. -/
theorem production_advances {kind : NodeKind} {start stop : Nat} {nodes : List Node}
    (h : Phrase.Derives layout Passed tokens (layout.phrase kind) start stop nodes)
    (hkind : kind ≠ .script) : start < stop :=
  (derives_advances h).2 <| Bool.eq_false_iff.mpr fun hnullable =>
    hkind (of_decide_eq_true (outlook_foresees.empty kind hnullable))

mutual

/-- **What a phrase derives are nested parts.** -/
theorem derives_nested {phrase : Phrase RuleId NodeKind} {start stop : Nat} {nodes : List Node} :
    Phrase.Derives layout Passed tokens phrase start stop nodes → NestedParts start stop nodes
  | .kept _ =>
      ⟨_, Part.ofNodes_ruleOf rfl,
        .cons (Nat.le_refl _) (Nat.le_refl _) (fun _ => Nat.zero_lt_one) .nil .nil⟩
  | .dropped _ => .nil
  | .rule h => by
      obtain ⟨parts, hparts, hnested⟩ := derives_nested h
      exact ⟨_, Part.ofNodes_ruleOf hparts, .cons (Nat.le_refl _) (Nat.le_refl _)
        (fun hkind => Nat.lt_add_right_iff_pos.mp (production_advances h hkind)) hnested .nil⟩
  | .sequence h => inOrder_nested h
  | .choice _ h => derives_nested h
  | .absent => .nil
  | .present h => derives_nested h
  | .many h => inRounds_nested h
  | .several h hrest =>
      (derives_nested h).append (inRounds_nested hrest) (derives_advances h) (inRounds_advances hrest)
  | .recovery h => ⟨[], Part.ofNodes_logs h.2, .nil⟩

theorem inOrder_nested {phrases : List (Phrase RuleId NodeKind)} {start stop : Nat}
    {nodes : List Node} :
    Phrase.InOrder layout Passed tokens phrases start stop nodes → NestedParts start stop nodes
  | .nil => .nil
  | .cons h hrest =>
      (derives_nested h).append (inOrder_nested hrest) (derives_advances h) (inOrder_advances hrest)

theorem inRounds_nested {phrase : Phrase RuleId NodeKind} {start stop : Nat} {nodes : List Node} :
    Phrase.InRounds layout Passed tokens phrase start stop nodes → NestedParts start stop nodes
  | .nil => .nil
  | .cons h hrest =>
      (derives_nested h).append (inRounds_nested hrest) (derives_advances h) (inRounds_advances hrest)

end

end

/-- The statements of a script are nested parts. -/
theorem statements_nested {tokens : Array RuleId} {limit : Nat} {outcome : Outcome} {trace : Trace}
    (h : grammar.matchRoot tokens limit = (.ok outcome, trace)) :
    NestedParts 0 tokens.size (statementNodes outcome.nodes) := by
  have hderives := (Productions.promises_derives grammar_describes.1 (promises_passed tokens)
    (grammar_describes.1.realizes_rule (by decide : NodeKind.script ∈ compounds)) 0).of_matchRoot
      grammar_statements.1 h
  rcases grammar_matchRoot_cases tokens limit with ⟨_, _, _, herror⟩ | ⟨nodes, trace', hsuccess⟩
  · rw [herror] at h
    cases h
  · rw [hsuccess] at h
    cases h
    obtain ⟨len, found, hlen, rfl, hfound⟩ := Phrase.derives_rule_iff.mp hderives
    have hscript : grammar.nodeKind? (layout.idOf .script) = some .script := nodeKind_ruleOf .script
    rw [statementNodes, Outcome.nodes, List.flatMap_singleton, if_pos hscript]
    rw [← hlen, Nat.zero_add] at hfound
    exact derives_nested hfound

/-! ## Spans over tokens in the text -/

theorem scan_coherent {source : String} {limit : Nat} {s : Scanned} {journal : Journal}
    (h : scan source limit = (.ok s, journal)) : s.tokens.Coherent s.chars.size := by
  obtain ⟨hchars, hlossless⟩ := scan_lossless h
  obtain ⟨-, htokens⟩ := tokenize_of_scan h
  have hordered : s.tokens.IsOrdered :=
    ⟨hlossless.ordered, fun token htoken => hlossless.consumed ▸ (hlossless.inside token htoken).2⟩
  have hwithin := tokenizer.tokenize_within source.toList.toArray limit
  rw [htokens, ← hchars] at hwithin
  exact hordered.coherent hwithin

namespace Scanned

/-- A place in a script is that of some tokens, of one at least, that are among those of a span. -/
def Holds (s : Scanned) (outer : Span) (location : Location) : Prop :=
  ∃ span : Span, location = s.location span ∧ 0 < span.len ∧ outer.includes span

variable {s : Scanned} {outer other : Span} {location : Location}

theorem Holds.includes (h : s.Holds outer location) (hcoherent : s.tokens.Coherent s.chars.size)
    (hsize : outer.stop ≤ s.tokens.tokens.size) :
    (s.charSpan outer).includes location.span := by
  obtain ⟨span, rfl, hlen, hincludes⟩ := h
  exact hcoherent.includes span outer hlen hsize hincludes

/-- No token is over nothing, so what is inside a span over tokens has a character. -/
theorem Holds.lt (h : s.Holds outer location) (hlossless : Lossless s.chars s.tokens)
    (hcoherent : s.tokens.Coherent s.chars.size) (hsize : outer.stop ≤ s.tokens.tokens.size) :
    location.span.start < location.span.stop := by
  obtain ⟨span, rfl, hlen, hincludes⟩ := h
  simp only [Span.includes, Bool.and_eq_true, decide_eq_true_eq] at hincludes
  have hstop : span.stop = span.start + span.len := rfl
  have hlast : span.stop - 1 < s.tokens.tokens.size := by omega
  obtain ⟨-, last, -, hat, -, hend⟩ := hcoherent.ends span hlen (Nat.le_trans hincludes.2 hsize)
  calc (s.charSpan span).start
    _ = s.tokens.startOf s.chars.size span.start := s.tokens.start_charSpan s.chars.size span
    _ ≤ s.tokens.startOf s.chars.size (span.stop - 1) :=
        hcoherent.startOf_mono (by omega) hlast
    _ = last.span.start := by rw [Tokenized.startOf, hat]
    _ < last.span.stop :=
        Nat.lt_add_of_pos_right (hlossless.inside last (Array.mem_of_getElem? hat)).1
    _ = (s.charSpan span).stop := hend.symm

/-- What is inside a span over tokens is not inside of another one that has no token of it. -/
theorem Holds.not_includes (h : s.Holds outer location) (hlossless : Lossless s.chars s.tokens)
    (hcoherent : s.tokens.Coherent s.chars.size) (hsize : outer.stop ≤ s.tokens.tokens.size)
    (hother : other.stop ≤ s.tokens.tokens.size) (hlen : 0 < other.len)
    (hapart : outer.stop ≤ other.start ∨ other.stop ≤ outer.start) :
    ¬ (s.charSpan other).includes location.span := by
  intro hwithin
  have hlt := h.lt hlossless hcoherent hsize
  obtain ⟨span, rfl, hpos, hincludes⟩ := h
  simp only [Span.includes, Bool.and_eq_true, decide_eq_true_eq] at hincludes hwithin
  have hspan : (s.location span).span = s.charSpan span := rfl
  rw [hspan] at hlt hwithin
  rcases hapart with hle | hle
  · have hbefore : (s.charSpan span).stop ≤ (s.charSpan other).start :=
      hcoherent.before span other hpos hlen hother (Nat.le_trans hincludes.2 hle)
    omega
  · have hbefore : (s.charSpan other).stop ≤ (s.charSpan span).start :=
      hcoherent.before other span hlen hpos (Nat.le_trans hincludes.2 hsize)
        (Nat.le_trans hle hincludes.1)
    omega

end Scanned

end Script

end RuleScript
