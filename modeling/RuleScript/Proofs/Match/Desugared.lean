import RuleScript.Proofs.Match.Desugaring
import RuleScript.Proofs.Match.EmptyMatch
import RuleScript.Proofs.Match.Merged

/-!
# Every evaluation can be spelled out

`Graph.desugared` puts the rules that spell out an evaluation behind those of its graph.  Nothing
changes for the rules of the graph: they keep their ids, and since the new rules have no names and no
rule refers to them, matches and the forms of chains stay the same.

So what holds of an evaluation that is spelled out in its graph holds of all evaluations of
well-formed graphs, which is `Graph.evaluation_desugars`.
-/

namespace RuleScript

open Match

namespace Graph

variable {α : Type} {g : Graph α} {evaluation : RuleId} {alternatives : List RuleId}

/-- Rules that spell out an evaluation, for the ids just behind those of the graph: the choice of
operands, the choice of pairs, its repetition, the two in a row, and then the pairs. -/
def desugaringRules (g : Graph α) (evaluation : RuleId) (alternatives : List RuleId) :
    List (Rule α) :=
  let form := ChainForm.ofEvaluation g evaluation alternatives
  [Rule.ofKind (.oneOf form.operands),
    Rule.ofKind (.oneOf (form.operators.mapIdx fun index _ => ⟨g.size + (index + 4)⟩)),
    Rule.ofKind (.count ⟨g.size + 1⟩ 0 0),
    Rule.ofKind (.sequence [⟨g.size + 0⟩, ⟨g.size + 2⟩])] ++
  form.operators.map fun operator => Rule.ofKind (.sequence [operator.operator,
    if g.leadsTo operator.right evaluation then ⟨g.size + 0⟩ else operator.right])

/-- The graph with an evaluation spelled out. -/
def desugared (g : Graph α) (evaluation : RuleId) (alternatives : List RuleId) : Graph α :=
  { g with rules := g.rules ++ (g.desugaringRules evaluation alternatives).toArray }

theorem embeds_desugared (g : Graph α) (evaluation : RuleId) (alternatives : List RuleId) :
    Embeds (fun id => id) g (g.desugared evaluation alternatives) where
  rule id rule hrule := by
    have hid := contains_iff.mp (contains_of_rule? hrule)
    rw [Rule.mapSubs_id, ← hrule]
    exact Array.getElem?_append_left hid
  injOn _ _ _ _ h := h

theorem kind?_desugared (index : Nat) :
    (g.desugared evaluation alternatives).kind? ⟨g.size + index⟩ =
      (g.desugaringRules evaluation alternatives)[index]?.map (·.kind) := by
  rw [kind?, rule?, desugared, Array.getElem?_append_right (Nat.le_add_right g.size index)]
  simp [size]

namespace WellFormed

variable (hg : g.WellFormed) (hkind : g.kind? evaluation = some (.evaluation alternatives))

include hg hkind

/-- Nothing changes about the operators and operands of an evaluation that is spelled out. -/
theorem form_desugared :
    (ChainForm.ofEvaluation (g.desugared evaluation alternatives) evaluation alternatives).operands =
        (ChainForm.ofEvaluation g evaluation alternatives).operands ∧
      (ChainForm.ofEvaluation (g.desugared evaluation alternatives) evaluation alternatives).operators =
        (ChainForm.ofEvaluation g evaluation alternatives).operators ∧
      ∀ operator ∈ (ChainForm.ofEvaluation g evaluation alternatives).operators,
        (g.desugared evaluation alternatives).leadsTo operator.right evaluation =
          g.leadsTo operator.right evaluation := by
  -- The rules that are added refer to the old ones only, so every search on the old ones ends as
  -- before.
  have hembeds := g.embeds_desugared evaluation alternatives
  obtain ⟨rule, hrule, -⟩ := Option.map_eq_some_iff.mp hkind
  have hevaluation : g.contains evaluation := contains_of_rule? hrule
  have halternatives : ∀ id ∈ alternatives, g.contains id := fun id hid =>
    hg.contains_of_reaches hevaluation (reaches_of_mem_subs hkind hid)
  have hoperands := hembeds.operands hg hevaluation halternatives
  rw [List.map_id'] at hoperands
  have hoperators : (ChainForm.ofEvaluation _ evaluation (alternatives.map fun id => id)).operators =
      _ := hembeds.operators hg halternatives
  rw [List.map_id'] at hoperators
  refine ⟨hoperands.trans (List.map_id' _), hoperators.trans (List.map_id' _), ?_⟩
  intro operator hoperator
  exact hembeds.leadsTo hg
    (hg.contains_of_reaches hevaluation (reaches_of_mem_operators hkind hoperator).2) hevaluation

/-- The rules that were added spell out the evaluation. -/
def desugaring : (g.desugared evaluation alternatives).Desugaring evaluation alternatives where
  operands := (ChainForm.ofEvaluation g evaluation alternatives).operands
  operand := ⟨g.size + 0⟩
  pairs := (ChainForm.ofEvaluation g evaluation alternatives).operators.mapIdx
    fun index _ => ⟨g.size + (index + 4)⟩
  choice := ⟨g.size + 1⟩
  tail := ⟨g.size + 2⟩
  whole := ⟨g.size + 3⟩
  kind_evaluation := by
    obtain ⟨rule, hrule, hrulekind⟩ := Option.map_eq_some_iff.mp hkind
    rw [kind?_eq_some ((g.embeds_desugared evaluation alternatives).rule evaluation rule hrule),
      Rule.mapSubs_id, hrulekind]
  reads_operands := readOperands_iff.mpr (hg.form_desugared hkind).1.symm
  kind_operand := by
    rw [kind?_desugared]
    rfl
  reads_pairs := by
    rw [readPairs_iff]
    obtain ⟨-, hoperators, hopen⟩ := hg.form_desugared hkind
    rw [hoperators, List.forall₂_iff_get]
    refine ⟨List.length_mapIdx, fun index hindex hindex' => ?_⟩
    rw [List.get_eq_getElem, List.getElem_mapIdx, kind?_desugared, hopen _ (List.get_mem ..)]
    have hrule : (g.desugaringRules evaluation alternatives)[index + 4]? =
        ((ChainForm.ofEvaluation g evaluation alternatives).operators.map fun operator =>
          Rule.ofKind (.sequence [operator.operator,
            if g.leadsTo operator.right evaluation then ⟨g.size + 0⟩ else operator.right]))[index]? :=
      rfl
    rw [hrule, List.getElem?_map, List.getElem?_eq_getElem hindex']
    rfl
  kind_choice := by
    rw [kind?_desugared]
    rfl
  kind_tail := by
    rw [kind?_desugared]
    rfl
  kind_whole := by
    rw [kind?_desugared]
    rfl

end WellFormed

/-! ## Pairs that match nothing -/

variable [Element α]

/-- In a valid graph that has an evaluation spelled out no pair matches nothing. -/
theorem Desugaring.noEmptyPair_of_validate (d : g.Desugaring evaluation alternatives)
    (hvalid : g.validate = .ok ()) (hcovered : ∀ id ∈ g.ids, g.OperandsCovered id)
    (input : Array α) (start : Nat) : d.NoEmptyPair input start := by
  intro pos _ pair hpair limit nodes hmatch
  have hpairMarked : marks g.nullableTable pair := marks_of_matchesEmpty hvalid
    (fun sub _ => operandsCovered_of_ids hcovered sub) ⟨input, limit, pos, nodes, hmatch⟩
  -- The choice of pairs would be marked with the pair, but it is repeated without bound.
  obtain ⟨rule, hrule, hkind⟩ := Option.map_eq_some_iff.mp d.kind_choice
  have hchoiceMarked : marks g.nullableTable d.choice := by
    refine marks_of_isNullable hrule ?_
    rw [hkind]
    exact List.any_eq_true.mpr ⟨pair, hpair, hpairMarked⟩
  rw [not_marks_of_validate hvalid d.kind_tail] at hchoiceMarked
  cases hchoiceMarked

/-- **Evaluations are sugar.**  Let an evaluation be spelled out in its graph, and let no pair of an
operator and a right operand match nothing where pairs are looked for.  Then the evaluation and the
rules that spell it out come to the same success and length, or to the same abort, under any limits
that neither is cut off by; and where the evaluation is not cut off, the rules are not with four
levels more.  In a well-formed graph any evaluation can be spelled out by further rules, and all
rules match as before. -/
theorem evaluation_desugars (g : Graph α) (evaluation : RuleId) (alternatives : List RuleId) :
    (∀ (d : g.Desugaring evaluation alternatives) (input : Array α) (start : Nat),
      d.NoEmptyPair input start →
      (∀ limit limit', ¬ CutOff (g.matchAt input limit evaluation start) →
        ¬ CutOff (g.matchAt input limit' d.whole start) →
        (g.matchAt input limit' d.whole start).1.map Outcome.verdict =
          (g.matchAt input limit evaluation start).1.map Outcome.verdict) ∧
      ∀ limit, ¬ CutOff (g.matchAt input limit evaluation start) →
        (g.matchAt input (limit + 4) d.whole start).1.map Outcome.verdict =
          (g.matchAt input limit evaluation start).1.map Outcome.verdict) ∧
    (g.WellFormed → g.kind? evaluation = some (.evaluation alternatives) →
      Embeds (fun id => id) g (g.desugared evaluation alternatives) ∧
      Nonempty ((g.desugared evaluation alternatives).Desugaring evaluation alternatives) ∧
      ∀ id, g.contains id → ∀ (input : Array α) (limit start : Nat),
        (g.desugared evaluation alternatives).matchAt input limit id start =
          g.matchAt input limit id start) := by
  refine ⟨fun d input start hempty => ⟨fun limit limit' => ?_, fun limit => ?_⟩,
    fun hg hkind => ⟨embeds_desugared g evaluation alternatives, ⟨hg.desugaring hkind⟩, ?_⟩⟩
  · exact d.matchAt_eq_of_not_cutOff input hempty
  · exact d.matchAt_eq_of_evaluation input hempty
  · exact fun id hid => (embeds_desugared g evaluation alternatives).matchAt_eq hg hid

/-- Sums and products of signed ones.  A sum adds any expressions, a product multiplies ones. -/
def signedSums : Graph Char where
  rules := #[
    .named "one" (.ofKind (.single '1')),
    .ofKind (.single '+'),
    .ofKind (.single '*'),
    .ofKind (.single '-'),
    .named "negative" (.ofKind (.sequence [⟨3⟩, ⟨0⟩])),
    .ofKind (.reference "expression" (some ⟨8⟩)),
    .named "sum" (.ofKind (.sequence [⟨5⟩, ⟨1⟩, ⟨5⟩])),
    .named "product" (.ofKind (.sequence [⟨0⟩, ⟨2⟩, ⟨0⟩])),
    .named "expression" (.ofKind (.evaluation [⟨6⟩, ⟨4⟩, ⟨7⟩]))]
  root := some ⟨8⟩

theorem signedSums_wellFormed : signedSums.WellFormed where
  distinct := by decide +kernel
  edges := by decide +kernel
  root := by decide +kernel

/-- The expressions spelled out. -/
def spelledSums : Graph Char := signedSums.desugared ⟨8⟩ [⟨6⟩, ⟨4⟩, ⟨7⟩]

/-- The operands are the negative ones, which are no operator's, and the left side of a product; the
left side of a sum leads back to the expressions, and so does its right side, which is any operand.
After the product a `+` is left over. -/
theorem signedSums_desugars :
    signedSums.WellFormed ∧ signedSums.kind? ⟨8⟩ = some (.evaluation [⟨6⟩, ⟨4⟩, ⟨7⟩]) ∧
      ∃ d : spelledSums.Desugaring ⟨8⟩ [⟨6⟩, ⟨4⟩, ⟨7⟩],
        d.operands = [⟨4⟩, ⟨0⟩] ∧ d.pairs = [⟨13⟩, ⟨14⟩] ∧
        spelledSums.kind? ⟨13⟩ = some (.sequence [⟨1⟩, d.operand]) ∧
        spelledSums.kind? ⟨14⟩ = some (.sequence [⟨2⟩, ⟨0⟩]) ∧
        d.NoEmptyPair #['1', '+', '-', '1', '*', '1', '+'] 0 ∧ d.whole = ⟨12⟩ ∧
        (signedSums.matchAt #['1', '+', '-', '1', '*', '1', '+'] 3 ⟨8⟩ 0).1.map Outcome.verdict =
          .ok (some 6) ∧
        (spelledSums.matchAt #['1', '+', '-', '1', '*', '1', '+'] 7 ⟨12⟩ 0).1.map Outcome.verdict =
          .ok (some 6) := by
  have hkind : signedSums.kind? ⟨8⟩ = some (.evaluation [⟨6⟩, ⟨4⟩, ⟨7⟩]) := by decide +kernel
  have hvalid : spelledSums.validate = .ok () := by decide +kernel
  have hcovered : ∀ id ∈ spelledSums.ids, spelledSums.OperandsCovered id := by decide +kernel
  have hmatch : (signedSums.matchAt #['1', '+', '-', '1', '*', '1', '+'] 3 ⟨8⟩ 0).1.map
      Outcome.verdict = .ok (some 6) := by decide +kernel
  have hoperands : (ChainForm.ofEvaluation signedSums ⟨8⟩ [⟨6⟩, ⟨4⟩, ⟨7⟩]).operands = [⟨4⟩, ⟨0⟩] := by
    decide +kernel
  have hadding : spelledSums.kind? ⟨13⟩ = some (.sequence [⟨1⟩, ⟨9⟩]) := by decide +kernel
  obtain ⟨-, hextends⟩ := evaluation_desugars signedSums ⟨8⟩ [⟨6⟩, ⟨4⟩, ⟨7⟩]
  obtain ⟨-, -, hsame⟩ := hextends signedSums_wellFormed hkind
  -- The added rules change nothing about the evaluation itself.
  have hspelled : spelledSums.matchAt #['1', '+', '-', '1', '*', '1', '+'] 3 ⟨8⟩ 0 =
      signedSums.matchAt #['1', '+', '-', '1', '*', '1', '+'] 3 ⟨8⟩ 0 := hsame ⟨8⟩ rfl _ 3 0
  have hcut : ¬ CutOff (spelledSums.matchAt #['1', '+', '-', '1', '*', '1', '+'] 3 ⟨8⟩ 0) := by
    rintro ⟨limit, pos, heq⟩
    rw [← hspelled, heq] at hmatch
    cases hmatch
  let d : spelledSums.Desugaring ⟨8⟩ [⟨6⟩, ⟨4⟩, ⟨7⟩] := signedSums_wellFormed.desugaring hkind
  have hempty : d.NoEmptyPair #['1', '+', '-', '1', '*', '1', '+'] 0 :=
    d.noEmptyPair_of_validate hvalid hcovered _ 0
  obtain ⟨hequal, -⟩ := evaluation_desugars spelledSums ⟨8⟩ [⟨6⟩, ⟨4⟩, ⟨7⟩]
  have hwhole := (hequal d #['1', '+', '-', '1', '*', '1', '+'] 0 hempty).2 3 hcut
  rw [hspelled, hmatch] at hwhole
  exact ⟨signedSums_wellFormed, hkind, d, hoperands, rfl, hadding, by decide +kernel, hempty, rfl,
    hmatch, hwhole⟩

end Graph

end RuleScript
