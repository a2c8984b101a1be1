import RuleScript.Proofs.Pipeline.Loads
import RuleScript.Proofs.Script.Marking

/-!
# Trees show declared names

Whoever writes rules sees trees of the names that were declared, and not of the rules without names that
the expressions inside of a rule become.  If neither a script nor any that takes part in it through
includes writes `-c` in the body of a rule, a match of what it compiles to leaves nodes of rules with names
and log entries, at any depth (`Pipeline.trees_show_names`).

Each unit compiles to a discreet graph.  Merging and linking move the ids that rules refer to, and neither
changes how a rule is pruned nor drops the name of a rule that is copied.
-/

namespace RuleScript

variable {α : Type}

/-! ## Discreet graphs are merged -/

theorem Kind.leavesNode_mapSubs (f : RuleId → RuleId) (kind : Kind α) :
    (kind.mapSubs f).leavesNode = kind.leavesNode := by
  cases kind <;> rfl

@[simp] theorem Rule.isDiscreet_mapSubs (f : RuleId → RuleId) (rule : Rule α) :
    (rule.mapSubs f).isDiscreet = rule.isDiscreet := by
  rw [isDiscreet, isDiscreet, mapSubs, Kind.leavesNode_mapSubs]

namespace Graph

variable {g other : Graph α}

@[simp] theorem isDiscreet_linkRule (g : Graph α) (rule : Rule α) :
    (g.linkRule rule).isDiscreet = rule.isDiscreet := by
  rw [linkRule]
  split
  · rename_i hkind
    rw [Rule.isDiscreet, Rule.isDiscreet, hkind]
    rfl
  · rfl

theorem Discreet.link (hg : g.Discreet) : g.link.Discreet := by
  intro rule hrule
  obtain ⟨origin, horigin, rfl⟩ := Array.mem_map.mp hrule
  rw [isDiscreet_linkRule]
  exact hg origin horigin

theorem Discreet.merge (hg : g.Discreet) (hother : other.Discreet) : (g.merge other).2.Discreet := by
  intro rule hrule
  rcases exists_of_mem_rules_merge hrule with ⟨origin, horigin, rfl⟩ | ⟨origin, horigin, rfl⟩
  · rw [isDiscreet_linkRule]
    exact hg origin horigin
  · rw [isDiscreet_linkRule, Rule.isDiscreet_mapSubs]
    exact hother origin horigin

end Graph

/-! ## What compiles with all its includes -/

/-- A source takes part in another one: it is that source, or it is compiled on the way through the
includes below it. -/
def Source.TakesPart (loader : Loader) (terminals : Terminals α) (limit : Nat) (whole part : Source) :
    Prop :=
  ∃ steps error? chain result, Visits loader terminals limit [] [] whole steps error? ∧
    .compiled chain part result ∈ steps

/-- What holds of a source, and passes on to all that a source includes, holds of all that take part. -/
theorem Source.TakesPart.induction {loader : Loader} {terminals : Terminals α} {limit : Nat}
    {P : Source → Prop} {whole part : Source} (h : whole.TakesPart loader terminals limit part)
    (hwhole : P whole)
    (hinclude : ∀ source unit, P source →
      (compile terminals source.key source.text limit).1 = .ok unit → ∀ i ∈ unit.includes, ∀ other,
        loader.load i.path = .ok other → P other) : P part := by
  obtain ⟨steps, error?, chain, result, hvisits, hmem⟩ := h
  exact hvisits.source_induction hinclude hwhole hmem

section Compiled

variable {loader : Loader} {terminals : Terminals α} {limit : Nat} {source : Source}

/-- **A source without the marker**, includes too, compiles to a discreet graph. -/
theorem discreet_of_compileSource {compilation : Compilation α} (hbase : terminals.base.Discreet)
    (hfree : ∀ part, source.TakesPart loader terminals limit part →
      Script.BodiesFreeOf "-c" part.text limit)
    (h : (compileSource loader terminals limit source).1 = .ok compilation) :
    compilation.graph.Discreet := by
  obtain ⟨steps, vs, graph, hvisits, hvs, hmerge, -, hgraph⟩ := exists_visits_of_compileSource h
  have hmerged : graph.Discreet := by
    refine hmerge.graph_induction_of_mem (fun v hv => ?_) fun _ _ hg hother => hg.merge hother
    obtain ⟨chain, part, hcompiled, -⟩ := exists_compiled_of_mem_visitsOf (hvs hv)
    exact Script.discreet_of_compile hbase (hfree part ⟨steps, none, chain, _, hvisits, hcompiled⟩)
      (hvisits.compile_of_mem hcompiled)
  rw [hgraph]
  exact hmerged.link

end Compiled

/-- The rules that grammars start from have the names of the tokens. -/
theorem tokenBase_discreet (tokenizer : Graph Char) : (tokenBase tokenizer).Discreet := by
  intro rule hrule
  simp only [tokenBase, List.mem_toArray, List.mem_map] at hrule
  obtain ⟨named, -, rfl⟩ := hrule
  rfl

/-- Whichever rule a match starts from and wherever, all nodes it leaves, at any depth, belong to rules
with names or are log entries. -/
def Graph.ShowsNames [Element α] (g : Graph α) : Prop :=
  ∀ (input : Array α) (limit : Nat) (id : RuleId) (start len : Nat) (nodes : List Node) (trace : Trace),
    g.matchAt input limit id start = (.ok (.success len nodes), trace) → g.Shows nodes

theorem Graph.Discreet.showsNames [Element α] {g : Graph α} (hg : g.Discreet) : g.ShowsNames :=
  fun _ limit id start _ _ _ h => hg.matchAt_shows limit id start h

/-- **Trees show declared names.**  A tokenizer or a grammar that compiles, whatever sources there are,
leaves nodes of rules with names and log entries only, if no `-c` is written in the body of a rule in its
script or in one that takes part in it. -/
theorem Pipeline.trees_show_names (p : Pipeline) (source : Source) :
    (∀ compilation, (p.compileTokenizer (.ok source)).1 = .ok compilation →
      (∀ part, source.TakesPart p.loader charTerminals p.settings.maxDepth part →
        Script.BodiesFreeOf "-c" part.text p.settings.maxDepth) →
      compilation.graph.ShowsNames) ∧
    ∀ compilation, (p.compileGrammar (.ok source)).1 = .ok compilation →
      (∀ tokenizer ∈ p.tokenizer, ∀ part,
        source.TakesPart p.loader (tokenTerminals tokenizer) p.settings.maxDepth part →
          Script.BodiesFreeOf "-c" part.text p.settings.maxDepth) →
      compilation.graph.ShowsNames := by
  refine ⟨fun compilation h hfree => ?_, fun compilation h hfree => ?_⟩
  · have hbase : charTerminals.base.Discreet := fun _ hrule => nomatch hrule
    exact (discreet_of_compileSource hbase hfree h).showsNames
  · obtain ⟨tokenizer, htokenizer, h⟩ := compileGrammar_eq_ok h
    exact (discreet_of_compileSource (tokenBase_discreet tokenizer) (hfree tokenizer htokenizer)
      h).showsNames

/-- Sums of ones: a script that writes `-c` in a header only. -/
def sumScript : Source := ⟨"sums", "-c sum = (sum, plus, sum) / one; one = -r '1'; include 'signs';"⟩

/-- What it includes. -/
def signScript : Source := ⟨"signs", "plus = '+';"⟩

/-- Tokens for both. -/
def sumTokens : Graph Char where
  rules := #[Rule.named "digit" (.ofKind (.single '1')), Rule.named "sign" (.ofKind (.single '+'))]

/-- A pipeline that has the tokens and finds the included script. -/
def sumsPipeline : Pipeline where
  settings := { maxDepth := 64 }
  loader := .ofTable [(signScript.key, signScript.text)]
  tokenizer := some sumTokens

theorem sumsPipeline_shows_names :
    (∃ compilation, (sumsPipeline.compileTokenizer (.ok sumScript)).1 = .ok compilation ∧
      (∀ part, sumScript.TakesPart sumsPipeline.loader charTerminals 64 part →
        Script.BodiesFreeOf "-c" part.text 64) ∧
      compilation.graph.ShowsNames) ∧
    ∃ compilation, (sumsPipeline.compileGrammar (.ok sumScript)).1 = .ok compilation ∧
      (∀ tokenizer ∈ sumsPipeline.tokenizer, ∀ part,
        sumScript.TakesPart sumsPipeline.loader (tokenTerminals tokenizer) 64 part →
          Script.BodiesFreeOf "-c" part.text 64) ∧
      compilation.graph.ShowsNames := by
  -- all at once, because the grammar has to be built for it
  obtain ⟨hchars, htokens, hscripts⟩ :
      (sumsPipeline.compileTokenizer (.ok sumScript)).1.toOption.isSome ∧
      (sumsPipeline.compileGrammar (.ok sumScript)).1.toOption.isSome ∧
      ∀ source ∈ [sumScript, signScript],
        (∀ unit ∈ (compile charTerminals source.key source.text 64).1.toOption,
          ∀ i ∈ unit.includes, i.path = signScript.key) ∧
        (∀ unit ∈ (compile (tokenTerminals sumTokens) source.key source.text 64).1.toOption,
          ∀ i ∈ unit.includes, i.path = signScript.key) ∧
        ∀ s ∈ (Script.scan source.text 64).1.toOption,
          ∀ outcome ∈ (Script.grammar.matchRoot s.tokens.kinds 64).1.toOption,
          ∀ node ∈ Script.statementNodes outcome.nodes,
          ∀ part ∈ (Script.Part.ofNode node).toOption,
            Script.Part.AllFreeOf s "-c" part.children.tail := by
    decide +kernel
  have hload : sumsPipeline.loader.load signScript.key = .ok signScript := by decide +kernel
  have hfree {β : Type} {terminals : Terminals β}
      (hincludes : ∀ source ∈ [sumScript, signScript],
        ∀ unit ∈ (compile terminals source.key source.text 64).1.toOption,
          ∀ i ∈ unit.includes, i.path = signScript.key)
      (part : Source) (hpart : sumScript.TakesPart sumsPipeline.loader terminals 64 part) :
      Script.BodiesFreeOf "-c" part.text 64 := by
    have hmem : part ∈ [sumScript, signScript] := by
      refine hpart.induction List.mem_cons_self fun source unit hsource hcompile i hi other hother => ?_
      rw [hincludes source hsource unit (by rw [hcompile]; rfl) i hi, hload] at hother
      exact Except.ok.inj hother ▸ List.mem_cons_of_mem _ List.mem_cons_self
    exact Script.bodiesFreeOf_of_parts (hscripts part hmem).2.2
  have hfreeChars := hfree fun source hsource => (hscripts source hsource).1
  have hfreeTokens : ∀ tokenizer ∈ sumsPipeline.tokenizer, ∀ part,
      sumScript.TakesPart sumsPipeline.loader (tokenTerminals tokenizer) 64 part →
        Script.BodiesFreeOf "-c" part.text 64 := by
    intro tokenizer htokenizer
    obtain rfl : sumTokens = tokenizer := Option.some.inj htokenizer
    exact hfree fun source hsource => (hscripts source hsource).2.1
  cases hfirst : (sumsPipeline.compileTokenizer (.ok sumScript)).1 with
  | error error =>
      rw [hfirst] at hchars
      cases hchars
  | ok compilation =>
      cases hsecond : (sumsPipeline.compileGrammar (.ok sumScript)).1 with
      | error error =>
          rw [hsecond] at htokens
          cases htokens
      | ok compilation' =>
          exact ⟨⟨compilation, rfl, hfreeChars,
              (sumsPipeline.trees_show_names sumScript).1 compilation hfirst hfreeChars⟩,
            compilation', rfl, hfreeTokens,
            (sumsPipeline.trees_show_names sumScript).2 compilation' hsecond hfreeTokens⟩

end RuleScript
