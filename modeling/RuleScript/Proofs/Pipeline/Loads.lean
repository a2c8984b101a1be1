import RuleScript.Pipeline.Basic
import RuleScript.Proofs.Pipeline.Includes
import RuleScript.Proofs.Script.Values

/-!
# What loading keeps up

A pipeline is asked to load tokenizers and grammars in any order.  A load gives an answer and leaves a
pipeline in either case, and what does not load leaves the one it was asked of
(`Pipeline.after_of_load_error`).  Whatever has been asked of it, a grammar is loaded only over a
tokenizer, and what the rules of the grammar match are named rules of just that tokenizer
(`Pipeline.Sound`).

The elements of a grammar come from the strings and sets of its units and from the rules that every unit
starts from.  Merging units moves the ids that rules refer to, but not the elements, which are ids of
another graph.
-/

namespace RuleScript

/-! ## Rules over tokens -/

section OverTokens

variable {tokenizer : Graph Char}

/-- What a rule matches by itself are named tokens of a tokenizer. -/
def Kind.OverTokens (tokenizer : Graph Char) : Kind RuleId → Prop
  | .single id => tokenizer.isNamed id
  | .set ids => ∀ id ∈ ids, tokenizer.isNamed id
  | .range .. | .literal _ => False
  | _ => True

/-- A graph matches named tokens of a tokenizer. -/
def Graph.OverTokens (g : Graph RuleId) (tokenizer : Graph Char) : Prop :=
  ∀ rule ∈ g.rules, rule.kind.OverTokens tokenizer

@[simp] theorem Kind.overTokens_mapSubs (f : RuleId → RuleId) (kind : Kind RuleId) :
    (kind.mapSubs f).OverTokens tokenizer ↔ kind.OverTokens tokenizer := by
  cases kind <;> rfl

@[simp] theorem Graph.overTokens_linkRule (g : Graph RuleId) (rule : Rule RuleId) :
    (g.linkRule rule).kind.OverTokens tokenizer ↔ rule.kind.OverTokens tokenizer := by
  rw [linkRule]
  split
  · rename_i hkind
    rw [hkind]
    rfl
  · rfl

theorem Graph.isNamed_of_token {text : String} {id : RuleId} (h : tokenizer.token text = .ok id) :
    tokenizer.isNamed id := by
  rw [token] at h
  split at h
  · rename_i found hfound
    obtain rfl := Except.ok.inj h
    have hmatches := List.find?_some hfound
    exact (Bool.and_eq_true_iff.mp hmatches).1
  · cases h

theorem SetItem.isNamed_of_token {item : SetItem} {id : RuleId}
    (h : item.token tokenizer = .ok id) : tokenizer.isNamed id := by
  cases item with
  | text lexeme => exact Graph.isNamed_of_token h
  | range lo hi => cases h

/-- What scripts add over the tokens of a tokenizer matches named tokens. -/
theorem Kind.Drawn.overTokens {kind : Kind RuleId} (h : kind.Drawn (tokenTerminals tokenizer)) :
    kind.OverTokens tokenizer := by
  cases h with
  | @literal text _ h =>
      simp only [tokenTerminals] at h
      cases htoken : tokenizer.token text with
      | error error =>
          rw [htoken] at h
          cases h
      | ok id =>
          rw [htoken] at h
          cases h
          exact Graph.isNamed_of_token htoken
  | set h =>
      obtain ⟨ids, hids, hkind⟩ := Script.ok_of_bind h
      cases hkind
      intro id hid
      -- Sorting adds no id, so each one comes from an item of the set.
      obtain ⟨item, -, hitem⟩ := Script.exists_of_mem_mapM hids (Element.mem_sortedSet.mp hid)
      exact SetItem.isNamed_of_token hitem
  | _ => trivial

/-- The rules that grammars start from match a named token each. -/
theorem tokenBase_overTokens (tokenizer : Graph Char) :
    (tokenBase tokenizer).OverTokens tokenizer := by
  intro rule hrule
  simp only [tokenBase, List.mem_toArray, List.mem_map] at hrule
  obtain ⟨⟨name, id⟩, hnamed, rfl⟩ := hrule
  obtain ⟨_, -, hname⟩ := List.mem_filterMap.mp hnamed
  obtain ⟨_, hname, heq⟩ := Option.map_eq_some_iff.mp hname
  cases heq
  exact Option.isSome_of_eq_some hname

theorem names_tokenBase (tokenizer : Graph Char) : (tokenBase tokenizer).names = tokenizer.names := by
  rw [Graph.names_eq, tokenBase, List.toList_toArray, List.filterMap_map]
  show tokenizer.named.filterMap (some ∘ Prod.fst) = tokenizer.named.map Prod.fst
  rw [List.filterMap_eq_map]

theorem tokenBase_wellFormed (h : tokenizer.names.Nodup) : (tokenBase tokenizer).WellFormed where
  distinct := names_tokenBase tokenizer ▸ h
  edges rule hrule sub hsub := by
    simp only [tokenBase, List.mem_toArray, List.mem_map] at hrule
    obtain ⟨named, -, rfl⟩ := hrule
    exact nomatch hsub
  root _ h := nomatch h

/-- Whatever is compiled over the tokens of a tokenizer matches named tokens of it. -/
theorem overTokens_of_compileSource {loader : Loader} {limit : Nat} {source : Source}
    {compilation : Compilation RuleId}
    (h : (compileSource loader (tokenTerminals tokenizer) limit source).1 = .ok compilation) :
    compilation.graph.OverTokens tokenizer := by
  obtain ⟨vs, graph, hmerge, -, hgraph⟩ := exists_mergeOf_of_compileSource h
  have hmerged : graph.OverTokens tokenizer := by
    refine hmerge.graph_induction (P := (·.OverTokens tokenizer)) ?_ ?_
    · intro _ _ unit hunit rule hrule
      -- A rule is from the base, or drawn from the script.
      rcases (Script.compile_drawn hunit).2 rule hrule with hbase | hdrawn
      · exact tokenBase_overTokens tokenizer rule hbase
      · exact hdrawn.overTokens
    · intro g other hg hother rule hrule
      rcases Graph.exists_of_mem_rules_merge hrule with ⟨origin, horigin, rfl⟩ | ⟨origin, horigin, rfl⟩
      · exact (Graph.overTokens_linkRule _ _).mpr (hg origin horigin)
      · rw [Graph.overTokens_linkRule, Rule.mapSubs, Kind.overTokens_mapSubs]
        exact hother origin horigin
  rw [hgraph]
  intro rule hrule
  obtain ⟨origin, horigin, rfl⟩ := Array.mem_map.mp hrule
  exact (Graph.overTokens_linkRule _ _).mpr (hmerged origin horigin)

theorem wellFormed_of_compileSource {α : Type} {loader : Loader} {terminals : Terminals α} {limit : Nat}
    {source : Source} {compilation : Compilation α} (hbase : terminals.base.WellFormed)
    (h : (compileSource loader terminals limit source).1 = .ok compilation) :
    compilation.graph.WellFormed := by
  obtain ⟨vs, graph, hmerge, -, hgraph⟩ := exists_mergeOf_of_compileSource h
  rw [hgraph]
  exact (hmerge.wellFormed hbase).link

end OverTokens

/-! ## Loads -/

/-- A load that a pipeline can be asked for. -/
inductive Load where
  | tokenizer (script : String)
  | tokenizerFile (path : String)
  | grammar (script : String)
  | grammarFile (path : String)

/-- Whether a tokenizer is to be loaded. -/
def Load.isTokenizer : Load → Bool
  | tokenizer _ | tokenizerFile _ => true
  | grammar _ | grammarFile _ => false

namespace Pipeline

/-- What is called to load it. -/
def call (p : Pipeline) : Load → Call (List Diagnostic)
  | .tokenizer script => callTokenizer (tokenizerScript script)
  | .tokenizerFile path => callTokenizer (p.file path)
  | .grammar script => callGrammar (grammarScript script)
  | .grammarFile path => callGrammar (p.file path)

/-- What a load answers, and the pipeline it leaves, whether it was successful or not. -/
def load (p : Pipeline) (l : Load) : Except PipelineError (List Diagnostic) × Pipeline :=
  let (answer, left, _) := (p.call l).result p
  (answer, left)

/-- The pipeline after a load. -/
def after (p : Pipeline) (l : Load) : Pipeline := (p.load l).2

/-- Graphs are loaded that go together: a grammar only over a tokenizer, and what it matches are named
tokens of that tokenizer. -/
structure Sound (p : Pipeline) : Prop where
  wellFormed : ∀ tokenizer ∈ p.tokenizer, tokenizer.WellFormed
  overTokens : ∀ grammar ∈ p.grammar, ∃ tokenizer ∈ p.tokenizer, grammar.OverTokens tokenizer

/-! ### Calls -/

section Calls

variable {β γ : Type} {p : Pipeline} {source : Except PipelineError Source} {journal : Journal}

/-- A call that is to compile something first has changed nothing yet if that fails. -/
theorem Call.result_compiling_error {compile : Pipeline → Except PipelineError β × Journal}
    {error : PipelineError} (h : compile p = (.error error, journal)) (next : β → Call γ) :
    (Call.compiling compile >>= next).result p = (.error error, p, journal) := by
  have hfirst : StateT.run (ExceptT.run (Call.compiling compile)) (p, #[]) =
      (.error error, p, journal) := by
    show ((compile p).1, p, #[] ++ (compile p).2) = _
    rw [h, Array.empty_append]
  rw [Call.result, ExceptT.run_bind, StateT.run_bind, hfirst]
  rfl

theorem Call.result_compiling_ok {compile : Pipeline → Except PipelineError β × Journal}
    {compiled : β} (h : compile p = (.ok compiled, journal)) (next : β → Call γ) :
    (Call.compiling compile >>= next).result p =
      Id.run (StateT.run (ExceptT.run (next compiled)) (p, journal)) := by
  have hfirst : StateT.run (ExceptT.run (Call.compiling compile)) (p, #[]) =
      (.ok compiled, p, journal) := by
    show ((compile p).1, p, #[] ++ (compile p).2) = _
    rw [h, Array.empty_append]
  rw [Call.result, ExceptT.run_bind, StateT.run_bind, hfirst]
  rfl

theorem result_callTokenizer_ok {compilation : Compilation Char}
    (h : p.compileTokenizer source = (.ok compilation, journal)) :
    (callTokenizer source).result p =
      (.ok compilation.diagnostics, p.installTokenizer compilation.graph,
        if p.grammar.isSome then journal.push .grammarDropped else journal) := by
  rw [callTokenizer, Call.result_compiling_ok h]
  -- Whether a grammar is dropped is asked before the pipeline is changed.
  obtain ⟨settings, loader, tokenizer, grammar⟩ := p
  cases grammar <;> rfl

theorem result_callGrammar_ok {compilation : Compilation RuleId}
    (h : p.compileGrammar source = (.ok compilation, journal)) :
    (callGrammar source).result p =
      (.ok compilation.diagnostics, p.installGrammar compilation.graph, journal) := by
  rw [callGrammar, Call.result_compiling_ok h]
  rfl

theorem call_cases (p : Pipeline) (l : Load) :
    ∃ source, (l.isTokenizer ∧ p.call l = callTokenizer source) ∨
      (l.isTokenizer = false ∧ p.call l = callGrammar source) := by
  cases l with
  | tokenizer script => exact ⟨_, .inl ⟨rfl, rfl⟩⟩
  | tokenizerFile path => exact ⟨_, .inl ⟨rfl, rfl⟩⟩
  | grammar script => exact ⟨_, .inr ⟨rfl, rfl⟩⟩
  | grammarFile path => exact ⟨_, .inr ⟨rfl, rfl⟩⟩

end Calls

/-! ### One load -/

section Load

variable {p : Pipeline} {source : Except PipelineError Source} {l : Load}
variable {diagnostics : List Diagnostic}

theorem exists_of_compileLoaded {α : Type} {terminals : Terminals α} {compilation : Compilation α}
    (h : (p.compileLoaded terminals source).1 = .ok compilation) :
    ∃ s, (compileSource p.loader terminals p.settings.maxDepth s).1 = .ok compilation := by
  cases source with
  | ok s => exact ⟨s, h⟩
  | error error => cases h

/-- A grammar that compiles was compiled over the tokenizer. -/
theorem compileGrammar_eq_ok {compilation : Compilation RuleId}
    (h : (p.compileGrammar source).1 = .ok compilation) :
    ∃ tokenizer ∈ p.tokenizer,
      (p.compileLoaded (tokenTerminals tokenizer) source).1 = .ok compilation := by
  rw [compileGrammar, loadedTokenizer] at h
  cases htokenizer : p.tokenizer with
  | none =>
      rw [htokenizer] at h
      cases h
  | some tokenizer =>
      rw [htokenizer] at h
      exact ⟨tokenizer, rfl, h⟩

/-- A load compiles something and puts it in place, or it comes to an error before it has put anything
in place. -/
theorem load_cases (p : Pipeline) (l : Load) :
    (∃ error, p.load l = (.error error, p)) ∨
    (∃ source compilation, l.isTokenizer ∧ (p.compileTokenizer source).1 = .ok compilation ∧
      p.load l = (.ok compilation.diagnostics, p.installTokenizer compilation.graph)) ∨
    ∃ source compilation, l.isTokenizer = false ∧ (p.compileGrammar source).1 = .ok compilation ∧
      p.load l = (.ok compilation.diagnostics, p.installGrammar compilation.graph) := by
  obtain ⟨source, ⟨hl, hcall⟩ | ⟨hl, hcall⟩⟩ := p.call_cases l
  · rcases hcompile : p.compileTokenizer source with ⟨error | compilation, journal⟩
    · refine .inl ⟨error, ?_⟩
      rw [load, hcall, callTokenizer, Call.result_compiling_error hcompile]
    · refine .inr (.inl ⟨source, compilation, hl, congrArg Prod.fst hcompile, ?_⟩)
      rw [load, hcall, result_callTokenizer_ok hcompile]
  · rcases hcompile : p.compileGrammar source with ⟨error | compilation, journal⟩
    · refine .inl ⟨error, ?_⟩
      rw [load, hcall, callGrammar, Call.result_compiling_error hcompile]
    · refine .inr (.inr ⟨source, compilation, hl, congrArg Prod.fst hcompile, ?_⟩)
      rw [load, hcall, result_callGrammar_ok hcompile]

/-- A load that fails leaves the pipeline, graphs and all. -/
theorem after_of_load_error {error : PipelineError} (h : (p.load l).1 = .error error) :
    p.after l = p := by
  rw [after]
  rcases p.load_cases l with ⟨_, hload⟩ | ⟨_, _, -, -, hload⟩ | ⟨_, _, -, -, hload⟩
  · rw [hload]
  · rw [hload] at h
    cases h
  · rw [hload] at h
    cases h

/-- What a load that succeeds does to the graphs. -/
theorem after_of_load_ok (h : (p.load l).1 = .ok diagnostics) :
    if l.isTokenizer then (p.after l).tokenizer.isSome ∧ (p.after l).grammar = none
    else (p.after l).tokenizer = p.tokenizer ∧ (p.after l).grammar.isSome := by
  rw [after]
  rcases p.load_cases l with ⟨_, hload⟩ | ⟨_, _, hl, -, hload⟩ | ⟨_, _, hl, -, hload⟩
  · rw [hload] at h
    cases h
  · rw [if_pos hl, hload]
    exact ⟨rfl, rfl⟩
  · rw [hl, hload]
    exact ⟨rfl, rfl⟩

/-- A tokenizer that compiles goes with no grammar, and none is left. -/
theorem sound_installTokenizer {compilation : Compilation Char}
    (h : (p.compileTokenizer source).1 = .ok compilation) :
    (p.installTokenizer compilation.graph).Sound := by
  obtain ⟨s, hcompile⟩ := exists_of_compileLoaded h
  refine ⟨fun tokenizer htokenizer => ?_, fun _ hgrammar => nomatch hgrammar⟩
  obtain rfl := Option.some.inj htokenizer
  exact wellFormed_of_compileSource Graph.empty_wellFormed hcompile

theorem Sound.installGrammar {compilation : Compilation RuleId} (hp : p.Sound)
    (h : (p.compileGrammar source).1 = .ok compilation) :
    (p.installGrammar compilation.graph).Sound := by
  obtain ⟨tokenizer, htokenizer, h⟩ := compileGrammar_eq_ok h
  obtain ⟨s, hcompile⟩ := exists_of_compileLoaded h
  refine ⟨hp.wellFormed, fun grammar hgrammar => ⟨tokenizer, htokenizer, ?_⟩⟩
  obtain rfl := Option.some.inj hgrammar
  exact overTokens_of_compileSource hcompile

theorem Sound.after (hp : p.Sound) (l : Load) : (p.after l).Sound := by
  rw [Pipeline.after]
  rcases p.load_cases l with ⟨_, hload⟩ | ⟨_, _, -, hcompile, hload⟩ | ⟨_, _, -, hcompile, hload⟩
  · rwa [hload]
  · rw [hload]
    exact sound_installTokenizer hcompile
  · rw [hload]
    exact hp.installGrammar hcompile

end Load

/-! ### Any loads -/

/-- A pipeline after any number of loads, starting with nothing loaded. -/
def afterAll (settings : Settings) (loader : Loader) (loads : List Load) : Pipeline :=
  loads.foldl after { settings := settings, loader := loader }

theorem sound_afterAll (settings : Settings) (loader : Loader) (loads : List Load) :
    (afterAll settings loader loads).Sound := by
  have hstart : Sound { settings := settings, loader := loader } :=
    ⟨fun _ h => (nomatch h), fun _ h => nomatch h⟩
  exact List.foldlRecOn loads after hstart fun _ hp l _ => hp.after l

/-- **Whatever a pipeline has been asked to load**, a grammar is loaded only while a tokenizer is, and
what the rules of the grammar match are named rules of that tokenizer.  A tokenizer that loads next
leaves no grammar, a grammar that loads leaves the tokenizer, and what does not load leaves both. -/
theorem afterAll_keeps (settings : Settings) (loader : Loader) (loads : List Load) :
    let p := afterAll settings loader loads
    (∀ grammar ∈ p.grammar, ∃ tokenizer ∈ p.tokenizer, grammar.OverTokens tokenizer) ∧
    (∀ l diagnostics, (p.load l).1 = .ok diagnostics →
      if l.isTokenizer then (p.after l).tokenizer.isSome ∧ (p.after l).grammar = none
      else (p.after l).tokenizer = p.tokenizer ∧ (p.after l).grammar.isSome) ∧
    ∀ l error, (p.load l).1 = .error error →
      (p.after l).tokenizer = p.tokenizer ∧ (p.after l).grammar = p.grammar := by
  intro p
  refine ⟨(sound_afterAll settings loader loads).overTokens, fun l diagnostics h => ?_,
    fun l error h => ?_⟩
  · exact after_of_load_ok h
  · rw [after_of_load_error h]
    exact ⟨rfl, rfl⟩

/-- A tokenizer and a grammar over it. -/
def wordLoads : List Load := [.tokenizer "tokens = *a; a = 'a';", .grammar "word = 'a';"]

/-- A grammar that names a token that there is not leaves both graphs, and the next tokenizer leaves no
grammar. -/
theorem wordLoads_keeps :
    let p := afterAll { maxDepth := 64 } (.ofTable []) wordLoads
    (∃ grammar ∈ p.grammar, ∃ tokenizer ∈ p.tokenizer, grammar.OverTokens tokenizer) ∧
    (∃ diagnostics, (p.load (.tokenizer "tokens = 'b';")).1 = .ok diagnostics ∧
      (p.after (.tokenizer "tokens = 'b';")).grammar = none) ∧
    ∃ error, (p.load (.grammar "word = 'b';")).1 = .error error ∧
      (p.after (.grammar "word = 'b';")).tokenizer = p.tokenizer ∧
      (p.after (.grammar "word = 'b';")).grammar = p.grammar := by
  intro p
  obtain ⟨hover, hloaded, hfailed⟩ := afterAll_keeps { maxDepth := 64 } (.ofTable []) wordLoads
  obtain ⟨⟨grammar, hgrammar, -⟩, ⟨diagnostics, hok, -⟩, herror⟩ :
      (∃ grammar ∈ p.grammar, grammar.rules.size = 3) ∧
      (∃ diagnostics ∈ (p.load (.tokenizer "tokens = 'b';")).1.toOption, diagnostics = []) ∧
      (p.load (.grammar "word = 'b';")).1.toOption = none := by
    decide +kernel
  have hok := ok_of_mem_toOption hok
  refine ⟨⟨grammar, hgrammar, hover grammar hgrammar⟩,
    ⟨diagnostics, hok, (hloaded _ diagnostics hok).2⟩, ?_⟩
  -- The grammar asks for a letter that is no token, so it cannot be loaded.
  cases hload : (p.load (.grammar "word = 'b';")).1 with
  | error error => exact ⟨error, rfl, hfailed _ error hload⟩
  | ok diagnostics =>
      rw [hload] at herror
      cases herror

end Pipeline

end RuleScript
