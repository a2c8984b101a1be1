import RuleScript.Proofs.Match.Resolved
import RuleScript.Proofs.Pipeline.Loads

/-!
# Names mean the same everywhere

A reference that is resolved inside an included script points at a rule of that script.  When the script
is merged into others, the name may come to belong to another rule, which was there before.  A merge
then moves the reference along, and no reference is left behind that points at a rule other than the one
its name leads to (`Graph.PointsByName`).  So in whatever compiles, all references with one name point
at one rule, except for those out of reach that point at none (`Pipeline.afterAll_coherent`).

Only references that were written are meant.  The one that stands for the inner rule of a declaration
with two markers is labelled with the number of that rule, which is no name.
-/

namespace RuleScript

/-! ## References that point by name -/

namespace Graph

variable {α : Type} {g other : Graph α}

/-- A reference was written by a script; or it stands for the inner rule of a declaration, and always
points at that. -/
def IsWrittenOrInner (target : String) (subject : Option RuleId) : Prop :=
  IsIdentifier target ∨ '#' ∈ target.toList ∧ subject.isSome

/-- Where a reference that a script wrote points at a rule, that rule has the name. -/
structure PointsByName (g : Graph α) : Prop where
  written : ∀ rule ∈ g.rules, ∀ target subject, rule.kind = .reference target subject →
    IsWrittenOrInner target subject
  points : ∀ rule ∈ g.rules, ∀ target id, rule.kind = .reference target (some id) →
    IsIdentifier target → g.idOf? target = some id

/-- After a reference was looked up, it points where it did before or at the rule that has the name. -/
theorem linkRule_reference {rule : Rule α} {target : String} {id : RuleId}
    (h : (g.linkRule rule).kind = .reference target (some id)) :
    rule.kind = .reference target (some id) ∨ g.idOf? target = some id := by
  rw [linkRule] at h
  split at h
  · injection h with htarget hid
    exact .inr (htarget ▸ hid)
  · exact .inl h

/-- What a script wrote is still that after it was looked up, and so is what stands for an inner rule. -/
theorem isWrittenOrInner_linkRule {rule : Rule α} {target : String} {subject : Option RuleId}
    (h : ∀ target subject, rule.kind = .reference target subject → IsWrittenOrInner target subject)
    (hlink : (g.linkRule rule).kind = .reference target subject) : IsWrittenOrInner target subject := by
  rw [linkRule] at hlink
  split at hlink
  · rename_i name hkind
    injection hlink with htarget hsubject
    -- What is looked up has pointed at nothing so far, so a script wrote it.
    exact .inl (htarget ▸ (h name none hkind).resolve_right fun hinner => Bool.false_ne_true hinner.2)
  · exact h target subject hlink

theorem PointsByName.link (h : g.PointsByName) : g.link.PointsByName where
  written rule hrule target subject hkind := by
    obtain ⟨origin, horigin, rfl⟩ := Array.mem_map.mp hrule
    exact isWrittenOrInner_linkRule (h.written origin horigin) hkind
  points rule hrule target id hkind htarget := by
    obtain ⟨origin, horigin, rfl⟩ := Array.mem_map.mp hrule
    rw [idOf?_link]
    rcases linkRule_reference hkind with hkind | hfound
    · exact h.points origin horigin target id hkind htarget
    · exact hfound

theorem isWrittenOrInner_mapSubs {kind : Kind α} {f : RuleId → RuleId} {target : String}
    {subject : Option RuleId}
    (h : ∀ target subject, kind = .reference target subject → IsWrittenOrInner target subject)
    (hkind : kind.mapSubs f = .reference target subject) : IsWrittenOrInner target subject := by
  cases kind with
  | reference name subject? =>
      injection hkind with hname hsubject
      rw [IsWrittenOrInner, ← hname, ← hsubject, Option.isSome_map]
      exact h name subject? rfl
  | _ => cases hkind

theorem exists_of_mapSubs_eq_reference {kind : Kind α} {f : RuleId → RuleId} {target : String}
    {id : RuleId} (h : kind.mapSubs f = .reference target (some id)) :
    ∃ subject, kind = .reference target (some subject) ∧ f subject = id := by
  cases kind with
  | reference name subject? =>
      injection h with hname hsubject
      obtain ⟨subject, rfl, hid⟩ := Option.map_eq_some_iff.mp hsubject
      exact ⟨subject, by rw [hname], hid⟩
  | _ => cases h

/-- **A merge leaves no reference behind**: one of the merged graph moves along with its name. -/
theorem PointsByName.merge (hg : g.WellFormed) (hother : other.WellFormed) (h : g.PointsByName)
    (h' : other.PointsByName) : (g.merge other).2.PointsByName where
  written rule hrule target subject hkind := by
    rcases exists_of_mem_rules_merge hrule with ⟨origin, horigin, rfl⟩ | ⟨origin, horigin, rfl⟩
    · exact isWrittenOrInner_linkRule (h.written origin horigin) hkind
    · refine isWrittenOrInner_linkRule (fun target subject hkind => ?_) hkind
      exact isWrittenOrInner_mapSubs (h'.written origin horigin) hkind
  points rule hrule target id hkind htarget := by
    rcases exists_of_mem_rules_merge hrule with ⟨origin, horigin, rfl⟩ | ⟨origin, horigin, rfl⟩
    · rcases linkRule_reference hkind with hkind | hfound
      · exact idOf?_merge_left hg hother (h.points origin horigin target id hkind htarget)
      · exact hfound
    · rcases linkRule_reference hkind with hkind | hfound
      · obtain ⟨subject, horiginal, rfl⟩ := exists_of_mapSubs_eq_reference hkind
        exact idOf?_merge_mapped hg hother (h'.points origin horigin target subject horiginal htarget)
      · exact hfound

/-- Every reference is one that a script wrote or stands for the inner rule of a declaration.  One that
a script wrote points at the rule that its name leads to; or it points at no rule, and then no match
comes to it. -/
structure Coherent (g : Graph α) : Prop where
  written : ∀ id rule target subject, g.rule? id = some rule →
    rule.kind = .reference target subject → IsWrittenOrInner target subject
  byName : ∀ id rule target subject, g.rule? id = some rule → rule.kind = .reference target subject →
    IsIdentifier target →
      (subject = none ∧ ¬ g.FromRoot id) ∨ ∃ sub, subject = some sub ∧ g.idOf? target = some sub

/-- Nothing in reach of the root of a graph that was resolved asks for a name. -/
theorem not_asks_of_resolve (hg : g.WellFormed) (h : g.resolve.1 = .ok ()) (id : RuleId)
    (name : String) : ¬ g.link.Asks id name := by
  rintro ⟨⟨root, hroot, hreaches⟩, hkind⟩
  have hmem : name ∈ g.link.pendingNames g.link.relevant :=
    (mem_pendingNames_relevant (Option.isSome_of_eq_some hroot) hg.link).mpr
      ⟨id, ⟨root, hroot, hreaches⟩, hkind⟩
  rw [resolve_eq_ok_iff.mp h] at hmem
  exact nomatch hmem

theorem PointsByName.coherent (h : g.PointsByName) (hg : g.WellFormed)
    (hresolve : g.resolve.1 = .ok ()) : g.link.Coherent where
  written id rule target subject hrule hkind :=
    h.link.written rule (Array.mem_of_getElem? hrule) target subject hkind
  byName id rule target subject hrule hkind htarget := by
    cases subject with
    | none =>
        refine .inl ⟨rfl, fun hid => not_asks_of_resolve hg hresolve id target ⟨hid, ?_⟩⟩
        rw [kind?_eq_some hrule, hkind]
    | some sub =>
        exact .inr ⟨sub, rfl, h.link.points rule (Array.mem_of_getElem? hrule) target sub hkind htarget⟩

end Graph

/-! ## What compiles -/

section Compiled

variable {α : Type} {terminals : Terminals α} {loader : Loader} {limit : Nat} {source : Source}

/-- A reference that is drawn points at nothing if it is for a name; otherwise it stands for the inner
rule of a declaration. -/
theorem Kind.Drawn.reference_cases {kind : Kind α} (h : kind.Drawn terminals)
    (hterminals : terminals.Plain) {target : String} {subject : Option RuleId}
    (hkind : kind = .reference target subject) :
    IsIdentifier target ∧ subject = none ∨ '#' ∈ target.toList ∧ subject.isSome := by
  -- Only names and inner rules are drawn as references.
  cases h with
  | literal h =>
      have hterminal := hterminals.literal _ _ h
      rw [hkind] at hterminal
      cases hterminal
  | set h =>
      have hterminal := hterminals.set _ _ h
      rw [hkind] at hterminal
      cases hterminal
  | name h =>
      injection hkind with htarget hsubject
      exact .inl ⟨htarget ▸ h, hsubject.symm⟩
  | inner h id =>
      injection hkind with htarget hsubject
      exact .inr ⟨htarget ▸ h, hsubject ▸ rfl⟩
  | _ => cases hkind

/-- What a unit compiles to by itself points at rules by their names, if what it starts from does. -/
theorem pointsByName_of_compile {unit text : String} {compiled : CompiledUnit α}
    (hterminals : terminals.Plain) (hstart : ∀ rule ∈ terminals.base.rules, rule.kind.isTerminal)
    (h : (compile terminals unit text limit).1 = .ok compiled) :
    compiled.graph.PointsByName := by
  have hcases (rule : Rule α) (hrule : rule ∈ compiled.graph.rules) (target : String)
      (subject : Option RuleId) (hkind : rule.kind = .reference target subject) :
      IsIdentifier target ∧ subject = none ∨ '#' ∈ target.toList ∧ subject.isSome := by
    rcases (Script.compile_drawn h).2 rule hrule with hmem | hdrawn
    · have hterminal := hstart rule hmem
      rw [hkind] at hterminal
      cases hterminal
    · exact hdrawn.reference_cases hterminals hkind
  refine ⟨fun rule hrule target subject hkind => ?_, fun rule hrule target id hkind htarget => ?_⟩
  · rcases hcases rule hrule target subject hkind with ⟨htarget, -⟩ | hinner
    · exact .inl htarget
    · exact .inr hinner
  · rcases hcases rule hrule target (some id) hkind with ⟨-, hnone⟩ | ⟨hhash, -⟩
    · cases hnone
    · exact absurd hhash htarget.hash_not_mem

/-- **Names mean the same in all that a source includes**, if they do in the rules that its units start
from. -/
theorem coherent_of_compileSource {compilation : Compilation α} (hterminals : terminals.Plain)
    (hbase : terminals.base.WellFormed) (hstart : ∀ rule ∈ terminals.base.rules, rule.kind.isTerminal)
    (h : (compileSource loader terminals limit source).1 = .ok compilation) :
    compilation.graph.Coherent := by
  obtain ⟨vs, graph, hmerge, hresolve, hgraph⟩ := exists_mergeOf_of_compileSource h
  have hboth : graph.WellFormed ∧ graph.PointsByName := by
    refine hmerge.graph_induction (P := fun g => g.WellFormed ∧ g.PointsByName) ?_ ?_
    · intro _ _ unit hunit
      exact ⟨(Script.compile_drawn hunit).1 hbase, pointsByName_of_compile hterminals hstart hunit⟩
    · intro g other hg hother
      exact ⟨hg.1.merge hother.1, hg.2.merge hg.1 hother.1 hother.2⟩
  rw [hgraph]
  exact hboth.2.coherent hboth.1 hresolve

end Compiled

namespace Pipeline

/-- A tokenizer means the same by a name everywhere. -/
theorem coherent_of_compileTokenizer {p : Pipeline} {source : Except PipelineError Source}
    {compilation : Compilation Char} (h : (p.compileTokenizer source).1 = .ok compilation) :
    compilation.graph.Coherent := by
  obtain ⟨s, hcompile⟩ := exists_of_compileLoaded h
  exact coherent_of_compileSource Script.charTerminals_plain Graph.empty_wellFormed
    (fun _ hrule => nomatch hrule) hcompile

/-- So does a grammar, over whatever tokens. -/
theorem coherent_of_compileTokens {p : Pipeline} {source : Except PipelineError Source}
    {tokenizer : Graph Char} (hwell : tokenizer.WellFormed) {compilation : Compilation RuleId}
    (h : (p.compileLoaded (tokenTerminals tokenizer) source).1 = .ok compilation) :
    compilation.graph.Coherent := by
  obtain ⟨s, hcompile⟩ := exists_of_compileLoaded h
  refine coherent_of_compileSource (Script.tokenTerminals_plain tokenizer)
    (tokenBase_wellFormed hwell.distinct) (fun rule hrule => ?_) hcompile
  obtain ⟨named, -, rfl⟩ := List.mem_map.mp (List.mem_toArray.mp hrule)
  rfl

/-- **Names mean the same everywhere** in a tokenizer or a grammar that compiles, whatever sources there
are: in a grammar over any well-formed tokenizer, and so in one over the tokenizer that a pipeline has
been asked to load. -/
theorem afterAll_coherent (settings : Settings) (loader : Loader) (loads : List Load)
    (source : Except PipelineError Source) :
    (∀ compilation, ((afterAll settings loader loads).compileTokenizer source).1 = .ok compilation →
        compilation.graph.Coherent) ∧
      (∀ compilation, ((afterAll settings loader loads).compileGrammar source).1 = .ok compilation →
        compilation.graph.Coherent) ∧
      ∀ tokenizer : Graph Char, tokenizer.WellFormed → ∀ compilation,
        ((afterAll settings loader loads).compileLoaded (tokenTerminals tokenizer) source).1 =
          .ok compilation → compilation.graph.Coherent := by
  refine ⟨fun compilation => coherent_of_compileTokenizer, fun compilation h => ?_,
    fun tokenizer hwell compilation => coherent_of_compileTokens hwell⟩
  obtain ⟨tokenizer, htokenizer, h⟩ := compileGrammar_eq_ok h
  exact coherent_of_compileTokens
    ((sound_afterAll settings loader loads).wellFormed tokenizer htokenizer) h

/-- A script with a digit of its own. -/
def binaryScript : Source := ⟨"binary", "all = number, digit; digit = '0'; include 'numbers';"⟩

/-- What it includes, where the same name stood for another digit. -/
def numbersLoader : Loader := .ofTable [("numbers", "number = +digit; digit = '1';")]

/-- Tokens for both digits. -/
def digitTokens : Graph Char where
  rules := #[Rule.named "zero" (.ofKind (.single '0')), Rule.named "one" (.ofKind (.single '1'))]

theorem digitTokens_wellFormed : digitTokens.WellFormed where
  distinct := by decide
  edges := by decide
  root _ h := nomatch h

/-- The included digit is shadowed, and what was repeated as a number is the other digit now. -/
theorem binaryScript_coherent :
    let p := afterAll { maxDepth := 64 } numbersLoader []
    (∃ compilation, (p.compileTokenizer (.ok binaryScript)).1 = .ok compilation ∧
      compilation.graph.Coherent ∧
      compilation.graph.idOf? "digit" = some ⟨3⟩ ∧
      compilation.graph.kind? ⟨1⟩ = some (.reference "digit" (some ⟨3⟩)) ∧
      compilation.graph.kind? ⟨4⟩ = some (.reference "digit" (some ⟨3⟩)) ∧
      compilation.graph.kind? ⟨5⟩ = some (.count ⟨4⟩ 1 0)) ∧
    digitTokens.WellFormed ∧ ∃ compilation,
      (p.compileLoaded (tokenTerminals digitTokens) (.ok binaryScript)).1 = .ok compilation ∧
      compilation.graph.Coherent ∧
      compilation.graph.kind? ⟨3⟩ = some (.reference "digit" (some ⟨5⟩)) ∧
      compilation.graph.kind? ⟨6⟩ = some (.reference "digit" (some ⟨5⟩)) := by
  intro p
  -- The digits of the script come before those that are included, which are shadowed.
  obtain ⟨⟨compilation, hcompile, hshadowed⟩, compilation', hcompile', hshadowed'⟩ :
      (∃ compilation ∈ (p.compileTokenizer (.ok binaryScript)).1.toOption,
        compilation.graph.idOf? "digit" = some ⟨3⟩ ∧
        compilation.graph.kind? ⟨1⟩ = some (.reference "digit" (some ⟨3⟩)) ∧
        compilation.graph.kind? ⟨4⟩ = some (.reference "digit" (some ⟨3⟩)) ∧
        compilation.graph.kind? ⟨5⟩ = some (.count ⟨4⟩ 1 0)) ∧
      ∃ compilation ∈ (p.compileLoaded (tokenTerminals digitTokens) (.ok binaryScript)).1.toOption,
        compilation.graph.kind? ⟨3⟩ = some (.reference "digit" (some ⟨5⟩)) ∧
        compilation.graph.kind? ⟨6⟩ = some (.reference "digit" (some ⟨5⟩)) := by
    decide +kernel
  have hok := ok_of_mem_toOption hcompile
  have hok' := ok_of_mem_toOption hcompile'
  obtain ⟨hcoherent, -, hover⟩ := afterAll_coherent { maxDepth := 64 } numbersLoader [] (.ok binaryScript)
  exact ⟨⟨compilation, hok, hcoherent compilation hok, hshadowed⟩, digitTokens_wellFormed, compilation',
    hok', hover digitTokens digitTokens_wellFormed compilation' hok', hshadowed'⟩

end Pipeline

end RuleScript
