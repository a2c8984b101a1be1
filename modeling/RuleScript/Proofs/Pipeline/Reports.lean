import RuleScript.Pipeline.Basic
import RuleScript.Proofs.Match.Tokens

/-!
# What parsing a text reports

A text is split into tokens and the tokens are matched; whatever either phase has to say becomes a
diagnostic with a place in the text.  There are few ways for a parse to end (`Pipeline.ParsesTo`), and all
statements below go through them.

* Reports are complete and well placed (`Pipeline.parse_reports`): a parse that does not succeed has an
  error among its diagnostics and one that does has none, the diagnostics are in the order of their
  places, and no place reaches past the end of the text.  What is told in tokens is brought into the text
  by `Tokenized.charSpan_within`, wherever a log entry has looked.
* A success means that both phases matched everything (`Pipeline.success_matches`), with one exception.
  That the tokenizer failed is told from nothing having been consumed, and of an empty text nothing is
  left to be consumed either.
-/

namespace RuleScript

/-! ## Severities -/

theorem Severity.le_worse_iff {level a b : Severity} : level ≤ a.worse b ↔ level ≤ a ∨ level ≤ b := by
  have hle (a b : Severity) : a ≤ b ↔ a.rank ≤ b.rank := Iff.rfl
  unfold worse
  split <;> simp only [hle] at * <;> omega

namespace Diagnostic

variable {level : Severity}

theorem le_foldl_worse_iff (ds : List Diagnostic) (start : Severity) :
    level ≤ ds.foldl (fun worst e => worst.worse e.severity) start ↔
      level ≤ start ∨ ∃ d ∈ ds, level ≤ d.severity := by
  induction ds generalizing start with
  | nil => simp
  | cons d ds ih => simp [ih, Severity.le_worse_iff, or_assoc]

theorem anyAtLeast_iff {ds : List Diagnostic} : anyAtLeast ds level ↔ ∃ d ∈ ds, level ≤ d.severity := by
  unfold anyAtLeast
  cases ds with
  | nil => simp [maxSeverity?]
  | cons d ds => simp [maxSeverity?, le_foldl_worse_iff]

theorem anyAtLeast_eq_false_iff {ds : List Diagnostic} :
    anyAtLeast ds level = false ↔ ∀ d ∈ ds, ¬ level ≤ d.severity := by
  rw [← Bool.not_eq_true, anyAtLeast_iff, not_exists]
  simp only [not_and]

end Diagnostic

/-- The root of a graph matches an input, all of it. -/
def Graph.MatchesAll {α : Type} [Element α] (g : Graph α) (input : Array α) (limit : Nat) : Prop :=
  ∃ nodes, (g.matchRoot input limit).1 = .ok (.success input.size nodes)

namespace Pipeline

/-! ## Texts that were split into tokens -/

namespace TokenizedText

variable {t : TokenizedText} {tokenizer : Graph Char} {grammar : Graph RuleId} {outcome : Outcome}
variable {farthest : Nat}

theorem mem_inOrder {ds : List Diagnostic} {d : Diagnostic} : d ∈ inOrder ds ↔ d ∈ ds :=
  List.mem_mergeSort

/-- Diagnostics put in order are in the order of their places. -/
theorem inOrder_pairwise (ds : List Diagnostic) :
    (inOrder ds).Pairwise fun d e => d.location.span.start ≤ e.location.span.start := by
  have hsorted : (inOrder ds).Pairwise fun d e =>
      decide (d.location.span.start ≤ e.location.span.start) := by
    refine List.pairwise_mergeSort ?_ ?_ ds
    · intro d e f hde hef
      simp only [decide_eq_true_eq] at *
      omega
    · intro d e
      simp only [Bool.or_eq_true, decide_eq_true_eq]
      omega
  exact hsorted.imp fun h => by simpa using h

/-! ### Places -/

theorem tokenDiagnostics_within (h : t.tokens.Within t.chars.size) {d : Diagnostic}
    (hd : d ∈ t.tokenDiagnostics) : d.location.span.Within 0 t.chars.size := by
  unfold tokenDiagnostics at hd
  rcases List.mem_append.mp hd with hd | hd
  · obtain ⟨entry, hentry, rfl⟩ := List.mem_map.mp hd
    exact h.logs entry hentry
  · split at hd
    · rename_i c hc
      obtain rfl := List.mem_singleton.mp hd
      obtain ⟨hlt, -⟩ := Array.getElem?_eq_some_iff.mp hc
      exact ⟨Nat.zero_le _, hlt⟩
    · cases hd

theorem grammarDiagnostics_within (h : t.tokens.Within t.chars.size) {d : Diagnostic}
    (hd : d ∈ t.grammarDiagnostics tokenizer grammar outcome farthest) :
    d.location.span.Within 0 t.chars.size := by
  unfold grammarDiagnostics at hd
  rcases List.mem_append.mp hd with hd | hd
  · obtain ⟨entry, -, rfl⟩ := List.mem_map.mp hd
    exact Tokenized.charSpan_within h entry.span
  · split at hd
    · cases hd
    · obtain rfl := List.mem_singleton.mp hd
      exact Tokenized.charSpan_within h _

/-- Every diagnostic of a text is about a place in the text. -/
theorem output_within (h : t.tokens.Within t.chars.size) {d : Diagnostic}
    (hd : d ∈ (t.output tokenizer grammar outcome farthest).diagnostics) :
    d.location.span.Within 0 t.chars.size := by
  rcases List.mem_append.mp (mem_inOrder.mp hd) with hd | hd
  · exact tokenDiagnostics_within h hd
  · exact grammarDiagnostics_within h hd

/-- An abort is told at a place in the text, whatever place among the tokens it had. -/
theorem abortInChars_within (h : t.tokens.Within t.chars.size) (cause : Abort) :
    (t.abortInChars cause).InBounds 0 t.chars.size := by
  cases cause with
  | fatal message span => exact Tokenized.charSpan_within h span
  | depthExceeded limit pos =>
      obtain ⟨-, hstop⟩ := Tokenized.charSpan_within h (.empty pos)
      exact ⟨Nat.zero_le _, Nat.le_trans (Span.start_le_stop _) hstop⟩
  | unresolvedReference name => trivial
  | missingRoot => trivial

/-! ### Success -/

theorem isComplete_iff : t.isComplete outcome ↔ ∃ nodes, outcome = .success t.tokens.kinds.size nodes := by
  have hsize : t.tokens.kinds.size = t.tokens.tokens.size := Array.size_map
  unfold isComplete
  rw [hsize]
  cases outcome with
  | failure => simp [Outcome.isSuccess]
  | success len nodes => simp [Outcome.isSuccess, Outcome.len]

theorem exists_error_of_len_lt (h : t.tokens.len < t.chars.size) :
    ∃ d ∈ t.tokenDiagnostics, Severity.error ≤ d.severity := by
  unfold tokenDiagnostics
  rw [Array.getElem?_eq_getElem h]
  exact ⟨_, List.mem_append_right _ List.mem_cons_self, Nat.le_refl _⟩

theorem exists_error_of_not_isComplete (tokenizer : Graph Char) (grammar : Graph RuleId)
    (farthest : Nat) (h : t.isComplete outcome = false) :
    ∃ d ∈ t.grammarDiagnostics tokenizer grammar outcome farthest, Severity.error ≤ d.severity := by
  unfold grammarDiagnostics
  rw [h]
  exact ⟨_, List.mem_append_right _ List.mem_cons_self, Nat.le_refl _⟩

theorem success_output_iff : (t.output tokenizer grammar outcome farthest).success ↔
    t.isComplete outcome ∧ t.tokens.len = t.chars.size ∧
      ∀ d ∈ (t.output tokenizer grammar outcome farthest).diagnostics,
        ¬ Severity.error ≤ d.severity := by
  rw [← Diagnostic.anyAtLeast_eq_false_iff]
  simp [output, and_assoc]

/-- There is success if nothing is reported as an error: each way to fall short reports one. -/
theorem success_output_iff_no_error (h : t.tokens.Within t.chars.size) :
    (t.output tokenizer grammar outcome farthest).success ↔
      ∀ d ∈ (t.output tokenizer grammar outcome farthest).diagnostics,
        ¬ Severity.error ≤ d.severity := by
  rw [success_output_iff]
  constructor
  · rintro ⟨-, -, hnone⟩
    exact hnone
  · intro hnone
    refine ⟨?_, ?_, hnone⟩
    · by_contra hincomplete
      obtain ⟨d, hd, herror⟩ := exists_error_of_not_isComplete tokenizer grammar farthest
        (Bool.eq_false_iff.mpr hincomplete)
      exact hnone d (mem_inOrder.mpr (List.mem_append_right _ hd)) herror
    · by_contra hlen
      obtain ⟨d, hd, herror⟩ := exists_error_of_len_lt (Nat.lt_of_le_of_ne h.len hlen)
      exact hnone d (mem_inOrder.mpr (List.mem_append_left _ hd)) herror

end TokenizedText

/-! ## How a parse ends -/

variable {p : Pipeline} {text : String}

/-- What parsing a text can come to, and how. -/
inductive ParsesTo (p : Pipeline) (text : String) : Except PipelineError ParseOutput → Prop
  | notLoaded (phase : Phase) : ParsesTo p text (.error (.notLoaded phase))
  | notSplit {tokenizer : Graph Char} {cause : Abort} (htokenizer : tokenizer ∈ p.tokenizer)
      (h : (tokenizer.tokenize text.toList.toArray p.settings.maxDepth).1 = .error cause) :
      ParsesTo p text (.error (.aborted cause))
  | stopped {tokenizer : Graph Char} {grammar : Graph RuleId} {tokens : Tokenized} {cause : Abort}
      (htokenizer : tokenizer ∈ p.tokenizer) (hgrammar : grammar ∈ p.grammar)
      (h : (tokenizer.tokenize text.toList.toArray p.settings.maxDepth).1 = .ok tokens)
      (hmatch : (grammar.matchRoot tokens.kinds p.settings.maxDepth).1 = .error cause) :
      ParsesTo p text (.error (.aborted
        (TokenizedText.abortInChars ⟨text.toList.toArray, .ofText text, tokens⟩ cause)))
  | matched {tokenizer : Graph Char} {grammar : Graph RuleId} {tokens : Tokenized} {outcome : Outcome}
      {trace : Trace} (htokenizer : tokenizer ∈ p.tokenizer) (hgrammar : grammar ∈ p.grammar)
      (h : (tokenizer.tokenize text.toList.toArray p.settings.maxDepth).1 = .ok tokens)
      (hmatch : grammar.matchRoot tokens.kinds p.settings.maxDepth = (.ok outcome, trace)) :
      ParsesTo p text (p.accept (TokenizedText.output ⟨text.toList.toArray, .ofText text, tokens⟩
        tokenizer grammar outcome trace.farthest))

theorem parsesTo_parse (p : Pipeline) (text : String) : p.ParsesTo text (p.parse text).1 := by
  unfold parse loadedTokenizer loadedGrammar
  cases htokenizer : p.tokenizer with
  | none => exact .notLoaded .tokenizer
  | some tokenizer =>
      cases hgrammar : p.grammar with
      | none => exact .notLoaded .grammar
      | some grammar =>
          show p.ParsesTo text (p.parseWith tokenizer grammar text).1
          unfold parseWith
          -- The text is split first, and what is split is matched.
          rcases hsplit : tokenizer.tokenize text.toList.toArray p.settings.maxDepth with
            ⟨cause | tokens, journal⟩
          · have hnone : p.split tokenizer text = (.error (.aborted cause), journal) := by
              simp only [split, hsplit]
            rw [hnone]
            exact .notSplit htokenizer (by rw [hsplit])
          · have hsome : p.split tokenizer text =
                (.ok ⟨text.toList.toArray, .ofText text, tokens⟩, journal) := by
              simp only [split, hsplit]
            rw [hsome]
            dsimp only
            rcases hmatch : grammar.matchRoot tokens.kinds p.settings.maxDepth with
              ⟨cause | outcome, trace⟩
            · exact .stopped htokenizer hgrammar (by rw [hsplit]) (by rw [hmatch])
            · have hend := ParsesTo.matched htokenizer hgrammar (by rw [hsplit]) hmatch
              dsimp only
              split
              · rename_i output houtput
                rwa [houtput] at hend
              · rename_i error herror
                rwa [herror] at hend

/-- A pipeline with warnings made an error, or not. -/
def failingOnWarning (p : Pipeline) (strict : Bool) : Pipeline :=
  { p with settings := { p.settings with failOnWarning := strict } }

/-- Whether warnings are an error matters at the very end only. -/
theorem fst_parse (p : Pipeline) (text : String) :
    (p.parse text).1 = ((p.failingOnWarning false).parse text).1.bind p.accept := by
  unfold parse
  have htokenizer : (p.failingOnWarning false).loadedTokenizer = p.loadedTokenizer := rfl
  have hgrammar : (p.failingOnWarning false).loadedGrammar = p.loadedGrammar := rfl
  rw [htokenizer, hgrammar]
  cases p.loadedTokenizer with
  | error error => rfl
  | ok tokenizer =>
      cases p.loadedGrammar with
      | error error => rfl
      | ok grammar =>
          show (p.parseWith tokenizer grammar text).1 =
            ((p.failingOnWarning false).parseWith tokenizer grammar text).1.bind p.accept
          -- Rejecting comes last; all that comes before does not depend on it.
          have hsplit : (p.failingOnWarning false).split tokenizer text = p.split tokenizer text := rfl
          have hdepth : (p.failingOnWarning false).settings.maxDepth = p.settings.maxDepth := rfl
          have haccept (output : ParseOutput) :
              (p.failingOnWarning false).accept output = .ok output := rfl
          simp only [parseWith, hsplit, hdepth, haccept]
          rcases p.split tokenizer text with ⟨error | t, journal⟩
          · rfl
          · dsimp only
            rcases grammar.matchRoot t.tokens.kinds p.settings.maxDepth with ⟨cause | outcome, trace⟩
            · rfl
            · dsimp only [Except.bind]
              split
              · rename_i output houtput
                exact houtput.symm
              · rename_i error herror
                exact herror.symm

/-! ## Reports -/

/-- The diagnostics of a parse, whether it was accepted or rejected for them. -/
def diagnosticsOf : Except PipelineError ParseOutput → List Diagnostic
  | .ok output => output.diagnostics
  | .error (.rejected diagnostics) => diagnostics
  | .error _ => []

/-- The places in the text that a parse points to: those of its diagnostics, and that of an abort. -/
def placesOf : Except PipelineError ParseOutput → List Span
  | .error (.aborted cause) => cause.span?.toList
  | result => (diagnosticsOf result).map (·.location.span)

theorem accept_eq_ok {output accepted : ParseOutput} (h : p.accept output = .ok accepted) :
    accepted = output := by
  unfold accept at h
  split at h
  · cases h
  · exact (Except.ok.inj h).symm

theorem diagnosticsOf_accept (p : Pipeline) (output : ParseOutput) :
    diagnosticsOf (p.accept output) = output.diagnostics := by
  unfold accept
  split <;> rfl

theorem placesOf_accept (p : Pipeline) (output : ParseOutput) :
    placesOf (p.accept output) = output.diagnostics.map (·.location.span) := by
  unfold accept
  split <;> rfl

theorem span?_within {n : Nat} {cause : Abort} (h : cause.InBounds 0 n) :
    ∀ span ∈ cause.span?, span.stop ≤ n := by
  intro span hspan
  cases cause with
  | fatal message place =>
      obtain rfl := Option.some.inj hspan
      exact h.2
  | depthExceeded limit pos =>
      obtain rfl := Option.some.inj hspan
      exact h.2
  | unresolvedReference name => cases hspan
  | missingRoot => cases hspan

theorem within_of_tokenize {tokenizer : Graph Char} {chars : Array Char} {limit : Nat}
    {tokens : Tokenized} (h : (tokenizer.tokenize chars limit).1 = .ok tokens) :
    tokens.Within chars.size := by
  have hwithin := tokenizer.tokenize_within chars limit
  rwa [h] at hwithin

/-- Every place is a place in the text. -/
theorem placesOf_within {result : Except PipelineError ParseOutput} (h : p.ParsesTo text result) :
    ∀ span ∈ placesOf result, span.stop ≤ text.length := by
  have hsize : text.toList.toArray.size = text.length := String.length_toList
  rw [← hsize]
  intro span hspan
  cases h with
  | notLoaded phase => cases hspan
  | @notSplit tokenizer cause htokenizer h =>
      have hwithin := tokenizer.tokenize_within text.toList.toArray p.settings.maxDepth
      rw [h] at hwithin
      exact span?_within hwithin span (Option.mem_toList.mp hspan)
  | stopped htokenizer hgrammar h hmatch =>
      exact span?_within (TokenizedText.abortInChars_within (within_of_tokenize h) _) span
        (Option.mem_toList.mp hspan)
  | matched htokenizer hgrammar h hmatch =>
      rw [placesOf_accept] at hspan
      obtain ⟨d, hd, rfl⟩ := List.mem_map.mp hspan
      exact (TokenizedText.output_within (within_of_tokenize h) hd).2

theorem diagnosticsOf_pairwise {result : Except PipelineError ParseOutput} (h : p.ParsesTo text result) :
    (diagnosticsOf result).Pairwise fun d e => d.location.span.start ≤ e.location.span.start := by
  cases h with
  | notLoaded phase => exact .nil
  | notSplit htokenizer h => exact .nil
  | stopped htokenizer hgrammar h hmatch => exact .nil
  | matched htokenizer hgrammar h hmatch =>
      rw [diagnosticsOf_accept]
      exact TokenizedText.inOrder_pairwise _

/-- An output is that of a match of the tokens. -/
theorem ParsesTo.exists_of_ok {output : ParseOutput} (h : p.ParsesTo text (.ok output)) :
    ∃ tokenizer ∈ p.tokenizer, ∃ grammar ∈ p.grammar, ∃ tokens outcome trace,
      (tokenizer.tokenize text.toList.toArray p.settings.maxDepth).1 = .ok tokens ∧
        grammar.matchRoot tokens.kinds p.settings.maxDepth = (.ok outcome, trace) ∧
        output = TokenizedText.output ⟨text.toList.toArray, .ofText text, tokens⟩ tokenizer grammar
          outcome trace.farthest := by
  generalize hresult : Except.ok output = result at h
  cases h with
  | notLoaded phase => cases hresult
  | notSplit htokenizer h => cases hresult
  | stopped htokenizer hgrammar h hmatch => cases hresult
  | matched htokenizer hgrammar h hmatch =>
      exact ⟨_, htokenizer, _, hgrammar, _, _, _, h, hmatch, accept_eq_ok hresult.symm⟩

/-- A pipeline for which warnings are no error rejects nothing. -/
theorem parse_ne_rejected (p : Pipeline) (text : String) (diagnostics : List Diagnostic) :
    ((p.failingOnWarning false).parse text).1 ≠ .error (.rejected diagnostics) := by
  intro hresult
  have h := (p.failingOnWarning false).parsesTo_parse text
  rw [hresult] at h
  generalize hrejected : Except.error (PipelineError.rejected diagnostics) = result at h
  cases h with
  | notLoaded phase => cases hrejected
  | notSplit htokenizer h => cases hrejected
  | stopped htokenizer hgrammar h hmatch => cases hrejected
  | matched htokenizer hgrammar h hmatch => cases hrejected

/-- A parse is rejected just for what would have been accepted but for its warnings. -/
theorem parse_eq_rejected_iff (p : Pipeline) (text : String) (diagnostics : List Diagnostic) :
    ((p.failingOnWarning true).parse text).1 = .error (.rejected diagnostics) ↔
      ∃ output, ((p.failingOnWarning false).parse text).1 = .ok output ∧
        output.diagnostics = diagnostics ∧ ∃ d ∈ diagnostics, Severity.warning ≤ d.severity := by
  have hlenient : (p.failingOnWarning true).failingOnWarning false = p.failingOnWarning false := rfl
  rw [fst_parse, hlenient]
  have hnever := p.parse_ne_rejected text diagnostics
  cases hresult : ((p.failingOnWarning false).parse text).1 with
  | error error =>
      rw [hresult] at hnever
      constructor
      · intro h
        exact absurd h hnever
      · rintro ⟨output, houtput, -⟩
        cases houtput
  | ok output =>
      have haccept : (p.failingOnWarning true).accept output =
          if Diagnostic.anyAtLeast output.diagnostics .warning then
            .error (.rejected output.diagnostics)
          else .ok output := by
        simp [accept, failingOnWarning]
      show (p.failingOnWarning true).accept output = _ ↔ _
      rw [haccept]
      -- The diagnostics are the same either way, and only decide whether they are rejected.
      by_cases hany : Diagnostic.anyAtLeast output.diagnostics .warning
      · rw [if_pos hany]
        have hsome := Diagnostic.anyAtLeast_iff.mp hany
        constructor
        · intro h
          cases h
          exact ⟨output, rfl, rfl, hsome⟩
        · rintro ⟨_, ⟨⟩, rfl, -⟩
          rfl
      · rw [if_neg hany]
        constructor
        · intro h
          cases h
        · rintro ⟨_, ⟨⟩, rfl, hsome⟩
          exact absurd (Diagnostic.anyAtLeast_iff.mpr hsome) hany

/-- **Reports are complete and well placed.**  A parse that comes to an output is a success if and only if
no error is among its diagnostics.  Diagnostics are in the order of their places, returned or rejected.  A
pipeline for which warnings are an error rejects just the texts that it would have found something at
least as serious as a warning in.  And every place that is pointed to, by a diagnostic or by an abort of
either phase, ends inside the text. -/
theorem parse_reports (p : Pipeline) (text : String) :
    (∀ output, (p.parse text).1 = .ok output →
      (output.success ↔ ∀ d ∈ output.diagnostics, ¬ Severity.error ≤ d.severity)) ∧
    (diagnosticsOf (p.parse text).1).Pairwise
      (fun d e => d.location.span.start ≤ e.location.span.start) ∧
    (∀ diagnostics, ((p.failingOnWarning true).parse text).1 = .error (.rejected diagnostics) ↔
      ∃ output, ((p.failingOnWarning false).parse text).1 = .ok output ∧
        output.diagnostics = diagnostics ∧ ∃ d ∈ diagnostics, Severity.warning ≤ d.severity) ∧
    ∀ span ∈ placesOf (p.parse text).1, span.start + span.len ≤ text.length := by
  have hparse := p.parsesTo_parse text
  refine ⟨?_, diagnosticsOf_pairwise hparse, p.parse_eq_rejected_iff text, placesOf_within hparse⟩
  intro output houtput
  rw [houtput] at hparse
  obtain ⟨tokenizer, -, grammar, -, tokens, outcome, trace, htokens, -, rfl⟩ := hparse.exists_of_ok
  exact TokenizedText.success_output_iff_no_error (within_of_tokenize htokens)

/-- Tokens for three letters. -/
def threeLetters : Graph Char where
  rules := #[.named "a" (.ofKind (.single 'a')), .named "b" (.ofKind (.single 'b')),
    .named "c" (.ofKind (.single 'c')),
    { Rule.ofKind (.oneOf [⟨0⟩, ⟨1⟩, ⟨2⟩]) with pruning := .root },
    .named "tokens" (.ofKind (.count ⟨3⟩ 0 0))]
  root := some ⟨4⟩

/-- Words of two of the letters, one of them with a warning; the third one is fatal. -/
def gradedWords : Graph RuleId where
  rules := #[.named "a" (.ofKind (.single ⟨0⟩)), .named "b" (.ofKind (.single ⟨1⟩)),
    .named "c" (.ofKind (.single ⟨2⟩)), .ofKind (.log .warning "b is old" (some ⟨1⟩)),
    .ofKind (.log .fatal "c is gone" (some ⟨2⟩)), .ofKind (.oneOf [⟨0⟩, ⟨1⟩]),
    .ofKind (.sequence [⟨3⟩, ⟨4⟩, ⟨5⟩]), .named "word" (.ofKind (.count ⟨6⟩ 0 0))]
  root := some ⟨7⟩

def gradedLetters : Pipeline where
  loader := .ofTable []
  tokenizer := some threeLetters
  grammar := some gradedWords

/-- An unexpected character is an error, so the parse is no success; a warning is no error, but rejected
where warnings are; and a fatal letter ends the parse at its place. -/
theorem gradedLetters_reports :
    (∃ output, (gradedLetters.parse "a?").1 = .ok output ∧ ¬ output.success ∧
      output.diagnostics = [⟨.error, "unexpected character '?'", ⟨⟨1, 1⟩, 1, 2⟩⟩]) ∧
    ((gradedLetters.failingOnWarning true).parse "ab").1 =
      .error (.rejected [⟨.warning, "b is old", ⟨⟨1, 1⟩, 1, 2⟩⟩]) ∧
    (gradedLetters.parse "ac").1 = .error (.aborted (.fatal "c is gone" ⟨1, 1⟩)) ∧
      1 + 1 ≤ "ac".length := by
  obtain ⟨⟨output, hunfinished, hfound⟩, ⟨lenient, hlenient, hwarned⟩, habort⟩ :
      (∃ output ∈ (gradedLetters.parse "a?").1.toOption,
        output.diagnostics = [⟨.error, "unexpected character '?'", ⟨⟨1, 1⟩, 1, 2⟩⟩]) ∧
      (∃ output ∈ ((gradedLetters.failingOnWarning false).parse "ab").1.toOption,
        output.diagnostics = [⟨.warning, "b is old", ⟨⟨1, 1⟩, 1, 2⟩⟩]) ∧
      (gradedLetters.parse "ac").1 = .error (.aborted (.fatal "c is gone" ⟨1, 1⟩)) := by
    decide +kernel
  have hunfinished := ok_of_mem_toOption hunfinished
  refine ⟨⟨output, hunfinished, ?_, hfound⟩, ?_, habort, ?_⟩
  · obtain ⟨hcomplete, -⟩ := gradedLetters.parse_reports "a?"
    rw [hcomplete output hunfinished, hfound]
    intro hnone
    exact hnone _ List.mem_cons_self (by decide)
  · obtain ⟨-, -, hrejects, -⟩ := gradedLetters.parse_reports "ab"
    refine (hrejects _).mpr ⟨lenient, ok_of_mem_toOption hlenient, hwarned, _, List.mem_cons_self, ?_⟩
    decide
  · obtain ⟨-, -, -, hplaces⟩ := gradedLetters.parse_reports "ac"
    exact hplaces ⟨1, 1⟩ (by rw [habort]; exact List.mem_cons_self)

/-! ## Success -/

/-- What was consumed is all of a text if the root matched all of it, or if there is nothing to the text:
a failure consumes nothing either. -/
theorem len_eq_size_iff {tokenizer : Graph Char} {chars : Array Char} {limit : Nat} {tokens : Tokenized}
    (h : (tokenizer.tokenize chars limit).1 = .ok tokens) :
    tokens.len = chars.size ↔ tokenizer.MatchesAll chars limit ∨
      chars = #[] ∧ (tokenizer.matchRoot #[] limit).1 = .ok .failure := by
  unfold Graph.tokenize at h
  unfold Graph.MatchesAll
  rcases hresult : tokenizer.matchRoot chars limit with ⟨cause | outcome, trace⟩
  · rw [hresult] at h
    cases h
  · rw [hresult] at h
    cases h
    cases outcome with
    | failure =>
        have hfailed : (∃ nodes, Except.ok Outcome.failure =
            (.ok (.success chars.size nodes) : Except Abort Outcome)) ↔ False := by simp
        rw [hfailed, false_or]
        show 0 = chars.size ↔ _
        constructor
        · intro hsize
          -- A failure has length zero, which is all of the text only if there is none.
          obtain rfl := Array.eq_empty_of_size_eq_zero hsize.symm
          exact ⟨rfl, by rw [hresult]⟩
        · rintro ⟨rfl, -⟩
          rfl
    | success len nodes =>
        show len = chars.size ↔ _
        constructor
        · rintro rfl
          exact .inl ⟨nodes, rfl⟩
        · rintro (⟨_, heq⟩ | ⟨rfl, hfailed⟩)
          · cases heq
            rfl
          · rw [hresult] at hfailed
            cases hfailed

/-- A parse is a success if and only if the grammar matched all tokens, the tokenizer matched all of the
text or failed on the empty text, and nothing was reported as an error. -/
theorem success_iff {output : ParseOutput} (h : (p.parse text).1 = .ok output) :
    ∃ tokenizer ∈ p.tokenizer, ∃ grammar ∈ p.grammar,
      (output.success ↔
        grammar.MatchesAll output.tokens.kinds p.settings.maxDepth ∧
          (tokenizer.MatchesAll text.toList.toArray p.settings.maxDepth ∨
            text = "" ∧ (tokenizer.matchRoot #[] p.settings.maxDepth).1 = .ok .failure) ∧
          ∀ d ∈ output.diagnostics, ¬ Severity.error ≤ d.severity) := by
  have hparse := p.parsesTo_parse text
  rw [h] at hparse
  obtain ⟨tokenizer, htokenizer, grammar, hgrammar, tokens, outcome, trace, htokens, hmatch, rfl⟩ :=
    hparse.exists_of_ok
  refine ⟨tokenizer, htokenizer, grammar, hgrammar, ?_⟩
  -- All tokens are consumed, all characters are, and no diagnostic is an error.
  have hcomplete : (∃ nodes, outcome = .success tokens.kinds.size nodes) ↔
      grammar.MatchesAll tokens.kinds p.settings.maxDepth := by
    unfold Graph.MatchesAll
    rw [hmatch]
    simp only [Except.ok.injEq]
  have hempty : text.toList.toArray = #[] ↔ text = "" := by simp
  rw [TokenizedText.success_output_iff, TokenizedText.isComplete_iff, hcomplete, len_eq_size_iff htokens,
    hempty]
  rfl

/-- **A success means that both phases matched everything**: the grammar all tokens, and the tokenizer all
characters, unless the text is empty and the tokenizer does not match the empty text. -/
theorem success_matches {output : ParseOutput} (h : (p.parse text).1 = .ok output)
    (hsuccess : output.success) :
    ∃ tokenizer ∈ p.tokenizer, ∃ grammar ∈ p.grammar,
      grammar.MatchesAll output.tokens.kinds p.settings.maxDepth ∧
        (tokenizer.MatchesAll text.toList.toArray p.settings.maxDepth ↔
          ¬ (text = "" ∧ (tokenizer.matchRoot #[] p.settings.maxDepth).1 = .ok .failure)) := by
  obtain ⟨tokenizer, htokenizer, grammar, hgrammar, hiff⟩ := success_iff h
  obtain ⟨hmatches, htokens, -⟩ := hiff.mp hsuccess
  refine ⟨tokenizer, htokenizer, grammar, hgrammar, hmatches, ?_⟩
  constructor
  · rintro ⟨nodes, hall⟩ ⟨rfl, hfailed⟩
    have hnone : "".toList.toArray = (#[] : Array Char) := rfl
    rw [hnone, hfailed] at hall
    cases hall
  · exact htokens.resolve_right

/-- Tokens that are letters, at least one of them. -/
def lettersTokenizer : Graph Char where
  rules := #[.ofKind (.reference "a" (some ⟨2⟩)), .named "tokens" (.ofKind (.count ⟨0⟩ 1 0)),
    .named "a" (.ofKind (.literal ['a']))]
  root := some ⟨1⟩

/-- Words of any number of letters. -/
def lettersGrammar : Graph RuleId where
  rules := #[.named "tokens" (.ofKind (.single ⟨1⟩)), .named "a" (.ofKind (.single ⟨2⟩)),
    .ofKind (.reference "a" (some ⟨1⟩)), .named "word" (.ofKind (.count ⟨2⟩ 0 0))]
  root := some ⟨3⟩

/-- The two together, as they are compiled from `tokens = +a; a = 'a';` and `word = *a;`. -/
def letters : Pipeline where
  loader := .ofTable []
  tokenizer := some lettersTokenizer
  grammar := some lettersGrammar

/-- Two letters are a word. -/
theorem letters_success_matches :
    ∃ output, (letters.parse "aa").1 = .ok output ∧ output.success ∧
      output.tokens.kinds = #[⟨2⟩, ⟨2⟩] ∧
      lettersGrammar.MatchesAll #[⟨2⟩, ⟨2⟩] defaultMaxDepth ∧
      lettersTokenizer.MatchesAll #['a', 'a'] defaultMaxDepth := by
  have hresult : (letters.parse "aa").1.map (fun output => (output.success, output.tokens.kinds)) =
      .ok (true, #[⟨2⟩, ⟨2⟩]) := by decide +kernel
  cases hparse : (letters.parse "aa").1 with
  | error error =>
      rw [hparse] at hresult
      cases hresult
  | ok output =>
      rw [hparse] at hresult
      obtain ⟨hsuccess, hkinds⟩ := Prod.mk.inj (Except.ok.inj hresult)
      obtain ⟨_, htokenizer, _, hgrammar, hmatches, htokens⟩ := success_matches hparse hsuccess
      cases htokenizer
      cases hgrammar
      rw [hkinds] at hmatches
      exact ⟨output, rfl, hsuccess, hkinds, hmatches, htokens.mpr (by decide)⟩

/-- No letters are a word too, and a text without letters is reported as a success; but the tokenizer asks
for a letter and did not match. -/
theorem letters_success_without_match :
    ∃ output, (letters.parse "").1 = .ok output ∧ output.success ∧
      ¬ lettersTokenizer.MatchesAll "".toList.toArray defaultMaxDepth := by
  have hresult : (letters.parse "").1.map (·.success) = .ok true := by decide +kernel
  have hfailed : (lettersTokenizer.matchRoot "".toList.toArray defaultMaxDepth).1 = .ok .failure := by
    decide +kernel
  cases hparse : (letters.parse "").1 with
  | error error =>
      rw [hparse] at hresult
      cases hresult
  | ok output =>
      rw [hparse] at hresult
      refine ⟨output, rfl, Except.ok.inj hresult, ?_⟩
      rintro ⟨nodes, hmatches⟩
      rw [hfailed] at hmatches
      cases hmatches

end Pipeline

end RuleScript
