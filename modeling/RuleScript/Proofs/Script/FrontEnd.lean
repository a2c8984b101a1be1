import RuleScript.Proofs.Script.Compiling

/-!
# The front end takes any text

Whatever a text is, its characters all go into tokens or into what leaves none, and whatever the
tokens are, the script grammar goes through them to the last one (`frontEnd_total`).  So a compiler
that would report a character no token starts with, or a script it cannot make anything of, never
has occasion to.
-/

namespace RuleScript

namespace Script

/-! ## What is reported -/

/-- The two messages of the compiler for a text that it could not go through. -/
def Defeat (message : String) : Prop :=
  message = "unexpected character" ∨ message = "could not parse script"

theorem grammar_logMessages_not_defeat {message : String} (h : message ∈ grammar.logMessages) :
    ¬ Defeat message := by
  obtain ⟨hunexpected, hparse⟩ := grammar_logMessages message h
  rintro (rfl | rfl)
  · exact hunexpected rfl
  · exact hparse rfl

end Script

/-- The diagnostics that compiling a script comes to, those among its errors included. -/
def reported {α : Type} : Except CompileFailure (CompiledUnit α) → List Diagnostic
  | .ok compiled => compiled.diagnostics
  | .error failure => failure.errors.filterMap fun error =>
      match error with
      | .script diagnostic => some diagnostic
      | _ => none

namespace Script

variable {α : Type} {terminals : Terminals α} {s : Scanned} {d : Diagnostic}

/-- A draught reports what is among its diagnostics and its errors. -/
theorem Draught.mem_of_mem_reported {draught : Draught α} {unit : String}
    (h : d ∈ reported (draught.finish unit).1) :
    d ∈ draught.diagnostics ∨ .script d ∈ draught.errors := by
  rw [finish] at h
  cases herrors : draught.errors with
  | nil =>
      rw [herrors] at h
      exact .inl h
  | cons error errors =>
      rw [herrors] at h
      obtain ⟨other, hother, hscript⟩ := List.mem_filterMap.mp h
      split at hscript
      · cases hscript
        exact .inr hother
      · cases hscript

theorem script_mem_errorsIn {ds : List Diagnostic} (h : .script d ∈ errorsIn ds) : d ∈ ds := by
  obtain ⟨other, hother, heq⟩ := List.mem_map.mp h
  cases heq
  exact (List.mem_filter.mp hother).1

theorem not_mem_of_mem_remarks {ds : List Diagnostic} (h : d ∈ remarks ds) : d ∈ ds :=
  (List.mem_filter.mp h).1

/-! ## The two steps -/

theorem scan_lossless {source : String} {limit : Nat} {s : Scanned} {journal : Journal}
    (h : scan source limit = (.ok s, journal)) :
    s.chars = source.toList.toArray ∧ Lossless s.chars s.tokens := by
  obtain ⟨hchars, -⟩ := tokenize_of_scan h
  obtain ⟨outcome, trace, hmatch, htokens⟩ := exists_matchRoot_of_scan h
  rw [htokens]
  exact ⟨hchars, (tokenizer_lexical.lossless hmatch).2⟩

/-- With enough depth each text is split into tokens, all of it. -/
theorem exists_scan {limit : Nat} (hlimit : 16 ≤ limit) (source : String) :
    ∃ nodes trace s journal,
      tokenizer.matchRoot source.toList.toArray limit =
        (.ok (.success source.toList.length nodes), trace) ∧
      scan source limit = (.ok s, journal) := by
  obtain ⟨outcome, trace, hmatch⟩ :=
    tokenizer_lexical.exists_matchRoot hlimit source.toList.toArray
  obtain ⟨⟨nodes, rfl⟩, -⟩ := tokenizer_lexical.lossless hmatch
  have hscan : ∃ s journal, scan source limit = (.ok s, journal) := by
    rw [scan, Graph.tokenize, hmatch]
    exact ⟨_, _, rfl⟩
  obtain ⟨s, journal, hscan⟩ := hscan
  exact ⟨nodes, trace, s, journal, hmatch, hscan⟩

/-- Unless rules are nested too deep, the grammar goes through all tokens. -/
theorem grammar_matchRoot_cases (tokens : Array RuleId) (limit : Nat) :
    (∃ most pos trace, grammar.matchRoot tokens limit = (.error (.depthExceeded most pos), trace)) ∨
      ∃ nodes trace, grammar.matchRoot tokens limit = (.ok (.success tokens.size nodes), trace) := by
  rcases hmatch : grammar.matchRoot tokens limit with ⟨cause | outcome, trace⟩
  · have hdepth := grammar_matchRoot_error hmatch
    cases cause with
    | depthExceeded most pos => exact .inl ⟨most, pos, trace, rfl⟩
    | _ => cases hdepth
  · have hstep (pos : Nat) : grammar.Promises tokens statementRule pos
        (·.Steps (fun _ _ _ => True) pos) :=
      fun limit depth => (Run.Yields.trivial _).mono (fun _ h => h) fun outcome _ => by
        cases outcome <;> trivial
    obtain ⟨reps, nodes, rfl, -⟩ :=
      (grammar_takesAll.promises_rounds hstep).of_matchRoot grammar_takesAll.isRoot hmatch
    exact .inr ⟨_, trace, rfl⟩

theorem scanDiagnostics_not_defeat (h : Lossless s.chars s.tokens) (hd : d ∈ scanDiagnostics s) :
    ¬ Defeat d.message := by
  rw [scanDiagnostics, if_neg (Nat.not_lt.mpr (Nat.le_of_eq h.consumed.symm)), List.append_nil] at hd
  obtain ⟨entry, hentry, rfl⟩ := List.mem_map.mp hd
  rcases h.remarks with hnone | ⟨rule, first, -, -, hone⟩
  · rw [hnone] at hentry
    cases hentry
  · rw [hone] at hentry
    obtain rfl := List.mem_singleton.mp hentry
    simp [Scanned.diagnostic, unterminatedEntry, Defeat]

theorem matchDiagnostics_not_defeat {nodes : List Node}
    (hd : d ∈ matchDiagnostics s (.success s.tokens.kinds.size nodes)) : ¬ Defeat d.message := by
  have hsize : s.tokens.kinds.size = s.tokens.tokens.size := Array.size_map
  rw [matchDiagnostics, if_pos ⟨rfl, Nat.le_of_eq hsize.symm⟩, List.append_nil] at hd
  obtain ⟨entry, hentry, rfl⟩ := List.mem_map.mp hd
  exact grammar_logMessages_not_defeat (Graph.message_mem_logMessages grammar hentry)

end Script

open Script

/-- No script is too much for the compiler. -/
theorem compile_not_defeat {α : Type} {terminals : Terminals α} (hterminals : terminals.Plain)
    (unit source : String) (limit : Nat) {d : Diagnostic}
    (hd : d ∈ reported (compile terminals unit source limit).1) : ¬ Defeat d.message := by
  rw [compile] at hd
  split at hd
  · cases hd
  · rename_i s journal hscan
    have hearly {d : Diagnostic} (hd : d ∈ scanDiagnostics s) : ¬ Defeat d.message :=
      scanDiagnostics_not_defeat (scan_lossless hscan).2 hd
    dsimp only at hd
    split at hd
    · rename_i cause trace hmatch
      rcases Draught.mem_of_mem_reported hd with hd | hd
      · exact hearly (not_mem_of_mem_remarks hd)
      · rcases List.mem_append.mp hd with hd | hd
        · exact hearly (script_mem_errorsIn hd)
        · cases List.mem_singleton.mp hd
    · rename_i outcome trace hmatch
      -- The grammar either runs out of depth, which is excluded here, or takes all tokens.
      have hall {d : Diagnostic} (hd : d ∈ scanDiagnostics s ++ matchDiagnostics s outcome) :
          ¬ Defeat d.message := by
        rcases List.mem_append.mp hd with hd | hd
        · exact hearly hd
        · rcases grammar_matchRoot_cases s.tokens.kinds limit with ⟨_, _, _, herror⟩ | hsuccess
          · rw [herror] at hmatch
            cases hmatch
          · obtain ⟨nodes, trace', hsuccess⟩ := hsuccess
            rw [hsuccess] at hmatch
            cases hmatch
            exact matchDiagnostics_not_defeat hd
      rcases Draught.mem_of_mem_reported hd with hd | hd
      · exact hall (not_mem_of_mem_remarks hd)
      · rcases draught_errors hterminals (scan_knowsMarkers hscan) hmatch _ _ hd with hd | hd
        · exact hall (script_mem_errorsIn hd)
        · cases hd

/-- **The front end takes any text and loses none of it.**  With 16 levels of depth each text is split
into tokens, to its end, and what is not in a token is white space or a comment; the grammar goes
through any tokens to the last one, unless rules are nested too deep; so no compilation is defeated
by a script. -/
theorem frontEnd_total (source : String) (limit : Nat) :
    (16 ≤ limit → ∃ nodes trace s journal,
      tokenizer.matchRoot source.toList.toArray limit =
          (.ok (.success source.toList.length nodes), trace) ∧
        scan source limit = (.ok s, journal) ∧ s.chars = source.toList.toArray ∧
          Lossless s.chars s.tokens) ∧
      (∀ tokens,
        (∃ most pos trace,
          grammar.matchRoot tokens limit = (.error (.depthExceeded most pos), trace)) ∨
          ∃ nodes trace,
            grammar.matchRoot tokens limit = (.ok (.success tokens.size nodes), trace)) ∧
      ∀ unit,
        (∀ d ∈ reported (compile charTerminals unit source limit).1, ¬ Defeat d.message) ∧
          ∀ g, ∀ d ∈ reported (compile (tokenTerminals g) unit source limit).1,
            ¬ Defeat d.message := by
  refine ⟨fun hlimit => ?_, fun tokens => grammar_matchRoot_cases tokens limit, fun unit => ?_⟩
  · obtain ⟨nodes, trace, s, journal, hmatch, hscan⟩ := exists_scan hlimit source
    exact ⟨nodes, trace, s, journal, hmatch, hscan, scan_lossless hscan⟩
  · exact ⟨fun _ => compile_not_defeat charTerminals_plain unit source limit,
      fun g _ => compile_not_defeat (tokenTerminals_plain g) unit source limit⟩

/-- A rule, a comment on its line and one that is not closed. -/
theorem unclosed_frontEnd_total :
    ∃ s journal, scan "a='x'; # one\n(* two" 16 = (.ok s, journal) ∧
      s.tokens.tokens.map (·.span) = #[⟨0, 1⟩, ⟨1, 1⟩, ⟨2, 3⟩, ⟨5, 1⟩] ∧
        s.tokens.logs.map (·.span) = [.empty 15] ∧ Lossless s.chars s.tokens := by
  have hscan : (scan "a='x'; # one\n(* two" 16).1.map (fun s =>
      (s.tokens.tokens.map (·.span), s.tokens.logs.map (·.span))) =
        .ok (#[⟨0, 1⟩, ⟨1, 1⟩, ⟨2, 3⟩, ⟨5, 1⟩], [.empty 15]) := by
    decide +kernel
  obtain ⟨-, -, s, journal, -, hs, -, hlossless⟩ :=
    (frontEnd_total "a='x'; # one\n(* two" 16).1 (Nat.le_refl 16)
  rw [hs] at hscan
  obtain ⟨htokens, hlogs⟩ := Prod.mk.inj (Except.ok.inj hscan)
  exact ⟨s, journal, hs, htokens, hlogs, hlossless⟩

end RuleScript
