import RuleScript.Proofs.Script.FrontEnd
import RuleScript.Proofs.Script.Lexing

/-!
# What a script is split into

Each round of the tokenizer takes what comes next in the text ahead (`next?`): an alternative that
leaves no token, or one that leaves a single one.  So what a script is split into is told by its text
alone (`Lexes`).
-/

namespace RuleScript

namespace Script

/-- The rule of the tokenizer that takes the next token or what lies before it. -/
def tokenRule : RuleId := (tokenizer.subs (tokenOf "tokens")).headD .invalid

/-- A text from a position on, split by what comes next in the text ahead. -/
inductive Splits (chars : Array Char) : Nat → List Token → Prop
  | done : Splits chars chars.size []
  | gap {start len : Nat} {name : String} {tokens : List Token}
      (h : next? (chars.toList.drop start) = some (name, len)) (hgap : name ∈ gapNames)
      (hrest : Splits chars (start + len) tokens) : Splits chars start tokens
  | token {start len : Nat} {name : String} {token : Token} {tokens : List Token}
      (h : next? (chars.toList.drop start) = some (name, len)) (htoken : name ∉ gapNames)
      (hkind : token.kind = tokenOf name) (hspan : token.span = ⟨start, len⟩)
      (hrest : Splits chars (start + len) tokens) : Splits chars start (token :: tokens)

/-- What the alternative with a name leaves: log entries at most, or its token. -/
def Remains (name : String) (start stop : Nat) (nodes : List Node) : Prop :=
  if name ∈ gapNames then ∀ node ∈ nodes, tokenizer.isLog node.rule
  else ∃ node : Node, nodes = [node] ∧ node.rule = tokenOf name ∧
    node.span = ⟨start, stop - start⟩ ∧ tokenizer.LogFree [node]

/-- Whether the alternative with a name is made so that it leaves that. -/
def isFit (name : String) : Bool :=
  if name ∈ gapNames then (tokenizer.rule? (tokenOf name)).any (·.pruning = .all)
  else tokenizer.isToken 8 (tokenOf name)

theorem tokenizer_spellings :
    (tokenizer.rule? tokenRule).map (fun rule => (rule.pruning, rule.kind)) =
        some (.root, .oneOf (spellings.map (tokenOf ·.1))) ∧
      ∀ entry ∈ spellings, entry.2.isProper ∧ tokenizer.hasShape (tokenOf entry.1) entry.2 ∧
        isFit entry.1 := by
  decide +kernel

variable {chars : Array Char} {start stop : Nat} {nodes : List Node}

theorem promises_remains {name : String} (h : isFit name) (start : Nat) :
    tokenizer.Promises chars (tokenOf name) start (·.Steps (Remains name) start) := by
  unfold isFit at h
  split at h
  · rename_i hgap
    obtain ⟨rule, hrule, hpruning⟩ := (Option.any_eq_true _ _).mp h
    refine (promises_logs hrule (of_decide_eq_true hpruning) start).mono fun outcome hlogs => ?_
    cases outcome with
    | failure => trivial
    | success len nodes => exact (if_pos hgap).mpr hlogs
  · rename_i htoken
    refine (promises_node tokenizer_lexical.takesAll.primitive h start).mono fun outcome hnode => ?_
    cases outcome with
    | failure => trivial
    | success len nodes => exact (if_neg htoken).mpr hnode

/-- One round of the tokenizer takes what comes next, and leaves what that should leave. -/
def TakesNext (chars : Array Char) (start stop : Nat) (nodes : List Node) : Prop :=
  ∃ name len, next? (chars.toList.drop start) = some (name, len) ∧ stop = start + len ∧
    Remains name start stop nodes

/-- The first of some alternatives that goes anywhere is taken. -/
theorem firstOf_takesNext {sub : RuleId → Nat → Run Outcome} {entries : List (String × Shape)}
    (hsub : tokenizer.Keeps chars sub)
    (h : ∀ entry ∈ entries, entry.2.isProper ∧ tokenizer.hasShape (tokenOf entry.1) entry.2 ∧
      isFit entry.1) :
    (Match.firstOf sub start (entries.map (tokenOf ·.1))).Yields
      (·.Steps (fun _ stop nodes => ∃ name len,
        entries.findSome? (fun entry => (entry.2.length? (chars.toList.drop start)).map (entry.1, ·)) =
          some (name, len) ∧ stop = start + len ∧ Remains name start stop nodes) start) := by
  induction entries with
  | nil => exact .pure trivial
  | cons entry entries ih =>
      obtain ⟨⟨hproper, hshape, hfit⟩, hrest⟩ := List.forall_mem_cons.mp h
      have hverdict : tokenizer.Promises chars (tokenOf entry.1) start fun outcome =>
          Derives tokenizer chars (tokenOf entry.1) start outcome.verdict :=
        promises_verdict tokenizer_lexical.takesAll.primitive _ start
      refine (hsub _ start _ (hverdict.and (promises_remains hfit start))).bind
        fun outcome houtcome => ?_
      obtain ⟨hverdict, hleft⟩ := houtcome
      -- The verdict tells the length that the shape has read.
      have hlength := Graph.Reads.shape hproper hshape _ _ _ hverdict
      cases outcome with
      | failure =>
          have hnone : entry.2.length? (chars.toList.drop start) = none := hlength.symm
          simp only [List.findSome?_cons, hnone, Option.map_none]
          exact ih hrest
      | success len nodes =>
          have hsome : entry.2.length? (chars.toList.drop start) = some len := hlength.symm
          refine .pure ⟨entry.1, len, ?_, rfl, hleft⟩
          rw [List.findSome?_cons, hsome]
          rfl

theorem promises_takesNext (start : Nat) :
    tokenizer.Promises chars tokenRule start (·.Steps (TakesNext chars) start) := by
  obtain ⟨hchoice, hentries⟩ := tokenizer_spellings
  obtain ⟨rule, hrule, hparts⟩ := Option.map_eq_some_iff.mp hchoice
  obtain ⟨hpruning, hkind⟩ := Prod.mk.inj hparts
  have hlog : tokenizer.isLog tokenRule = false := by
    rw [Graph.isLog_of_kind? (Graph.kind?_eq_some hrule), hkind]
    rfl
  refine Graph.promises_of_rule hrule fun sub hsub => ?_
  rw [hkind, hpruning]
  refine (firstOf_takesNext hsub hentries).map fun outcome houtcome => ?_
  cases outcome with
  | failure => trivial
  | success len nodes =>
      rw [Outcome.under, Outcome.mapNodes, Graph.prune_root_singleton hlog]
      exact houtcome

/-- The rounds of the tokenizer split a text. -/
theorem splits_of_rounds {reps : Nat}
    (h : Rounds (TakesNext chars) reps start stop nodes) (hstop : stop = chars.size) :
    Splits chars start (Tokenized.tokensAmong tokenizer nodes) := by
  induction h with
  | nil =>
      subst hstop
      exact .done
  | @cons _ _ _ _ first others hfirst hrest ih =>
      obtain ⟨name, len, hnext, rfl, hleft⟩ := hfirst
      rw [Tokenized.tokensAmong, List.filter_append, List.map_append]
      -- A gap leaves entries only, which are not tokens.
      by_cases hgap : name ∈ gapNames
      · rw [Remains, if_pos hgap] at hleft
        have hnone : (first.filter fun node => !tokenizer.isLog node.rule) = [] :=
          List.filter_eq_nil_iff.mpr fun node hnode => by simp [hleft node hnode]
        rw [hnone]
        exact .gap hnext hgap (ih hstop)
      · rw [Remains, if_neg hgap] at hleft
        -- Anything else leaves one node, and it is the token.
        obtain ⟨node, rfl, hrule, hspan, hfree⟩ := hleft
        have hlog : tokenizer.isLog node.rule = false :=
          hfree node (Node.mem_preorderAll_of_mem List.mem_cons_self)
        rw [Nat.add_sub_cancel_left] at hspan
        rw [List.filter_cons_of_pos (by simp [hlog])]
        exact .token hnext hgap hrule hspan (ih hstop)

/-- A scanned text is split by what comes next in it. -/
theorem scan_splits {source : String} {limit : Nat} {s : Scanned} {journal : Journal}
    (h : scan source limit = (.ok s, journal)) :
    s.chars = source.toList.toArray ∧ Splits s.chars 0 s.tokens.tokens.toList := by
  obtain ⟨hchars, -⟩ := tokenize_of_scan h
  obtain ⟨outcome, trace, hmatch, htokens⟩ := exists_matchRoot_of_scan h
  obtain ⟨reps, inner, rfl, hrounds⟩ := (tokenizer_lexical.takesAll.promises_rounds
    promises_takesNext).of_matchRoot tokenizer_lexical.takesAll.isRoot hmatch
  have htop : Tokenized.tokensOf tokenizer [⟨tokenOf "tokens", ⟨0, s.chars.size⟩, inner⟩] =
      (Tokenized.tokensAmong tokenizer inner).toArray := by
    simp [Tokenized.tokensOf, Tokenized.tokensAmong, tokenizer_lexical.takesAll.isRoot]
  refine ⟨hchars, ?_⟩
  rw [htokens, Tokenized.ofOutcome, htop]
  exact splits_of_rounds (hrounds.mono fun _ _ _ hround => hround.1.1) rfl

namespace Splits

variable {tokens : List Token}

theorem le_size (h : Splits chars start tokens) : start ≤ chars.size := by
  induction h with
  | done => exact Nat.le_refl _
  | gap _ _ _ ih => exact Nat.le_trans (Nat.le_add_right _ _) ih
  | token _ _ _ _ _ ih => exact Nat.le_trans (Nat.le_add_right _ _) ih

/-- Where a token comes next, a token is split off. -/
theorem of_next? {name : String} {len : Nat} (h : Splits chars start tokens)
    (hnext : next? (chars.toList.drop start) = some (name, len)) (htoken : name ∉ gapNames) :
    ∃ token rest, tokens = token :: rest ∧ token.kind = tokenOf name ∧
      token.span = ⟨start, len⟩ ∧ Splits chars (start + len) rest := by
  cases h with
  | done =>
      rw [List.drop_eq_nil_of_le (Nat.le_of_eq Array.length_toList), next?_nil] at hnext
      cases hnext
  | gap h hgap =>
      cases hnext.symm.trans h
      exact absurd hgap htoken
  | token h _ hkind hspan hrest =>
      cases hnext.symm.trans h
      exact ⟨_, _, rfl, hkind, hspan, hrest⟩

theorem of_end (h : Splits chars start tokens) (hend : chars.toList.drop start = []) :
    tokens = [] := by
  cases h with
  | done => rfl
  | gap h => simp [hend] at h
  | token h => simp [hend] at h

/-- A token is what comes next in the text ahead of it. -/
theorem of_mem (h : Splits chars start tokens) {token : Token} (htoken : token ∈ tokens) :
    ∃ name, next? (chars.toList.drop token.span.start) = some (name, token.span.len) ∧
      name ∉ gapNames ∧ token.kind = tokenOf name ∧ token.span.stop ≤ chars.size := by
  induction h with
  | done => cases htoken
  | gap _ _ _ ih => exact ih htoken
  | token h hname hkind hspan hrest ih =>
      rcases List.mem_cons.mp htoken with rfl | htoken
      · rw [hspan]
        exact ⟨_, h, hname, hkind, hrest.le_size⟩
      · exact ih htoken

end Splits

theorem text_eq {token : Token} {len : Nat} (hspan : token.span = ⟨start, len⟩)
    (hsize : start + len ≤ chars.size) :
    token.text chars = String.ofList ((chars.toList.drop start).take len) := by
  rw [Token.text, hspan, textAt?, if_pos (by exact hsize), Option.getD_some, Array.toList_extract,
    List.extract_eq_take_drop]
  simp [Span.stop]

/-- The tokens of a script, each with its kind and its text. -/
def Scanned.spelled (s : Scanned) : List (RuleId × String) :=
  s.tokens.tokens.toList.map fun token => (token.kind, token.text s.chars)

/-- The kind and the text of a token that a text is split into. -/
def lexemeOf (lexeme : String × List Char) : RuleId × String :=
  (tokenOf lexeme.1, String.ofList lexeme.2)

/-- What a text is split into is what `Lexes` says. -/
theorem Splits.exists_lexes {tokens : List Token} (h : Splits chars start tokens) :
    ∃ lexemes, Lexes (chars.toList.drop start) lexemes ∧
      tokens.map (fun token => (token.kind, token.text chars)) = lexemes.map lexemeOf := by
  induction h with
  | done =>
      refine ⟨[], ?_, rfl⟩
      rw [List.drop_eq_nil_of_le (Nat.le_of_eq Array.length_toList)]
      exact .nil
  | gap h hgap _ ih =>
      obtain ⟨lexemes, hlexes, hsame⟩ := ih
      rw [← List.drop_drop] at hlexes
      exact ⟨lexemes, .gap h hgap hlexes, hsame⟩
  | token h htoken hkind hspan hrest ih =>
      obtain ⟨lexemes, hlexes, hsame⟩ := ih
      rw [← List.drop_drop] at hlexes
      refine ⟨_, .token h htoken hlexes, ?_⟩
      rw [List.map_cons, List.map_cons, hsame, hkind, text_eq hspan hrest.le_size]
      rfl

theorem scan_lexes {source : String} {limit : Nat} {s : Scanned} {journal : Journal}
    (h : scan source limit = (.ok s, journal)) :
    ∃ lexemes, Lexes source.toList lexemes ∧ s.spelled = lexemes.map lexemeOf := by
  obtain ⟨hchars, hsplits⟩ := scan_splits h
  obtain ⟨lexemes, hlexes, hsame⟩ := hsplits.exists_lexes
  rw [List.drop_zero, hchars] at hlexes
  exact ⟨lexemes, hlexes, hsame⟩

end Script

end RuleScript
