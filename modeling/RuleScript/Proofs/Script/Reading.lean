import RuleScript.Proofs.Match.Origin
import RuleScript.Proofs.Script.Scanning
import RuleScript.Script.Compile

/-!
# Every statement can be read

The script grammar and the reading of what it leaves are two descriptions of the same trees.  They
agree: whatever the tokens are, no node that the grammar leaves is without a kind, and none has
other parts than those that nodes of its kind are read from (`statements_read`).

The nodes of a match are derived by `layout`, with log entries wherever it recovers.  Parts have no
log entries and do not say where they stand, so `Leaves` tells the lists of parts that a phrase
leaves, given what is known of the parts of the names in it.  With that, `reads_of_leaves` goes
through the productions one by one, and `derives_leaves` puts them together.

The grammar does not see the text of a marker.  That it is one of the three that stand for a pruning
is up to the tokenizer, and `scan_knowsMarkers` says so.
-/

namespace RuleScript

/-! ## Markers -/

section Markers

variable {g : Graph Char} {chars : Array Char} {id : RuleId} {first : Char} {letters : List Char}
variable {start len : Nat}

/-- Whether a rule matches one character and one of some letters, if a lookahead allows it. -/
def Graph.isFlag (g : Graph Char) (first : Char) (letters : List Char) (id : RuleId) : Bool :=
  match g.kind? id with
  | some (.sequence [one, other, last]) =>
    g.kind? one = some (.single first) && g.kind? other = some (.set letters) &&
      match g.kind? last with
      | some (.not _) => true
      | _ => false
  | _ => false

theorem textAt_pair {second : Char} (hfirst : chars[start]? = some first)
    (hsecond : chars[start + 1]? = some second) :
    textAt? chars ⟨start, 2⟩ = some (String.ofList [first, second]) := by
  obtain ⟨hlt, hfirst⟩ := Array.getElem?_eq_some_iff.mp hfirst
  obtain ⟨hlt', hsecond⟩ := Array.getElem?_eq_some_iff.mp hsecond
  have hpair : (chars.extract start (start + 2)).toList = [first, second] := by
    rw [Array.toList_extract, List.extract, Nat.add_sub_cancel_left,
      List.drop_eq_getElem_cons (by simpa using hlt),
      List.drop_eq_getElem_cons (by simpa using hlt')]
    simp [hfirst, hsecond]
  rw [textAt?, Span.stop, if_pos (by simp only; omega), hpair]

theorem Derives.textAt_flag (hflag : g.isFlag first letters id)
    (h : Derives g chars id start (some len)) :
    ∃ letter ∈ letters, textAt? chars ⟨start, len⟩ = some (String.ofList [first, letter]) := by
  unfold Graph.isFlag at hflag
  split at hflag
  · rename_i one other last hkind
    simp only [Bool.and_eq_true, decide_eq_true_eq] at hflag
    obtain ⟨⟨hone, hother⟩, hlast⟩ := hflag
    split at hlast
    · rename_i barred hbarred
      -- Two characters, and nothing but the end of a name behind them.
      obtain ⟨len₁, more, hfirst, hmore, rfl⟩ := (h.inOrder hkind).of_cons
      obtain ⟨len₂, rest, hletter, hrest, rfl⟩ := hmore.of_cons
      obtain ⟨len₃, none', hahead, hnil, rfl⟩ := hrest.of_cons
      obtain rfl : len₃ = 0 := by simpa using hahead.verdict_not hbarred
      obtain rfl : none' = 0 := by cases hnil; rfl
      have hfirst := hfirst.verdict_single hone
      have hletter := hletter.verdict_set hother
      split at hfirst
      · rename_i hat
        obtain rfl := Option.some.inj hfirst
        split at hletter
        · rename_i hat'
          obtain rfl := Option.some.inj hletter
          obtain ⟨letter, hat', hmem⟩ := hat'
          exact ⟨letter, hmem, textAt_pair hat hat'⟩
        · cases hletter
      · cases hfirst
    · cases hlast
  · cases hflag

end Markers

theorem Tokenized.charSpan_single {t : Tokenized} {pos : Nat} {token : Token}
    (h : t.tokens[pos]? = some token) (textLen : Nat) :
    t.charSpan textLen ⟨pos, 1⟩ = token.span := by
  simp [charSpan, startOf, stopOf, h, Span.isEmpty, Span.ofBounds, Span.stop]

namespace Script

/-- Each marker in a script stands for a pruning. -/
def Scanned.KnowsMarkers (s : Scanned) : Prop :=
  ∀ pos, s.tokens.kinds[pos]? = some (tokenOf "prune") →
    ∃ pruning, s.pruning ⟨pos, 1⟩ = .ok pruning

theorem tokenizer_isFlag : tokenizer.isFlag '-' ['a', 'c', 'r'] (tokenOf "prune") := by
  decide +kernel

theorem ofMarker_flag : ['a', 'c', 'r'].all fun letter =>
    (Pruning.ofMarker? (String.ofList ['-', letter])).isSome := by
  decide

/-- A scanned script has the characters of its text, and its tokens are those of the tokenizer. -/
theorem tokenize_of_scan {source : String} {limit : Nat} {s : Scanned} {journal : Journal}
    (h : scan source limit = (.ok s, journal)) :
    s.chars = source.toList.toArray ∧
      tokenizer.tokenize source.toList.toArray limit = (.ok s.tokens, journal) := by
  rw [scan] at h
  rcases htokens : tokenizer.tokenize source.toList.toArray limit with ⟨cause | t, journal'⟩
  · rw [htokens] at h
    cases h
  · rw [htokens] at h
    cases h
    exact ⟨rfl, rfl⟩

/-- The tokens of a script are what a match of the tokenizer left. -/
theorem exists_matchRoot_of_scan {source : String} {limit : Nat} {s : Scanned} {journal : Journal}
    (h : scan source limit = (.ok s, journal)) :
    ∃ outcome trace, tokenizer.matchRoot s.chars limit = (.ok outcome, trace) ∧
      s.tokens = .ofOutcome tokenizer trace.farthest outcome := by
  obtain ⟨hchars, htokens⟩ := tokenize_of_scan h
  rw [← hchars, Graph.tokenize] at htokens
  rcases hmatch : tokenizer.matchRoot s.chars limit with ⟨cause | outcome, trace⟩
  · rw [hmatch] at htokens
    cases htokens
  · rw [hmatch] at htokens
    exact ⟨outcome, trace, rfl, (Except.ok.inj (congrArg Prod.fst htokens)).symm⟩

/-- A token of a script is a match of its rule. -/
theorem derives_of_scan {source : String} {limit : Nat} {s : Scanned} {journal : Journal}
    (h : scan source limit = (.ok s, journal)) {pos : Nat} {kind : RuleId}
    (hpos : s.tokens.kinds[pos]? = some kind) :
    Derives tokenizer s.chars kind (s.charSpan ⟨pos, 1⟩).start (some (s.charSpan ⟨pos, 1⟩).len) := by
  have hroot : tokenizer.root.isSome := by
    rw [tokenizer_lexical.takesAll.isRoot]
    rfl
  obtain ⟨hchars, htokens⟩ := tokenize_of_scan h
  rw [Tokenized.kinds, Array.getElem?_map, Option.map_eq_some_iff] at hpos
  obtain ⟨token, htoken, rfl⟩ := hpos
  rw [Scanned.charSpan, Tokenized.charSpan_single htoken, hchars]
  exact Graph.tokenize_sourced tokenizer_lexical.takesAll.primitive hroot htokens
    (Array.mem_of_getElem? htoken)

theorem scan_knowsMarkers {source : String} {limit : Nat} {s : Scanned} {journal : Journal}
    (h : scan source limit = (.ok s, journal)) : s.KnowsMarkers := by
  intro pos hpos
  obtain ⟨letter, hletter, htext⟩ := (derives_of_scan h hpos).textAt_flag tokenizer_isFlag
  obtain ⟨pruning, hpruning⟩ := Option.isSome_iff_exists.mp
    (List.all_eq_true.mp ofMarker_flag letter hletter)
  refine ⟨pruning, ?_⟩
  simp only [Scanned.pruning, Scanned.lexeme, htext, Option.getD_some, hpruning]

/-! ## What phrases leave -/

section Leaving

variable (tokens : Array RuleId) (good : NodeKind → Span → List Part → Prop)

mutual

/-- What a phrase leaves when log entries are passed over, if names leave what is `good`. -/
def Leaves : Phrase RuleId NodeKind → List Part → Prop
  | .kept value kind, parts => ∃ pos, tokens[pos]? = some value ∧ parts = [⟨kind, ⟨pos, 1⟩, []⟩]
  | .dropped _, parts | .recovery, parts => parts = []
  | .rule kind, parts => ∃ span inner, good kind span inner ∧ parts = [⟨kind, span, inner⟩]
  | .sequence phrases, parts => LeaveInOrder phrases parts
  | .choice phrases, parts => OneLeaves phrases parts
  | .optional phrase, parts => parts = [] ∨ Leaves phrase parts
  | .many phrase, parts => ∃ rounds : List (List Part),
      (∀ round ∈ rounds, Leaves phrase round) ∧ parts = rounds.flatten
  | .several phrase, parts => ∃ (first : List Part) (rounds : List (List Part)),
      Leaves phrase first ∧ (∀ round ∈ rounds, Leaves phrase round) ∧
        parts = first ++ rounds.flatten

def LeaveInOrder : List (Phrase RuleId NodeKind) → List Part → Prop
  | [], parts => parts = []
  | phrase :: phrases, parts => ∃ first rest, Leaves phrase first ∧ LeaveInOrder phrases rest ∧
      parts = first ++ rest

def OneLeaves : List (Phrase RuleId NodeKind) → List Part → Prop
  | [], _ => False
  | phrase :: phrases, parts => Leaves phrase parts ∨ OneLeaves phrases parts

end

end Leaving

namespace Part

theorem ofNode_ruleOf (kind : NodeKind) (span : Span) (children : List Node) :
    ofNode ⟨ruleOf kind, span, children⟩ = (ofNodes children).map (⟨kind, span, ·⟩) := by
  rw [ofNode, nodeKind_ruleOf]

theorem ofNodes_cons_ok {node : Node} {rest : List Node} {parts : List Part}
    (hlog : grammar.isLog node.rule = false) (h : ofNodes (node :: rest) = .ok parts) :
    ∃ part more, ofNode node = .ok part ∧ ofNodes rest = .ok more ∧ parts = part :: more := by
  rw [ofNodes, hlog] at h
  cases hnode : ofNode node with
  | error error =>
      rw [hnode] at h
      cases h
  | ok part =>
      rw [hnode] at h
      cases hrest : ofNodes rest with
      | error error =>
          rw [hrest] at h
          cases h
      | ok more =>
          rw [hrest] at h
          cases h
          exact ⟨part, more, rfl, rfl, rfl⟩

theorem ofNodes_append {first second : List Node} {parts rest : List Part}
    (hfirst : ofNodes first = .ok parts) (hsecond : ofNodes second = .ok rest) :
    ofNodes (first ++ second) = .ok (parts ++ rest) := by
  induction first generalizing parts with
  | nil =>
      cases hfirst
      exact hsecond
  | cons node first ih =>
      rw [List.cons_append]
      cases hlog : grammar.isLog node.rule with
      | true =>
          rw [ofNodes, if_pos hlog] at hfirst ⊢
          exact ih hfirst
      | false =>
          obtain ⟨part, more, hnode, hmore, rfl⟩ := ofNodes_cons_ok hlog hfirst
          rw [ofNodes, hlog, hnode, ih hmore]
          rfl

theorem ofNodes_logs {nodes : List Node} (h : ∀ node ∈ nodes, grammar.isLog node.rule) :
    ofNodes nodes = .ok [] := by
  induction nodes with
  | nil => rfl
  | cons node nodes ih =>
      rw [ofNodes, if_pos (h node List.mem_cons_self)]
      exact ih fun other hother => h other (List.mem_cons_of_mem _ hother)

/-- What is known of all parts of a list is known of each node that is no log entry. -/
theorem exists_of_ofNodes {nodes : List Node} {parts : List Part} (h : ofNodes nodes = .ok parts)
    {node : Node} (hnode : node ∈ nodes) (hlog : grammar.isLog node.rule = false) :
    ∃ part ∈ parts, ofNode node = .ok part := by
  induction nodes generalizing parts with
  | nil => cases hnode
  | cons first rest ih =>
      cases hfirst : grammar.isLog first.rule with
      | true =>
          rw [ofNodes, if_pos hfirst] at h
          refine ih h ((List.mem_cons.mp hnode).resolve_left ?_)
          rintro rfl
          exact Bool.noConfusion (hlog.symm.trans hfirst)
      | false =>
          obtain ⟨part, more, hpart, hmore, rfl⟩ := ofNodes_cons_ok hfirst h
          rcases List.mem_cons.mp hnode with rfl | hnode
          · exact ⟨part, List.mem_cons_self, hpart⟩
          · obtain ⟨other, hother, heq⟩ := ih hmore hnode
            exact ⟨other, List.mem_cons_of_mem _ hother, heq⟩

theorem ofNodes_ruleOf {kind : NodeKind} {span : Span} {children : List Node} {parts : List Part}
    (h : ofNodes children = .ok parts) :
    ofNodes [⟨ruleOf kind, span, children⟩] = .ok [⟨kind, span, parts⟩] := by
  rw [ofNodes, not_isLog_ruleOf, ofNode_ruleOf, h]
  rfl

end Part

section

variable {tokens : Array RuleId} {good : NodeKind → Span → List Part → Prop}

theorem oneLeaves_of_mem {phrase : Phrase RuleId NodeKind} {phrases : List (Phrase RuleId NodeKind)}
    {parts : List Part} (hphrase : phrase ∈ phrases) (h : Leaves tokens good phrase parts) :
    OneLeaves tokens good phrases parts := by
  induction phrases with
  | nil => cases hphrase
  | cons first rest ih =>
      rcases List.mem_cons.mp hphrase with rfl | hphrase
      · exact .inl h
      · exact .inr (ih hphrase)

mutual

/-- The parts of what a phrase derives are parts that it leaves, if what the production of a name
leaves is always good for the name. -/
theorem derives_leaves
    (hgood : ∀ kind span inner, Leaves tokens good (layout.phrase kind) inner → good kind span inner)
    {phrase : Phrase RuleId NodeKind} {start stop : Nat} {nodes : List Node} :
    Phrase.Derives layout grammar.Remarks tokens phrase start stop nodes →
      ∃ parts, Part.ofNodes nodes = .ok parts ∧ Leaves tokens good phrase parts
  | .kept h => ⟨_, Part.ofNodes_ruleOf rfl, _, h, rfl⟩
  | .dropped _ => ⟨[], rfl, rfl⟩
  | .rule h => by
      obtain ⟨inner, hinner, hleaves⟩ := derives_leaves hgood h
      exact ⟨_, Part.ofNodes_ruleOf hinner, _, inner, hgood _ _ _ hleaves, rfl⟩
  | .sequence h => inOrder_leaves hgood h
  | .choice hpart h => by
      obtain ⟨parts, hparts, hleaves⟩ := derives_leaves hgood h
      exact ⟨parts, hparts, oneLeaves_of_mem hpart hleaves⟩
  | .absent => ⟨[], rfl, .inl rfl⟩
  | .present h => by
      obtain ⟨parts, hparts, hleaves⟩ := derives_leaves hgood h
      exact ⟨parts, hparts, .inr hleaves⟩
  | .many h => by
      obtain ⟨rounds, hrounds, hleaves⟩ := inRounds_leaves hgood h
      exact ⟨_, hrounds, rounds, hleaves, rfl⟩
  | .several h hrest => by
      obtain ⟨first, hfirst, hleaves⟩ := derives_leaves hgood h
      obtain ⟨rounds, hrounds, hmore⟩ := inRounds_leaves hgood hrest
      exact ⟨_, Part.ofNodes_append hfirst hrounds, first, rounds, hleaves, hmore, rfl⟩
  -- Whatever is recovered from leaves entries, which are no parts.
  | .recovery h => ⟨[], Part.ofNodes_logs h.2, rfl⟩

theorem inOrder_leaves
    (hgood : ∀ kind span inner, Leaves tokens good (layout.phrase kind) inner → good kind span inner)
    {phrases : List (Phrase RuleId NodeKind)} {start stop : Nat}
    {nodes : List Node} :
    Phrase.InOrder layout grammar.Remarks tokens phrases start stop nodes →
      ∃ parts, Part.ofNodes nodes = .ok parts ∧ LeaveInOrder tokens good phrases parts
  | .nil => ⟨[], rfl, rfl⟩
  | .cons h hrest => by
      obtain ⟨first, hfirst, hleaves⟩ := derives_leaves hgood h
      obtain ⟨rest, hrest, hmore⟩ := inOrder_leaves hgood hrest
      exact ⟨_, Part.ofNodes_append hfirst hrest, first, rest, hleaves, hmore, rfl⟩

theorem inRounds_leaves
    (hgood : ∀ kind span inner, Leaves tokens good (layout.phrase kind) inner → good kind span inner)
    {phrase : Phrase RuleId NodeKind} {start stop : Nat} {nodes : List Node} :
    Phrase.InRounds layout grammar.Remarks tokens phrase start stop nodes →
      ∃ rounds : List (List Part), Part.ofNodes nodes = .ok rounds.flatten ∧
        ∀ round ∈ rounds, Leaves tokens good phrase round
  | .nil => ⟨[], rfl, fun _ h => nomatch h⟩
  | .cons h hrest => by
      obtain ⟨first, hfirst, hleaves⟩ := derives_leaves hgood h
      obtain ⟨rounds, hrounds, hmore⟩ := inRounds_leaves hgood hrest
      exact ⟨first :: rounds, Part.ofNodes_append hfirst hrounds,
        List.forall_mem_cons.mpr ⟨hleaves, hmore⟩⟩

end

end

/-! ## What parts are read as -/

@[simp] theorem ok_bind {β γ : Type} (value : β) (next : β → Reading γ) :
    ((.ok value : Reading β) >>= next) = next value := rfl

theorem exists_mapM_ok {β γ : Type} {f : β → Reading γ} {list : List β}
    (h : ∀ a ∈ list, ∃ value, f a = .ok value) : ∃ values, list.mapM f = .ok values := by
  induction list with
  | nil => exact ⟨[], rfl⟩
  | cons a list ih =>
      obtain ⟨⟨value, hvalue⟩, hlist⟩ := List.forall_mem_cons.mp h
      obtain ⟨values, hvalues⟩ := ih hlist
      exact ⟨value :: values, by rw [List.mapM_cons, hvalue, ok_bind, hvalues]; rfl⟩

/-- A node with these parts is read as what its kind stands for. -/
def Scanned.Reads (s : Scanned) : NodeKind → Span → List Part → Prop
  | .script, _, parts => ∀ part ∈ parts, ∃ statement, s.statement part = .ok statement
  | .includeStatement, span, parts =>
    ∃ statement, s.statement ⟨.includeStatement, span, parts⟩ = .ok statement
  | .rule, span, parts => ∃ statement, s.statement ⟨.rule, span, parts⟩ = .ok statement
  | .header, _, parts => ∃ header, s.header parts = .ok header
  | .choice, _, parts | .evaluation, _, parts =>
    ∃ alternatives, s.expressions parts = .ok alternatives
  | .bounds, span, parts => ∃ form, s.bounds span parts = .ok form
  | .setItem, span, parts => ∃ item, s.item ⟨.setItem, span, parts⟩ = .ok item
  | kind, span, parts => ∃ e, s.expression ⟨kind, span, parts⟩ = .ok e

section

variable {s : Scanned} {tokens : Array RuleId} {parts : List Part}

/-! ### Expressions -/

/-- The operand of a unary is an expression: the node of an operator or a token. -/
theorem expression_of_leaves (h : Leaves tokens s.Reads unmarked parts) :
    ∃ operand e, parts = [operand] ∧ s.expression operand = .ok e := by
  simp only [unmarked, token, Leaves, OneLeaves, or_false] at h
  rcases h with h | h | h | h | h | h | h | h | h | h
  all_goals first
    | obtain ⟨span, inner, ⟨e, he⟩, rfl⟩ := h
      exact ⟨_, e, rfl, he⟩
    | obtain ⟨pos, -, rfl⟩ := h
      exact ⟨_, _, rfl, rfl⟩

theorem expressions_cons_ok {part : Part} {es : List Expression}
    (h : s.expressions (part :: parts) = .ok es) :
    ∃ e rest, s.expression part = .ok e ∧ s.expressions parts = .ok rest := by
  rw [Scanned.expressions] at h
  cases hpart : s.expression part with
  | error error =>
      rw [hpart] at h
      cases h
  | ok e =>
      cases hparts : s.expressions parts with
      | error error =>
          rw [hpart, hparts] at h
          cases h
      | ok rest => exact ⟨e, rest, rfl, rfl⟩

theorem expressions_append {first second : List Part} (hfirst : ∃ es, s.expressions first = .ok es)
    (hsecond : ∃ es, s.expressions second = .ok es) :
    ∃ es, s.expressions (first ++ second) = .ok es := by
  induction first with
  | nil => exact hsecond
  | cons part first ih =>
      obtain ⟨es, hes⟩ := hfirst
      obtain ⟨e, rest, he, hrest⟩ := expressions_cons_ok hes
      obtain ⟨more, hmore⟩ := ih ⟨rest, hrest⟩
      exact ⟨e :: more, by simp [Scanned.expressions, he, hmore]⟩

theorem expressions_flatten {rounds : List (List Part)}
    (h : ∀ round ∈ rounds, ∃ es, s.expressions round = .ok es) :
    ∃ es, s.expressions rounds.flatten = .ok es := by
  induction rounds with
  | nil => exact ⟨[], rfl⟩
  | cons round rounds ih =>
      obtain ⟨hround, hrounds⟩ := List.forall_mem_cons.mp h
      exact expressions_append hround (ih hrounds)

theorem expressions_singleton {part : Part} {e : Expression} (h : s.expression part = .ok e) :
    ∃ es, s.expressions [part] = .ok es :=
  ⟨[e], by simp [Scanned.expressions, h]⟩

theorem expression_sequence {span : Span} (h : ∃ es, s.expressions parts = .ok es) :
    ∃ e, s.expression ⟨.sequence, span, parts⟩ = .ok e := by
  obtain ⟨es, hes⟩ := h
  match parts, hes with
  | [], hes => exact ⟨.sequence es, by simp [Scanned.expression, hes]⟩
  | [only], hes =>
      obtain ⟨e, -, he, -⟩ := expressions_cons_ok hes
      exact ⟨e, by simp [Scanned.expression, he]⟩
  | _ :: _ :: _, hes => exact ⟨.sequence es, by simp [Scanned.expression, hes]⟩

/-- The alternatives of a choice or of an evaluation, each behind a mark. -/
theorem alternatives_of_leaves {separator : String}
    (h : Leaves tokens s.Reads (.several (.sequence [mark separator, .rule .sequence])) parts) :
    ∃ es, s.expressions parts = .ok es := by
  have hround (round : List Part)
      (h : Leaves tokens s.Reads (.sequence [mark separator, .rule .sequence]) round) :
      ∃ es, s.expressions round = .ok es := by
    simp only [mark, Leaves, LeaveInOrder] at h
    obtain ⟨_, _, rfl, ⟨_, _, ⟨span, inner, ⟨e, he⟩, rfl⟩, rfl, rfl⟩, rfl⟩ := h
    exact expressions_singleton he
  rw [Leaves] at h
  obtain ⟨first, rounds, hfirst, hrounds, rfl⟩ := h
  exact expressions_append (hround _ hfirst) (expressions_flatten fun round hmem =>
    hround _ (hrounds round hmem))

theorem body_of_leaves
    (h : Leaves tokens s.Reads
      (.sequence [.rule .sequence, .optional (.choice [.rule .choice, .rule .evaluation])]) parts) :
    ∃ e, s.body parts = .ok e := by
  simp only [Leaves, LeaveInOrder, OneLeaves, or_false] at h
  obtain ⟨_, _, ⟨span, inner, ⟨e, he⟩, rfl⟩, ⟨_, _, htail, rfl, rfl⟩, rfl⟩ := h
  rcases htail with rfl | ⟨span', others, ⟨es, hes⟩, rfl⟩ | ⟨span', others, ⟨es, hes⟩, rfl⟩
  · exact ⟨e, by simp [Scanned.body, he]⟩
  · exact ⟨.choice (e :: es), by simp [Scanned.body, he, hes]⟩
  · exact ⟨.evaluation (e :: es), by simp [Scanned.body, he, hes]⟩

/-! ### Productions -/

/-- What a production leaves is what its nodes are read from. -/
def Scanned.Suits (s : Scanned) (kind : NodeKind) : Prop :=
  ∀ span parts, Leaves s.tokens.kinds s.Reads (layout.phrase kind) parts → s.Reads kind span parts

theorem suits_script : s.Suits .script := by
  intro span parts h
  simp only [layout, Layout.phrase, Leaves] at h
  obtain ⟨rounds, hrounds, rfl⟩ := h
  intro part hpart
  obtain ⟨round, hmem, hpart⟩ := List.mem_flatten.mp hpart
  have hround := hrounds round hmem
  simp only [List.replicate, List.cons_append, List.nil_append, OneLeaves, Leaves, or_false,
    or_self] at hround
  -- A round is an include, a rule, or a recovery, which leaves nothing.
  rcases hround with ⟨span, inner, hread, rfl⟩ | ⟨span, inner, hread, rfl⟩ | rfl
  · rw [List.mem_singleton.mp hpart]
    exact hread
  · rw [List.mem_singleton.mp hpart]
    exact hread
  · cases hpart

theorem suits_includeStatement : s.Suits .includeStatement := by
  intro span parts h
  simp only [layout, Layout.phrase, mark, token, Leaves, LeaveInOrder] at h
  obtain ⟨_, _, rfl, ⟨_, _, ⟨pos, -, rfl⟩, ⟨_, _, rfl, rfl, rfl⟩, rfl⟩, rfl⟩ := h
  exact ⟨_, rfl⟩

theorem suits_rule : s.Suits .rule := by
  intro span parts h
  obtain ⟨_, _, ⟨span', inner, ⟨header, hheader⟩, rfl⟩, hrest, rfl⟩ := h
  obtain ⟨_, _, rfl, ⟨body, _, hbody, ⟨_, _, rfl, rfl, rfl⟩, rfl⟩, rfl⟩ := hrest
  obtain ⟨e, he⟩ := body_of_leaves hbody
  exact ⟨.rule header e, by simp [Scanned.statement, hheader, he]⟩

/-- A header has a name, perhaps behind a marker and perhaps in front of a precedence. -/
theorem suits_header (hmarkers : s.KnowsMarkers) : s.Suits .header := by
  intro span parts h
  simp only [layout, Layout.phrase, token, Leaves, LeaveInOrder] at h
  obtain ⟨marker, _, hmarker, ⟨_, _, ⟨pos, -, rfl⟩, ⟨precedence, _, hprecedence, rfl, rfl⟩,
    rfl⟩, rfl⟩ := h
  rcases hmarker with rfl | ⟨pos', hpos', rfl⟩
  · rcases hprecedence with rfl | ⟨pos'', -, rfl⟩
    · exact ⟨_, rfl⟩
    · exact ⟨_, rfl⟩
  · obtain ⟨pruning, hpruning⟩ := hmarkers pos' hpos'
    rcases hprecedence with rfl | ⟨pos'', -, rfl⟩
    · exact ⟨_, by simp [Scanned.header, Scanned.headerPart, hpruning]; rfl⟩
    · exact ⟨_, by simp [Scanned.header, Scanned.headerPart, hpruning]; rfl⟩

theorem suits_sequence : s.Suits .sequence := by
  intro span parts h
  obtain ⟨_, _, ⟨span', inner, ⟨e, he⟩, rfl⟩, ⟨_, _, hmore, rfl, rfl⟩, rfl⟩ := h
  simp only [mark, Leaves] at hmore
  obtain ⟨rounds, hrounds, rfl⟩ := hmore
  refine expression_sequence (expressions_append (expressions_singleton he) ?_)
  rw [List.append_nil]
  refine expressions_flatten fun round hmem => ?_
  have hround := hrounds round hmem
  simp only [OneLeaves, Leaves, LeaveInOrder, or_false] at hround
  -- Behind the first part there are more parts, each behind its mark, and recoveries.
  rcases hround with ⟨_, _, rfl, ⟨_, _, ⟨span', inner, ⟨e, he⟩, rfl⟩, rfl, rfl⟩, rfl⟩ | rfl
  · exact expressions_singleton he
  · exact ⟨[], rfl⟩

theorem suits_unary (hmarkers : s.KnowsMarkers) : s.Suits .unary := by
  intro span parts h
  obtain ⟨_, _, ⟨rounds, hrounds, rfl⟩, ⟨marker, _, hmarker, ⟨_, _, hoperand, rfl, rfl⟩, rfl⟩,
    rfl⟩ := h
  obtain ⟨operand, e, rfl, he⟩ := expression_of_leaves hoperand
  have hnone : rounds.flatten = [] := List.flatten_eq_nil_iff.mpr hrounds
  rw [hnone]
  rcases hmarker with rfl | ⟨pos, hpos, rfl⟩
  · exact ⟨e, by simp [Scanned.expression, he]⟩
  · obtain ⟨pruning, hpruning⟩ := hmarkers pos hpos
    exact ⟨.pruned pruning e, by simp [Scanned.expression, hpruning, he]⟩

theorem suits_count : s.Suits .count := by
  intro span parts h
  simp only [layout, Layout.phrase, token, Leaves, LeaveInOrder, OneLeaves, or_false] at h
  obtain ⟨operator, _, hoperator, ⟨_, _, ⟨span', inner, ⟨e, he⟩, rfl⟩, rfl, rfl⟩, rfl⟩ := h
  have hform : ∃ part form, operator = [part] ∧ s.repetition part = .ok form := by
    rcases hoperator with ⟨_, -, rfl⟩ | ⟨_, -, rfl⟩ | ⟨_, -, rfl⟩ | ⟨_, _, ⟨form, h⟩, rfl⟩
    · exact ⟨_, .star, rfl, rfl⟩
    · exact ⟨_, .plus, rfl, rfl⟩
    · exact ⟨_, .question, rfl, rfl⟩
    · exact ⟨_, form, rfl, h⟩
  obtain ⟨part, form, rfl, hform⟩ := hform
  exact ⟨.repetition form e, by simp [Scanned.expression, hform, he]⟩

/-- There may be one bound, one with dots behind it, or two with dots between them. -/
theorem suits_bounds : s.Suits .bounds := by
  intro span parts h
  simp only [layout, Layout.phrase, mark, token, Leaves, LeaveInOrder] at h
  obtain ⟨_, _, rfl, ⟨_, _, ⟨min, -, rfl⟩, ⟨tail, _, htail, ⟨_, _, rfl, rfl, rfl⟩, rfl⟩, rfl⟩,
    rfl⟩ := h
  rcases htail with rfl | ⟨_, _, ⟨dots, -, rfl⟩, ⟨upper, _, hupper, rfl, rfl⟩, rfl⟩
  · exact ⟨_, rfl⟩
  · rcases hupper with rfl | ⟨max, -, rfl⟩
    · exact ⟨_, rfl⟩
    · exact ⟨_, rfl⟩

theorem suits_skip : s.Suits .skip := by
  intro span parts h
  simp only [layout, Layout.phrase, token, Leaves, LeaveInOrder, OneLeaves, or_false] at h
  obtain ⟨keyword, _, hkeyword, ⟨_, _, ⟨span', inner, ⟨e, he⟩, rfl⟩, rfl, rfl⟩, rfl⟩ := h
  rcases hkeyword with ⟨_, -, rfl⟩ | ⟨_, -, rfl⟩ | ⟨_, -, rfl⟩ <;>
    exact ⟨_, by simp [Scanned.expression, Scanned.skipForm, he]; rfl⟩

theorem suits_log : s.Suits .log := by
  intro span parts h
  simp only [layout, Layout.phrase, mark, token, Leaves, LeaveInOrder, OneLeaves, or_false] at h
  obtain ⟨level, _, hlevel, ⟨_, _, ⟨pos, -, rfl⟩, ⟨guard, _, hguard, rfl, rfl⟩, rfl⟩, rfl⟩ := h
  have hseverity : ∃ part severity, level = [part] ∧ Scanned.severity part.kind = .ok severity := by
    rcases hlevel with ⟨_, -, rfl⟩ | ⟨_, -, rfl⟩ | ⟨_, -, rfl⟩ | ⟨_, -, rfl⟩ | ⟨_, -, rfl⟩ <;>
      exact ⟨_, _, rfl, rfl⟩
  obtain ⟨⟨keyword, span', inner⟩, severity, rfl, hseverity⟩ := hseverity
  rcases hguard with rfl | ⟨_, _, rfl, ⟨_, _, ⟨span', inner, ⟨e, he⟩, rfl⟩, rfl, rfl⟩, rfl⟩
  · exact ⟨_, by simp [Scanned.expression, hseverity]; rfl⟩
  · exact ⟨_, by simp [Scanned.expression, hseverity, he]; rfl⟩

theorem suits_group : s.Suits .group := by
  intro span parts h
  obtain ⟨_, _, rfl, ⟨body, _, hbody, ⟨_, _, rfl, rfl, rfl⟩, rfl⟩, rfl⟩ := h
  obtain ⟨e, he⟩ := body_of_leaves hbody
  exact ⟨e, by simp [Scanned.expression, he]⟩

theorem suits_set : s.Suits .set := by
  intro span parts h
  obtain ⟨_, _, rfl, ⟨_, _, ⟨rounds, hrounds, rfl⟩, ⟨_, _, rfl, rfl, rfl⟩, rfl⟩, rfl⟩ := h
  have hitems : ∃ items, rounds.flatten.mapM s.item = .ok items := by
    refine exists_mapM_ok fun part hpart => ?_
    obtain ⟨round, hmem, hpart⟩ := List.mem_flatten.mp hpart
    obtain ⟨span', inner, hitem, rfl⟩ := hrounds round hmem
    rw [List.mem_singleton.mp hpart]
    exact hitem
  obtain ⟨items, hitems⟩ := hitems
  exact ⟨_, by simp [Scanned.expression, hitems]; rfl⟩

theorem suits_setItem : s.Suits .setItem := by
  intro span parts h
  simp only [layout, Layout.phrase, mark, token, Leaves, LeaveInOrder] at h
  obtain ⟨_, _, ⟨pos, -, rfl⟩, ⟨second, _, hsecond, rfl, rfl⟩, rfl⟩ := h
  rcases hsecond with rfl | ⟨_, _, rfl, ⟨_, _, ⟨pos', -, rfl⟩, rfl, rfl⟩, rfl⟩
  · exact ⟨_, rfl⟩
  · exact ⟨_, rfl⟩

/-- **Each production leaves what nodes of its kind are read from.** -/
theorem reads_of_leaves (hmarkers : s.KnowsMarkers) (kind : NodeKind) (span : Span)
    (parts : List Part) (h : Leaves s.tokens.kinds s.Reads (layout.phrase kind) parts) :
    s.Reads kind span parts := by
  -- One lemma for each kind of node; what is short is proved in place.
  cases kind with
  | script => exact suits_script span parts h
  | includeStatement => exact suits_includeStatement span parts h
  | rule => exact suits_rule span parts h
  | header => exact suits_header hmarkers span parts h
  | choice => exact alternatives_of_leaves h
  | evaluation => exact alternatives_of_leaves h
  | sequence => exact suits_sequence span parts h
  | unary => exact suits_unary hmarkers span parts h
  | count => exact suits_count span parts h
  | bounds => exact suits_bounds span parts h
  | not =>
      obtain ⟨_, _, rfl, ⟨_, _, ⟨span', inner, ⟨e, he⟩, rfl⟩, rfl, rfl⟩, rfl⟩ := h
      exact ⟨.not e, by simp [Scanned.expression, he]⟩
  | condition =>
      obtain ⟨_, _, rfl, ⟨_, _, ⟨span', inner, ⟨e, he⟩, rfl⟩, rfl, rfl⟩, rfl⟩ := h
      exact ⟨.condition e, by simp [Scanned.expression, he]⟩
  | skip => exact suits_skip span parts h
  | log => exact suits_log span parts h
  | group => exact suits_group span parts h
  | set => exact suits_set span parts h
  | setItem => exact suits_setItem span parts h
  | _ => exact h.elim

end

/-! ## Whole matches -/

/-- **Every statement can be read**: whatever the tokens of a script are, each statement in what the
grammar leaves has the parts that its kind is read from. -/
theorem statements_read {s : Scanned} (hmarkers : s.KnowsMarkers) {limit : Nat} {outcome : Outcome}
    {trace : Trace} (h : grammar.matchRoot s.tokens.kinds limit = (.ok outcome, trace)) {node : Node}
    (hnode : node ∈ statementNodes outcome.nodes) (hlog : grammar.isLog node.rule = false) :
    ∃ statement, Part.ofNode node >>= s.statement = .ok statement := by
  have hderives := (Productions.promises_derives grammar_describes.1
    (promises_remarks s.tokens.kinds)
    (grammar_describes.1.realizes_rule (by decide : NodeKind.script ∈ compounds)) 0).of_matchRoot
      grammar_statements.1 h
  cases outcome with
  | failure => cases hnode
  | success len nodes =>
      obtain ⟨len', found, -, rfl, hfound⟩ := Phrase.derives_rule_iff.mp hderives
      have hscript : grammar.nodeKind? (layout.idOf .script) = some .script := nodeKind_ruleOf .script
      rw [statementNodes, Outcome.nodes, List.flatMap_singleton, if_pos hscript] at hnode
      obtain ⟨parts, hparts, hleaves⟩ := derives_leaves (reads_of_leaves hmarkers) hfound
      obtain ⟨part, hpart, heq⟩ := Part.exists_of_ofNodes hparts hnode hlog
      rw [heq, ok_bind]
      exact reads_of_leaves hmarkers .script ⟨0, len'⟩ parts hleaves part hpart

end Script

end RuleScript
