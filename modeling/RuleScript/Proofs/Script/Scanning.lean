import RuleScript.Proofs.Match.Height
import RuleScript.Proofs.Match.Remark
import RuleScript.Proofs.Script.Language
import RuleScript.Token

/-!
# Splitting a script into tokens loses nothing

Whatever a text is, the tokenizer goes through it to its end and cuts it up (`Cut`) into tokens and
into what leaves no token: white space and comments (`Gap`).  A block comment that is not closed
takes the rest of the text and is remarked upon.

The tokenizer is one choice, repeated.  Each round of it is a `Piece` of the text: all but the first
three alternatives leave one node over what they matched and no log entry, which the rules tell by
themselves (`Graph.isToken`), and the first three are those that leave no token.  That a round never
consumes nothing and is never refused before the end of the text is known of valid graphs.
-/

namespace RuleScript

namespace Script

/-! ## Texts cut up -/

section Texts

/-- A text stands at a position of the characters. -/
def Stands (chars : Array Char) (text : String) (pos : Nat) : Prop :=
  text.toList <+: chars.toList.drop pos

/-- A block comment is opened at a position and not closed any more. -/
structure Unterminated (chars : Array Char) (start : Nat) : Prop where
  opening : Stands chars "(*" start
  endless : ∀ pos, start + 2 ≤ pos → ¬ Stands chars "*)" pos

/-- What leaves no token: white space, a comment up to the end of its line, and a block comment up
to where it is closed first. -/
inductive Gap (chars : Array Char) (start : Nat) : Nat → Prop
  | whitespace {stop : Nat} (hlt : start < stop)
      (h : ∀ pos, start ≤ pos → pos < stop → ∃ c ∈ chars[pos]?, c ∈ ['\t', '\n', '\r', ' ']) :
      Gap chars start stop
  | lineComment {stop : Nat} (hhash : chars[start]? = some '#') (hlt : start < stop)
      (hline : ∀ pos, start < pos → pos < stop → ∃ c ∈ chars[pos]?, c ≠ '\n')
      (hend : stop = chars.size ∨ chars[stop]? = some '\n') : Gap chars start stop
  | blockComment {inner : Nat} (hopening : Stands chars "(*" start)
      (hinner : ∀ before < inner, ¬ Stands chars "*)" (start + 2 + before))
      (hclosing : Stands chars "*)" (start + 2 + inner)) : Gap chars start (start + 2 + inner + 2)

/-- The remark upon a block comment that is not closed, after the two characters that open it. -/
def unterminatedEntry (rule : RuleId) (start : Nat) : LogEntry :=
  ⟨rule, .warning, "unterminated block comment", .empty (start + 2)⟩

/-- A text from a position on, cut up into tokens and what lies between them. -/
inductive Cut (chars : Array Char) : Nat → List Token → List LogEntry → Prop
  | done : Cut chars chars.size [] []
  | token {token : Token} {tokens : List Token} {logs : List LogEntry} (hlen : 0 < token.span.len)
      (hrest : Cut chars token.span.stop tokens logs) :
      Cut chars token.span.start (token :: tokens) logs
  | gap {start stop : Nat} {tokens : List Token} {logs : List LogEntry} (h : Gap chars start stop)
      (hrest : Cut chars stop tokens logs) : Cut chars start tokens logs
  | unterminated {start : Nat} {rule : RuleId} (h : Unterminated chars start) :
      Cut chars start [] [unterminatedEntry rule start]

variable {chars : Array Char} {start stop pos : Nat} {tokens : List Token} {logs : List LogEntry}

theorem Stands.add_le {text : String} (h : Stands chars text pos) (htext : text ≠ "") :
    pos + text.toList.length ≤ chars.size := by
  have hle := List.IsPrefix.length_le h
  have hsize : chars.toList.length = chars.size := rfl
  rw [List.length_drop, hsize] at hle
  have hpos : 0 < text.toList.length :=
    List.length_pos_of_ne_nil fun hnil => htext (String.toList_inj.mp hnil)
  omega

theorem Gap.lt (h : Gap chars start stop) : start < stop := by
  cases h with
  | whitespace hlt => exact hlt
  | lineComment hhash hlt => exact hlt
  | blockComment => omega

namespace Cut

theorem le_size (h : Cut chars start tokens logs) : start ≤ chars.size := by
  induction h with
  | done => exact Nat.le_refl _
  | token hlen _ ih => exact Nat.le_trans (Span.start_le_stop _) ih
  | gap h _ ih => exact Nat.le_trans (Nat.le_of_lt h.lt) ih
  | unterminated h => exact Nat.le_trans (Nat.le_add_right _ _) (h.opening.add_le (by decide))

/-- Tokens are not empty and lie inside of the text, after what was cut up before them. -/
theorem token_inside (h : Cut chars start tokens logs) {token : Token} (htoken : token ∈ tokens) :
    start ≤ token.span.start ∧ 0 < token.span.len ∧ token.span.stop ≤ chars.size := by
  induction h with
  | done => cases htoken
  | @token first tokens logs hlen hrest ih =>
      rcases List.mem_cons.mp htoken with rfl | htoken
      · exact ⟨Nat.le_refl _, hlen, hrest.le_size⟩
      · obtain ⟨hstart, hrest⟩ := ih htoken
        exact ⟨Nat.le_trans (Span.start_le_stop _) hstart, hrest⟩
  | gap h _ ih =>
      obtain ⟨hstart, hrest⟩ := ih htoken
      exact ⟨Nat.le_trans (Nat.le_of_lt h.lt) hstart, hrest⟩
  | unterminated => cases htoken

/-- Each token stops before the next ones start. -/
theorem tokens_pairwise (h : Cut chars start tokens logs) :
    tokens.Pairwise fun first second => first.span.stop ≤ second.span.start := by
  induction h with
  | done => exact .nil
  | token _ hrest ih => exact .cons (fun _ hother => (hrest.token_inside hother).1) ih
  | gap _ _ ih => exact ih
  | unterminated => exact .nil

/-- There is an entry only if the text ends with a block comment that is not closed, and it is the
only one then. -/
theorem logs_cases (h : Cut chars start tokens logs) :
    logs = [] ∨ ∃ rule first, start ≤ first ∧ Unterminated chars first ∧
      (∀ token ∈ tokens, token.span.stop ≤ first) ∧ logs = [unterminatedEntry rule first] := by
  induction h with
  | done => exact .inl rfl
  | token _ _ ih =>
      refine ih.imp_right ?_
      rintro ⟨rule, first, hfirst, hopen, hothers, hlogs⟩
      exact ⟨rule, first, Nat.le_trans (Span.start_le_stop _) hfirst, hopen,
        List.forall_mem_cons.mpr ⟨hfirst, hothers⟩, hlogs⟩
  | gap h _ ih =>
      refine ih.imp_right ?_
      rintro ⟨rule, first, hfirst, hrest⟩
      exact ⟨rule, first, Nat.le_trans (Nat.le_of_lt h.lt) hfirst, hrest⟩
  | unterminated h => exact .inr ⟨_, _, Nat.le_refl _, h, by simp, rfl⟩

/-- Each character belongs to a token, or to a gap that no token reaches into, or to a comment that is
not closed. -/
theorem covers (h : Cut chars start tokens logs) (hstart : start ≤ pos) (hpos : pos < chars.size) :
    (∃ token ∈ tokens, token.span.contains pos) ∨
      (∃ first last, start ≤ first ∧ first ≤ pos ∧ pos < last ∧ Gap chars first last ∧
        ∀ token ∈ tokens, token.span.stop ≤ first ∨ last ≤ token.span.start) ∨
      ∃ rule first, first ≤ pos ∧ Unterminated chars first ∧
        logs = [unterminatedEntry rule first] := by
  -- The position is in the first piece, or else it is left to the pieces behind it.
  induction h with
  | done => omega
  | @token before tokens logs hlen hrest ih =>
      by_cases hstop : pos < before.span.stop
      · exact .inl ⟨before, List.mem_cons_self, by simp [Span.contains, hstart, hstop]⟩
      · rcases ih (Nat.not_lt.mp hstop) with htoken | hgap | hopen
        · obtain ⟨token, htoken, hcontains⟩ := htoken
          exact .inl ⟨token, List.mem_cons_of_mem _ htoken, hcontains⟩
        · obtain ⟨first, last, hfirst, hle, hlt, hgap, hothers⟩ := hgap
          exact .inr (.inl ⟨first, last, Nat.le_trans before.span.start_le_stop hfirst, hle, hlt, hgap,
            List.forall_mem_cons.mpr ⟨.inl hfirst, hothers⟩⟩)
        · exact .inr (.inr hopen)
  | @gap start stop tokens logs hgap hrest ih =>
      by_cases hstop : pos < stop
      · exact .inr (.inl ⟨start, stop, Nat.le_refl _, hstart, hstop, hgap,
          fun token htoken => .inr (hrest.token_inside htoken).1⟩)
      · rcases ih (Nat.not_lt.mp hstop) with htoken | hgap' | hopen
        · exact .inl htoken
        · obtain ⟨first, last, hfirst, hothers⟩ := hgap'
          exact .inr (.inl ⟨first, last, Nat.le_trans (Nat.le_of_lt hgap.lt) hfirst, hothers⟩)
        · exact .inr (.inr hopen)
  | unterminated h => exact .inr (.inr ⟨_, _, hstart, h, rfl⟩)

end Cut

/-- A text split into tokens, with all of its characters accounted for. -/
structure Lossless (chars : Array Char) (t : Tokenized) : Prop where
  consumed : t.len = chars.size
  cut : Cut chars 0 t.tokens.toList t.logs
  inside : ∀ token ∈ t.tokens, 0 < token.span.len ∧ token.span.stop ≤ chars.size
  ordered : t.tokens.toList.Pairwise fun first second => first.span.stop ≤ second.span.start
  covered : ∀ pos < chars.size,
    (∃ token ∈ t.tokens, token.span.contains pos) ∨
      (∃ first last, first ≤ pos ∧ pos < last ∧ Gap chars first last ∧
        ∀ token ∈ t.tokens, token.span.stop ≤ first ∨ last ≤ token.span.start) ∨
      ∃ rule first, first ≤ pos ∧ Unterminated chars first ∧
        t.logs = [unterminatedEntry rule first]
  remarks : t.logs = [] ∨ ∃ rule first, Unterminated chars first ∧
    (∀ token ∈ t.tokens, token.span.stop ≤ first) ∧ t.logs = [unterminatedEntry rule first]

theorem Cut.lossless {t : Tokenized} (h : Cut chars 0 t.tokens.toList t.logs)
    (hlen : t.len = chars.size) : Lossless chars t where
  consumed := hlen
  cut := h
  inside token htoken := (h.token_inside (Array.mem_toList_iff.mpr htoken)).2
  ordered := h.tokens_pairwise
  covered pos hpos := by
    have hcovers := h.covers (Nat.zero_le pos) hpos
    simp only [Array.mem_toList_iff] at hcovers
    refine hcovers.imp_right (Or.imp_left ?_)
    rintro ⟨first, last, -, hgap⟩
    exact ⟨first, last, hgap⟩
  remarks := by
    have hlogs := h.logs_cases
    simp only [Array.mem_toList_iff] at hlogs
    refine hlogs.imp_right ?_
    rintro ⟨rule, first, -, hopen⟩
    exact ⟨rule, first, hopen⟩

end Texts

end Script

/-! ## What leaves no token -/

open Script

section Gaps

variable {g : Graph Char} {chars : Array Char} {id : RuleId} {start len : Nat}

/-- Whether a rule takes white space and leaves nothing. -/
def Graph.isWhitespace (g : Graph Char) (id : RuleId) : Bool :=
  match g.rule? id with
  | some ⟨_, .all, _, .count one 1 0⟩ => g.kind? one = some (.set ['\t', '\n', '\r', ' '])
  | _ => false

/-- Whether a rule takes a hash sign and what follows on its line, and leaves nothing. -/
def Graph.isLineComment (g : Graph Char) (id : RuleId) : Bool :=
  match g.rule? id with
  | some ⟨_, .all, _, .sequence [hash, toLineEnd]⟩ =>
    g.kind? hash = some (.single '#') &&
      match g.kind? toLineEnd with
      | some (.skip newline true false) => g.kind? newline = some (.single '\n')
      | _ => false
  | _ => false

/-- Whether a rule takes all up to where a block comment is closed first. -/
def Graph.isClosed (g : Graph Char) (id : RuleId) : Bool :=
  match g.kind? id with
  | some (.skip closing false true) => g.kind? closing = some (.text "*)")
  | _ => false

/-- Whether a rule remarks upon a block comment that is not closed and takes the rest of the text. -/
def Graph.isUnclosed (g : Graph Char) (id : RuleId) : Bool :=
  match g.rule? id with
  | some ⟨_, .none, _, .sequence [remark, rest]⟩ =>
    g.kind? remark = some (.log .warning "unterminated block comment" none) &&
      g.kind? rest = some (.any 0 0) && g.allBelow (!g.isLog ·) 1 rest
  | _ => false

/-- Whether a rule takes what follows the opening of a block comment. -/
def Graph.isCommentBody (g : Graph Char) (id : RuleId) : Bool :=
  match g.rule? id with
  | some ⟨_, .none, _, .oneOf [closed, unclosed]⟩ =>
    g.isClosed closed && g.allBelow (!g.isLog ·) 2 closed && g.isUnclosed unclosed
  | _ => false

/-- Whether a rule takes a block comment, closed or not, and leaves the remark only. -/
def Graph.isBlockComment (g : Graph Char) (id : RuleId) : Bool :=
  match g.rule? id with
  | some ⟨_, .all, _, .sequence [opening, body]⟩ =>
    g.kind? opening = some (.text "(*") && g.allBelow (!g.isLog ·) 1 opening &&
      g.isCommentBody body
  | _ => false

/-- What a rule that matches single characters of a sort matches repeatedly are such characters. -/
theorem Repeats.forall_at {one : RuleId} {P : Char → Prop} {reps start len : Nat}
    (hone : ∀ pos len, Derives g chars one pos (some len) → len = 1 ∧ ∃ c ∈ chars[pos]?, P c) :
    Repeats g chars one reps start len → reps = len ∧
      ∀ pos, start ≤ pos → pos < start + len → ∃ c ∈ chars[pos]?, P c
  | .zero => ⟨rfl, fun pos _ _ => by omega⟩
  | .succ h hlast _ => by
      obtain ⟨rfl, hall⟩ := h.forall_at hone
      obtain ⟨rfl, hat⟩ := hone _ _ hlast
      refine ⟨rfl, fun pos hstart hpos => ?_⟩
      rcases Nat.lt_succ_iff_lt_or_eq.mp hpos with hlt | rfl
      · exact hall pos hstart hlt
      · exact hat

theorem Derives.at_set {values : List Char} (hkind : g.kind? id = some (.set values))
    (h : Derives g chars id start (some len)) : len = 1 ∧ ∃ c ∈ chars[start]?, c ∈ values := by
  have hverdict := h.verdict_set hkind
  split at hverdict
  · rename_i hvalue
    exact ⟨Option.some.inj hverdict, hvalue⟩
  · cases hverdict

theorem Derives.whitespace (hid : g.isWhitespace id) (h : Derives g chars id start (some len)) :
    Gap chars start (start + len) := by
  unfold Graph.isWhitespace at hid
  split at hid
  · rename_i name precedence one hrule
    obtain ⟨reps, hreps, hrepeats⟩ := h.exists_repeats (Graph.kind?_eq_some hrule)
    obtain ⟨rfl, hall⟩ := hrepeats.forall_at fun _ _ hone => hone.at_set (of_decide_eq_true hid)
    exact .whitespace (by omega) hall
  · cases hid

/-- What stands in front of a character that is looked for is not that character. -/
theorem Derives.ne_single {value : Char} (hkind : g.kind? id = some (.single value))
    (h : Derives g chars id start none) (hstart : start < chars.size) :
    ∃ c ∈ chars[start]?, c ≠ value := by
  have hverdict := h.verdict_single hkind
  refine ⟨chars[start], Array.getElem?_eq_getElem hstart, fun heq => ?_⟩
  rw [if_pos (by rw [Array.getElem?_eq_getElem hstart, heq])] at hverdict
  cases hverdict

theorem Derives.at_single {value : Char} (hkind : g.kind? id = some (.single value))
    (h : Derives g chars id start (some len)) : chars[start]? = some value ∧ len = 1 := by
  have hverdict := h.verdict_single hkind
  split at hverdict
  · rename_i hvalue
    exact ⟨hvalue, Option.some.inj hverdict⟩
  · cases hverdict

theorem Derives.lineComment (hid : g.isLineComment id) (h : Derives g chars id start (some len)) :
    Gap chars start (start + len) := by
  unfold Graph.isLineComment at hid
  split at hid
  · rename_i name precedence hash toLineEnd hrule
    rw [Bool.and_eq_true] at hid
    obtain ⟨hhash, hid⟩ := hid
    split at hid
    · rename_i newline hskip
      have hnewline := of_decide_eq_true hid
      obtain ⟨len₁, more, hfirst, hmore, rfl⟩ := (h.inOrder (Graph.kind?_eq_some hrule)).of_cons
      obtain ⟨len₂, rest, hrest, hnil, rfl⟩ := hmore.of_cons
      obtain rfl : rest = 0 := by cases hnil; rfl
      obtain ⟨hat, rfl⟩ := hfirst.at_single (of_decide_eq_true hhash)
      have hstart := (Array.getElem?_eq_some_iff.mp hat).1
      -- The comment ends in front of a line break or at the end of the text.
      rcases hrest.skip_cases hskip with ⟨passed, last, hpassed, hbefore, hstop, hlen⟩ | hend
      · obtain rfl : len₂ = passed := by simpa using hlen
        refine .lineComment hat (by omega) (fun pos hlt hpos => ?_) (.inr ?_)
        · have hnone := hbefore (pos - (start + 1)) (by omega)
          rw [Nat.add_sub_cancel' (by omega)] at hnone
          exact hnone.ne_single hnewline (by omega)
        · rw [show start + (1 + (len₂ + 0)) = start + 1 + len₂ by omega]
          exact (hstop.at_single hnewline).1
      · obtain ⟨hnowhere, hlen⟩ := hend
        obtain rfl : len₂ = chars.size - (start + 1) := by simpa using hlen
        refine .lineComment hat (by omega) (fun pos hlt hpos => ?_) (.inl (by omega))
        have hnone := hnowhere (pos - (start + 1)) (by omega)
        rw [Nat.add_sub_cancel' (by omega)] at hnone
        exact hnone.ne_single hnewline (by omega)
    · cases hid
  · cases hid

theorem Derives.stands {text : String} (hkind : g.kind? id = some (.text text))
    (h : Derives g chars id start (some len)) :
    Stands chars text start ∧ len = text.toList.length := by
  have hverdict := h.verdict_literal hkind
  split at hverdict
  · rename_i hstands
    exact ⟨hstands, Option.some.inj hverdict⟩
  · cases hverdict

theorem Derives.not_stands {text : String} (hkind : g.kind? id = some (.text text))
    (h : Derives g chars id start none) : ¬ Stands chars text start := by
  intro hstands
  have hverdict := h.verdict_literal hkind
  rw [if_pos (show text.toList <+: _ from hstands)] at hverdict
  cases hverdict

/-- A block comment is closed where it can be for the first time, or nowhere. -/
theorem Derives.closed {verdict : Option Nat} (hid : g.isClosed id)
    (h : Derives g chars id start verdict) :
    (∃ inner, verdict = some (inner + 2) ∧
      (∀ before < inner, ¬ Stands chars "*)" (start + before)) ∧
      Stands chars "*)" (start + inner)) ∨
    verdict = none ∧ ∀ pos, start ≤ pos → ¬ Stands chars "*)" pos := by
  unfold Graph.isClosed at hid
  split at hid
  · rename_i closing hskip
    have hclosing := of_decide_eq_true hid
    rcases h.skip_cases hskip with ⟨passed, last, -, hbefore, hstop, rfl⟩ | ⟨hnowhere, rfl⟩
    · obtain ⟨hstands, rfl⟩ := hstop.stands hclosing
      exact .inl ⟨passed, rfl, fun before hlt => (hbefore before hlt).not_stands hclosing, hstands⟩
    · refine .inr ⟨rfl, fun pos hpos hstands => ?_⟩
      have hle := hstands.add_le (by decide)
      have hnone := hnowhere (pos - start) (by omega)
      rw [Nat.add_sub_cancel' hpos] at hnone
      exact hnone.not_stands hclosing hstands
  · cases hid

end Gaps

/-! ## One round -/

/-- Whether rules of a kind put a node of their own over what they match. -/
def Kind.makesNode {α : Type} : Kind α → Bool
  | .any .. | .single _ | .set _ | .range .. | .literal _ | .sequence _ | .oneOf _ | .count ..
  | .skip .. => true
  | _ => false

/-- Whether a rule leaves one node over what it matches, and no log entry. -/
def Graph.isToken (g : Graph Char) (height : Nat) (id : RuleId) : Bool :=
  match g.rule? id with
  | some rule => (rule.pruning = .none || rule.pruning = .children) && rule.kind.makesNode &&
      g.allBelow (!g.isLog ·) height id
  | none => false

/-- What one round of a tokenizer consumes and leaves. -/
inductive Piece (g : Graph Char) (chars : Array Char) (start stop : Nat) (nodes : List Node) : Prop
  | token {node : Node} (hnodes : nodes = [node]) (hspan : node.span = ⟨start, stop - start⟩)
      (hfree : g.LogFree [node])
  | gap (hnodes : nodes = []) (h : Gap chars start stop)
  | unterminated {remark : RuleId}
      (hkind : g.kind? remark = some (.log .warning "unterminated block comment" none))
      (hnodes : nodes = [.leaf remark (.empty (start + 2))]) (hstop : chars.size ≤ stop)
      (h : Unterminated chars start)

section Pieces

variable {g : Graph Char} {chars : Array Char} {id : RuleId} {height start : Nat}

theorem Match.kind_makesNode {kind : Kind Char} (h : kind.makesNode)
    (sub : RuleId → Nat → Run Outcome) :
    (Match.kind g chars sub id kind start).Yields (·.Steps (fun start stop nodes =>
      ∃ inner, nodes = [⟨id, ⟨start, stop - start⟩, inner⟩]) start) := by
  -- Every kind that makes a node puts it around whatever it has matched.
  have hunder (outcome : Outcome) : (outcome.under id start).Steps (fun start stop nodes =>
      ∃ inner, nodes = [⟨id, ⟨start, stop - start⟩, inner⟩]) start := by
    cases outcome with
    | failure => trivial
    | success len nodes => exact ⟨nodes, by rw [Nat.add_sub_cancel_left]⟩
  have hmap (run : Run Outcome) : ((·.under id start) <$> run).Yields (·.Steps (fun start stop nodes =>
      ∃ inner, nodes = [⟨id, ⟨start, stop - start⟩, inner⟩]) start) :=
    (Run.Yields.trivial run).map fun outcome _ => hunder outcome
  have hmiss (pos : Nat) : (Run.miss pos).Yields (·.Steps (fun start stop nodes =>
      ∃ inner, nodes = [⟨id, ⟨start, stop - start⟩, inner⟩]) start) :=
    .miss trivial fun _ _ => trivial
  have helement (test : Char → Bool) : (element chars id test start : Run Outcome).Yields (·.Steps
      (fun start stop nodes => ∃ inner, nodes = [⟨id, ⟨start, stop - start⟩, inner⟩]) start) := by
    rw [element]
    split
    · exact .pure (hunder _)
    · exact hmiss _
  cases kind with
  | any min max =>
      simp only [Match.kind, anyOf]
      split
      · exact hmiss _
      · exact .pure (hunder _)
  | single value => exact helement _
  | set values => exact helement _
  | range lo hi => exact helement _
  | literal values =>
      simp only [Match.kind, allOf]
      split
      · exact .pure (hunder _)
      · exact hmiss _
  | sequence subs => exact hmap _
  | oneOf subs => exact hmap _
  | count one min max => exact hmap _
  | skip stop stopBefore failOnEnd => exact hmap _
  | _ => cases h

/-- A rule that leaves one node leaves one of its own, over all that it matches. -/
theorem promises_node (hprimitive : g.Primitive) (hid : g.isToken height id) (start : Nat) :
    g.Promises chars id start (·.Steps (fun start stop nodes => ∃ node : Node,
      nodes = [node] ∧ node.rule = id ∧ node.span = ⟨start, stop - start⟩ ∧ g.LogFree [node])
        start) := by
  unfold Graph.isToken at hid
  split at hid
  · rename_i rule hrule
    simp only [Bool.and_eq_true, Bool.or_eq_true, decide_eq_true_eq] at hid
    obtain ⟨⟨hpruning, hmakes⟩, hbelow⟩ := hid
    have hnode : g.Promises chars id start (·.Steps (fun start stop nodes => ∃ node : Node,
        nodes = [node] ∧ node.rule = id ∧ node.span = ⟨start, stop - start⟩) start) := by
      refine Graph.promises_of_rule hrule fun sub _ => ?_
      refine (Match.kind_makesNode hmakes sub).mono (fun _ h => h) fun outcome houtcome => ?_
      cases outcome with
      | failure => trivial
      | success len nodes =>
          obtain ⟨inner, rfl⟩ := houtcome
          -- The rule is not pruned or loses its children; either way its own node is kept.
          rcases hpruning with hpruning | hpruning
          · rw [hpruning, Outcome.mapNodes_prune_none]
            exact ⟨_, rfl, rfl, rfl⟩
          · rw [hpruning]
            have hkeep (node : Node) : ∃ kept : Node, g.prune .children [node] = [kept] ∧
                kept.rule = node.rule ∧ kept.span = node.span := by
              cases hlog : g.isLog node.rule <;> simp [Graph.prune, Pruning.keep, hlog]
            exact hkeep _
    refine (hnode.and (Graph.promises_logFree hprimitive hbelow chars start)).mono
      fun outcome houtcome => ?_
    cases outcome with
    | failure => trivial
    | success len nodes =>
        obtain ⟨⟨node, rfl, hrule, hspan⟩, hfree⟩ := houtcome
        exact ⟨node, rfl, hrule, hspan, hfree⟩
  · cases hid

theorem promises_token (hprimitive : g.Primitive) (hid : g.isToken height id) (start : Nat) :
    g.Promises chars id start (·.Steps (Piece g chars) start) := by
  refine (promises_node hprimitive hid start).mono fun outcome houtcome => ?_
  refine Outcome.Steps.mono houtcome fun stop nodes hnodes => ?_
  obtain ⟨node, rfl, -, hspan, hfree⟩ := hnodes
  exact .token rfl hspan hfree

theorem promises_verdict (hprimitive : g.Primitive) (id : RuleId) (start : Nat) :
    g.Promises chars id start fun outcome => Derives g chars id start outcome.verdict :=
  fun limit depth => Graph.runWithin_yields hprimitive.ordinary limit depth id start

/-- A rule of which all is pruned leaves log entries only. -/
theorem promises_logs {rule : Rule Char} (hrule : g.rule? id = some rule)
    (hpruning : rule.pruning = .all) (start : Nat) :
    g.Promises chars id start fun outcome => ∀ node ∈ outcome.nodes, g.isLog node.rule := by
  refine Graph.promises_of_rule hrule fun sub _ => ?_
  refine (Run.Yields.trivial _).mono (fun _ h => h) fun outcome _ => ?_
  cases outcome with
  | failure => exact fun _ h => nomatch h
  | success len nodes =>
      rw [hpruning, Outcome.mapNodes, Outcome.nodes, Graph.prune_all]
      exact fun node => Graph.isLog_of_mem_forestLogEntries

/-- A rule of which all is pruned leaves nothing if no rule below is a log. -/
theorem promises_leftOut (hprimitive : g.Primitive) {rule : Rule Char}
    (hrule : g.rule? id = some rule) (hpruning : rule.pruning = .all)
    (hbelow : g.allBelow (!g.isLog ·) height id) (start : Nat) :
    g.Promises chars id start (·.nodes = []) := by
  refine ((promises_logs hrule hpruning start).and
    (Graph.promises_logFree hprimitive hbelow chars start)).mono
      fun outcome houtcome => List.eq_nil_iff_forall_not_mem.mpr fun node hnode => ?_
  have hfree := houtcome.2 node (Node.mem_preorderAll_of_mem hnode)
  rw [houtcome.1 node hnode] at hfree
  cases hfree

/-- A rule of which all is pruned leaves a gap if what it matches is one. -/
theorem promises_gap (hprimitive : g.Primitive) {rule : Rule Char}
    (hrule : g.rule? id = some rule) (hpruning : rule.pruning = .all)
    (hbelow : g.allBelow (!g.isLog ·) height id)
    (hgap : ∀ len, Derives g chars id start (some len) → Gap chars start (start + len)) :
    g.Promises chars id start (·.Steps (Piece g chars) start) := by
  refine ((promises_verdict hprimitive id start).and
    (promises_leftOut hprimitive hrule hpruning hbelow start)).mono fun outcome houtcome => ?_
  cases outcome with
  | failure => trivial
  | success len nodes => exact .gap houtcome.2 (hgap len houtcome.1)

theorem promises_whitespace (hprimitive : g.Primitive) (hid : g.isWhitespace id)
    (hbelow : g.allBelow (!g.isLog ·) height id) (start : Nat) :
    g.Promises chars id start (·.Steps (Piece g chars) start) := by
  obtain ⟨rule, hrule, hpruning⟩ : ∃ rule, g.rule? id = some rule ∧ rule.pruning = .all := by
    unfold Graph.isWhitespace at hid
    split at hid
    · exact ⟨_, ‹_›, rfl⟩
    · cases hid
  exact promises_gap hprimitive hrule hpruning hbelow fun _ h => h.whitespace hid

theorem promises_lineComment (hprimitive : g.Primitive) (hid : g.isLineComment id)
    (hbelow : g.allBelow (!g.isLog ·) height id) (start : Nat) :
    g.Promises chars id start (·.Steps (Piece g chars) start) := by
  obtain ⟨rule, hrule, hpruning⟩ : ∃ rule, g.rule? id = some rule ∧ rule.pruning = .all := by
    unfold Graph.isLineComment at hid
    split at hid
    · exact ⟨_, ‹_›, rfl⟩
    · cases hid
  exact promises_gap hprimitive hrule hpruning hbelow fun _ h => h.lineComment hid

theorem forestLogEntries_node (hid : g.isLog id = false) (span : Span) (inner : List Node) :
    Node.forestLogEntries g.isLog [⟨id, span, inner⟩] = Node.forestLogEntries g.isLog inner := by
  rw [Node.forestLogEntries_cons, hid, Node.forestLogEntries, List.append_nil]
  rfl

/-- The rest of a text is taken with just one log entry left, in front of it. -/
theorem promises_unclosed (hprimitive : g.Primitive) (hid : g.isUnclosed id) (start : Nat) :
    g.Promises chars id start (·.Steps (fun start stop nodes => chars.size ≤ stop ∧
      ∃ remark, g.kind? remark = some (.log .warning "unterminated block comment" none) ∧
        Node.forestLogEntries g.isLog nodes = [.leaf remark (.empty start)]) start) := by
  unfold Graph.isUnclosed at hid
  split at hid
  · rename_i name precedence remark rest hrule
    simp only [Bool.and_eq_true, decide_eq_true_eq] at hid
    obtain ⟨⟨hremark, hrest⟩, hbelow⟩ := hid
    have hid : g.isLog id = false := Graph.isLog_of_kind? (Graph.kind?_eq_some hrule)
    have hlog : g.isLog remark := Graph.isLog_of_kind? hremark
    refine Graph.promises_of_rule hrule fun sub hsub => ?_
    have hparts : (Match.inSequence sub start [remark, rest] 0 #[]).Yields (·.Steps
        (fun start stop nodes => chars.size ≤ stop ∧
          Node.forestLogEntries g.isLog nodes = [.leaf remark (.empty start)]) start) := by
      -- First the entry, which consumes nothing, and then all that is left of the text.
      refine (hsub remark start _ (Graph.promises_entry hremark start)).bind ?_
      rintro _ rfl
      refine Match.inSequence_cons_meets (hsub rest start _ ((promises_verdict hprimitive rest start).and
        (Graph.promises_logFree hprimitive hbelow chars start))) (fun _ => trivial)
        fun len nodes houtcome => ?_
      obtain ⟨hverdict, hfree⟩ := houtcome
      have hfree : g.LogFree nodes := hfree
      have hlen : some len = _ := hverdict.verdict_any hrest
      simp only [Nat.not_lt_zero, if_false, if_true, Option.some.injEq] at hlen
      refine .pure ⟨by omega, ?_⟩
      rw [Array.toList_appendList, Node.forestLogEntries_append,
        Graph.forestLogEntries_eq_nil_iff.mpr hfree, Array.toList_appendList]
      simp [Node.forestLogEntries_cons, Node.leaf, hlog, Node.forestLogEntries]
    refine hparts.map fun outcome houtcome => ?_
    rw [Outcome.mapNodes_prune_none]
    cases outcome with
    | failure => trivial
    | success len nodes =>
        exact ⟨houtcome.1, remark, hremark, (forestLogEntries_node hid _ _).trans houtcome.2⟩
  · cases hid

/-- How the body of a block comment ends, and the log entries that it leaves. -/
inductive CommentEnd (g : Graph Char) (chars : Array Char) (start : Nat) : Nat → List Node → Prop
  | closed {inner : Nat} {nodes : List Node}
      (hinner : ∀ before < inner, ¬ Stands chars "*)" (start + before))
      (hclosing : Stands chars "*)" (start + inner))
      (hlogs : Node.forestLogEntries g.isLog nodes = []) :
      CommentEnd g chars start (start + (inner + 2)) nodes
  | unclosed {remark : RuleId} {stop : Nat} {nodes : List Node}
      (hkind : g.kind? remark = some (.log .warning "unterminated block comment" none))
      (hendless : ∀ pos, start ≤ pos → ¬ Stands chars "*)" pos) (hstop : chars.size ≤ stop)
      (hlogs : Node.forestLogEntries g.isLog nodes = [.leaf remark (.empty start)]) :
      CommentEnd g chars start stop nodes

theorem CommentEnd.congr {stop : Nat} {nodes nodes' : List Node}
    (h : CommentEnd g chars start stop nodes)
    (hsame : Node.forestLogEntries g.isLog nodes' = Node.forestLogEntries g.isLog nodes) :
    CommentEnd g chars start stop nodes' := by
  cases h with
  | closed hinner hclosing hlogs => exact .closed hinner hclosing (hsame.trans hlogs)
  | unclosed hkind hendless hstop hlogs => exact .unclosed hkind hendless hstop (hsame.trans hlogs)

theorem promises_commentBody (hprimitive : g.Primitive) (hid : g.isCommentBody id) (start : Nat) :
    g.Promises chars id start (·.Steps (CommentEnd g chars) start) := by
  unfold Graph.isCommentBody at hid
  split at hid
  · rename_i name precedence closed unclosed hrule
    simp only [Bool.and_eq_true] at hid
    obtain ⟨⟨hclosed, hclosedbelow⟩, hunclosed⟩ := hid
    have hid : g.isLog id = false := Graph.isLog_of_kind? (Graph.kind?_eq_some hrule)
    refine Graph.promises_of_rule hrule fun sub hsub => ?_
    have hchoice : (Match.firstOf sub start [closed, unclosed]).Yields
        (·.Steps (CommentEnd g chars) start) := by
      refine (hsub closed start _ ((promises_verdict hprimitive closed start).and
        (Graph.promises_logFree hprimitive hclosedbelow chars start))).bind fun outcome houtcome => ?_
      obtain ⟨hverdict, hfree⟩ := houtcome
      -- The comment is closed, and no entry is left; or it is closed nowhere, and the other
      -- alternative reports that.
      rcases hverdict.closed hclosed with ⟨inner, hlen, hinner, hclosing⟩ | ⟨hlen, hendless⟩
      · cases outcome with
        | failure => cases hlen
        | success len nodes =>
            obtain rfl : len = inner + 2 := Option.some.inj hlen
            exact .pure (.closed hinner hclosing (Graph.forestLogEntries_eq_nil_iff.mpr hfree))
      · cases outcome with
        | success len nodes => cases hlen
        | failure =>
            refine (hsub unclosed start _ (promises_unclosed hprimitive hunclosed start)).bind
              fun outcome houtcome => ?_
            cases outcome with
            | failure => exact .pure trivial
            | success len nodes =>
                obtain ⟨hstop, remark, hremark, hlogs⟩ := houtcome
                exact .pure (.unclosed hremark hendless hstop hlogs)
    refine hchoice.map fun outcome houtcome => ?_
    rw [Outcome.mapNodes_prune_none]
    cases outcome with
    | failure => trivial
    | success len nodes => exact CommentEnd.congr houtcome (forestLogEntries_node hid _ _)
  · cases hid

/-- A block comment is a gap if it is closed, else the rest of the text with a remark. -/
theorem promises_blockComment (hprimitive : g.Primitive) (hid : g.isBlockComment id) (start : Nat) :
    g.Promises chars id start (·.Steps (Piece g chars) start) := by
  unfold Graph.isBlockComment at hid
  split at hid
  · rename_i name precedence opening body hrule
    simp only [Bool.and_eq_true, decide_eq_true_eq] at hid
    obtain ⟨⟨hopening, hopeningbelow⟩, hbody⟩ := hid
    have hid : g.isLog id = false := Graph.isLog_of_kind? (Graph.kind?_eq_some hrule)
    refine Graph.promises_of_rule hrule fun sub hsub => ?_
    have hparts : (Match.inSequence sub start [opening, body] 0 #[]).Yields (·.Steps
        (fun start stop nodes => Stands chars "(*" start ∧
          CommentEnd g chars (start + 2) stop nodes) start) := by
      refine Match.inSequence_cons_meets (hsub opening start _
        ((promises_verdict hprimitive opening start).and
          (Graph.promises_logFree hprimitive hopeningbelow chars start))) (fun _ => trivial)
        fun len nodes houtcome => ?_
      obtain ⟨hverdict, hfree⟩ := houtcome
      obtain ⟨hstands, hlen⟩ := Derives.stands hopening hverdict
      obtain rfl : len = 2 := hlen
      refine Match.inSequence_cons_meets
        (hsub body _ _ (promises_commentBody hprimitive hbody (start + 2))) (fun _ => trivial)
        fun more found hended => ?_
      have hend : CommentEnd g chars (start + 2) (start + 2 + more) found := hended
      have hfree : Node.forestLogEntries g.isLog nodes = [] :=
        Graph.forestLogEntries_eq_nil_iff.mpr hfree
      refine .pure ⟨hstands, ?_⟩
      rw [show start + (0 + 2 + more) = start + 2 + more by omega]
      refine hend.congr ?_
      rw [Array.toList_appendList, Array.toList_appendList, Node.forestLogEntries_append,
        List.nil_append, hfree, List.nil_append]
    refine hparts.map fun outcome houtcome => ?_
    cases outcome with
    | failure => trivial
    | success len nodes =>
        obtain ⟨hstands, hend⟩ := houtcome
        -- The node of the comment is dropped, and only an entry for its missing end is kept.
        show Piece g chars start (start + len) (g.prune .all [⟨id, ⟨start, len⟩, nodes⟩])
        rw [Graph.prune_all, forestLogEntries_node hid]
        generalize hstop : start + len = stop at hend
        cases hend with
        | @closed inner _ hinner hclosing hlogs =>
            exact .gap hlogs (.blockComment hstands hinner hclosing)
        | unclosed hkind hendless hsize hlogs =>
            exact .unterminated hkind hlogs hsize ⟨hstands, hendless⟩
  · cases hid

/-- Whether a rule is a choice whose first three alternatives leave no token, and each other one
leaves one. -/
def Graph.isTokenChoice (g : Graph Char) (id : RuleId) : Bool :=
  match g.rule? id with
  | some ⟨_, .root, _, .oneOf (whitespace :: lineComment :: blockComment :: others)⟩ =>
    g.isWhitespace whitespace && g.allBelow (!g.isLog ·) 2 whitespace &&
      (g.isLineComment lineComment && g.allBelow (!g.isLog ·) 3 lineComment) &&
      g.isBlockComment blockComment && others.all (g.isToken 8)
  | _ => false

theorem promises_piece (hprimitive : g.Primitive) (hid : g.isTokenChoice id) (start : Nat) :
    g.Promises chars id start (·.Steps (Piece g chars) start) := by
  unfold Graph.isTokenChoice at hid
  split at hid
  · rename_i name precedence whitespace lineComment blockComment others hrule
    simp only [Bool.and_eq_true, List.all_eq_true] at hid
    obtain ⟨⟨⟨⟨hspace, hspacebelow⟩, hline, hlinebelow⟩, hblock⟩, hothers⟩ := hid
    have hid : g.isLog id = false := Graph.isLog_of_kind? (Graph.kind?_eq_some hrule)
    -- Each of the alternatives leaves a piece, whichever it is that matches.
    have hall : ∀ one ∈ whitespace :: lineComment :: blockComment :: others,
        g.Promises chars one start (·.Steps (Piece g chars) start) := by
      refine List.forall_mem_cons.mpr ⟨promises_whitespace hprimitive hspace hspacebelow start, ?_⟩
      refine List.forall_mem_cons.mpr ⟨promises_lineComment hprimitive hline hlinebelow start, ?_⟩
      refine List.forall_mem_cons.mpr ⟨promises_blockComment hprimitive hblock start, ?_⟩
      exact fun one hone => promises_token hprimitive (hothers one hone) start
    refine Graph.promises_of_rule hrule fun sub hsub => ?_
    have hchoice : (Match.firstOf sub start (whitespace :: lineComment :: blockComment :: others)).Yields
        (·.Steps (Piece g chars) start) :=
      Match.firstOf_meets (fun one hone => hsub one start _ (hall one hone)) trivial
        fun _ _ _ _ h => h
    refine hchoice.map fun outcome houtcome => ?_
    cases outcome with
    | failure => trivial
    | success len nodes =>
        show Piece g chars start (start + len) (g.prune .root [⟨id, ⟨start, len⟩, nodes⟩])
        rw [Graph.prune_root_singleton hid]
        exact houtcome
  · cases hid

end Pieces

/-! ## Whole texts -/

/-- A graph that takes all of a text, each time one of a choice of tokens. -/
structure Graph.Lexical (g : Graph Char) (root token : RuleId) : Prop where
  takesAll : g.TakesAll root token
  choice : g.isTokenChoice token
  height : g.allBelow (fun _ => true) 16 root

section Lexical

variable {g : Graph Char} {chars : Array Char} {root token : RuleId} {start stop : Nat}
variable {nodes : List Node}

/-- A piece that goes forward inside of a text. -/
def Round (g : Graph Char) (chars : Array Char) (start stop : Nat) (nodes : List Node) : Prop :=
  (Piece g chars start stop nodes ∧ start < stop) ∧ stop ≤ chars.size

/-- The tokens among the nodes that the rounds of a tokenizer leave. -/
def Tokenized.tokensAmong (g : Graph Char) (nodes : List Node) : List Token :=
  (nodes.filter fun node => !g.isLog node.rule).map Token.mk

theorem tokensAmong_cons (node : Node) (nodes : List Node) :
    Tokenized.tokensAmong g (node :: nodes) =
      if g.isLog node.rule then Tokenized.tokensAmong g nodes
      else ⟨node⟩ :: Tokenized.tokensAmong g nodes := by
  cases hlog : g.isLog node.rule <;> simp [Tokenized.tokensAmong, hlog]

/-- One round cuts off a token or a gap, or all there is. -/
theorem Round.cut {more : List Node} (h : Round g chars start stop nodes)
    (hmore : Cut chars stop (Tokenized.tokensAmong g more) (g.collectLogs more))
    (hend : stop = chars.size → more = []) :
    Cut chars start (Tokenized.tokensAmong g (nodes ++ more)) (g.collectLogs (nodes ++ more)) := by
  obtain ⟨⟨hpiece, hlt⟩, hle⟩ := h
  rw [Graph.collectLogs_append]
  -- A token is one node, a gap is none, and a comment that is not closed takes the rest of the text.
  cases hpiece with
  | @token node hnodes hspan hfree =>
      subst hnodes
      obtain ⟨rule, span, children⟩ := node
      obtain rfl : span = ⟨start, stop - start⟩ := hspan
      have hlog : g.isLog rule = false := (Graph.LogFree.singleton_iff.mp hfree).1
      have hnone : g.collectLogs [⟨rule, ⟨start, stop - start⟩, children⟩] = [] := by
        rw [← Graph.collectLogs_forestLogEntries, Graph.forestLogEntries_eq_nil_iff.mpr hfree]
        rfl
      rw [hnone, List.nil_append, List.singleton_append, tokensAmong_cons, if_neg (by simp [hlog])]
      rw [← Nat.add_sub_cancel' (Nat.le_of_lt hlt)] at hmore
      exact @Cut.token _ ⟨⟨rule, ⟨start, stop - start⟩, children⟩⟩ _ _ (Nat.sub_pos_of_lt hlt) hmore
  | gap hnodes hgap =>
      subst hnodes
      exact .gap hgap hmore
  | @unterminated remark hkind hnodes hstop h =>
      subst hnodes
      obtain rfl := hend (Nat.le_antisymm hle hstop)
      have hlog : g.isLog remark := Graph.isLog_of_kind? hkind
      have hentry : g.collectLogs [.leaf remark (.empty (start + 2))] =
          [unterminatedEntry remark start] := by
        rw [Graph.collectLogs_singleton]
        simp [Graph.entryOf?, Node.leaf, hkind, unterminatedEntry]
      rw [hentry, List.singleton_append, tokensAmong_cons, if_pos (by exact hlog)]
      exact .unterminated h

theorem Rounds.cut {reps : Nat} (h : Rounds (Round g chars) reps start stop nodes)
    (hstop : stop = chars.size) :
    Cut chars start (Tokenized.tokensAmong g nodes) (g.collectLogs nodes) := by
  induction h with
  | nil =>
      subst hstop
      exact .done
  | cons hfirst hrest ih =>
      refine hfirst.cut (ih hstop) fun hmid => ?_
      cases hrest with
      | nil => rfl
      | cons hnext _ =>
          have hlt := hnext.1.2
          have hle := hnext.2
          omega

/-- A tokenizer leaves one node over all of a text, with what it came to in each round. -/
theorem Graph.Lexical.promises_rounds (h : g.Lexical root token) (chars : Array Char) :
    g.Promises chars root 0 fun outcome => ∃ reps inner,
      outcome = .success chars.size [⟨root, ⟨0, chars.size⟩, inner⟩] ∧
        Rounds (Round g chars) reps 0 chars.size inner :=
  h.takesAll.promises_rounds (promises_piece h.takesAll.primitive h.choice)

theorem Graph.Lexical.not_isLog (h : g.Lexical root token) : g.isLog root = false := by
  obtain ⟨rule, hrule, -, hkind⟩ := h.takesAll.exists_rule
  exact (Graph.isLog_of_kind? (kind?_eq_some hrule)).trans (by rw [hkind]; rfl)

/-- A match of a tokenizer takes all of a text, and its tokens account for all of it. -/
theorem Graph.Lexical.lossless (h : g.Lexical root token) {limit : Nat} {outcome : Outcome}
    {trace : Trace} (hmatch : g.matchRoot chars limit = (.ok outcome, trace)) :
    (∃ nodes, outcome = .success chars.size nodes) ∧
      Lossless chars (.ofOutcome g trace.farthest outcome) := by
  obtain ⟨reps, inner, rfl, hrounds⟩ :=
    (h.promises_rounds chars).of_matchRoot h.takesAll.isRoot hmatch
  have hlogs : g.collectLogs [⟨root, ⟨0, chars.size⟩, inner⟩] = g.collectLogs inner :=
    Graph.collectLogs_singleton_of_not_isLog g h.not_isLog
  have hcut : Cut chars 0 (Tokenized.tokensAmong g inner) (g.collectLogs inner) := hrounds.cut rfl
  refine ⟨⟨_, rfl⟩, Cut.lossless ?_ rfl⟩
  have htop : Tokenized.tokensOf g [⟨root, ⟨0, chars.size⟩, inner⟩] =
      (Tokenized.tokensAmong g inner).toArray := by
    simp [Tokenized.tokensOf, Tokenized.tokensAmong, h.takesAll.isRoot]
  rwa [Tokenized.ofOutcome, hlogs, htop, List.toList_toArray]

/-- With enough depth a tokenizer goes through any text. -/
theorem Graph.Lexical.exists_matchRoot (h : g.Lexical root token) {limit : Nat}
    (hlimit : 16 ≤ limit) (chars : Array Char) :
    ∃ outcome trace, g.matchRoot chars limit = (.ok outcome, trace) := by
  have hreturns : (g.runWithin chars limit limit root 0).Returns fun _ => True :=
    Graph.runWithin_returns h.takesAll.primitive (Graph.allBelow_mono h.height hlimit) limit 0
  obtain ⟨outcome, trace, hresult, -⟩ := hreturns.exists_result {}
  refine ⟨outcome, trace, ?_⟩
  rw [matchRoot, runRoot, h.takesAll.isRoot]
  exact hresult

end Lexical

namespace Script

theorem tokenizer_lexical :
    tokenizer.Lexical (tokenOf "tokens") ((tokenizer.subs (tokenOf "tokens")).headD .invalid) := by
  have hchecked : (tokenizer.root = some (tokenOf "tokens") ∧
      (tokenizer.rule? (tokenOf "tokens")).map (fun rule => (rule.pruning, rule.kind)) =
        some (.none, .count ((tokenizer.subs (tokenOf "tokens")).headD .invalid) 0 0) ∧
      tokenizer.Primitive ∧ tokenizer.nullableRepetition? = none ∧
      tokenizer.surely 2 true ((tokenizer.subs (tokenOf "tokens")).headD .invalid)) ∧
      tokenizer.isTokenChoice ((tokenizer.subs (tokenOf "tokens")).headD .invalid) ∧
      tokenizer.allBelow (fun _ => true) 16 (tokenOf "tokens") := by
    decide +kernel
  obtain ⟨⟨hroot, hshape, hprimitive, hvalid, hsurely⟩, hchoice, hheight⟩ := hchecked
  exact ⟨⟨hroot, hshape, hprimitive, by rw [Graph.validate, hvalid], 2, hsurely⟩, hchoice, hheight⟩

end Script

end RuleScript
