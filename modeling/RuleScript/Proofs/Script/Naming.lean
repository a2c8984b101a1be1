import RuleScript.Proofs.Graph.WellFormed
import RuleScript.Proofs.Script.Forms
import RuleScript.Proofs.Script.Reading

/-!
# Names that scripts write

A name in a script is an identifier: a letter or an underscore, and then letters, underscores and digits.
That is how the tokenizer finds names (`Derives.textAt_word`), the grammar makes a node of each of them
and of nothing else (`eq_ruleOf_of_nodeKind?`), and so it is with all the names that an expression is read
from (`names_of_statement`).
-/

namespace RuleScript

/-! ## Identifiers -/

/-- Whether a name can start with a character. -/
def isNameStart (c : Char) : Bool := c.isAlpha || c == '_'

/-- Whether a name can go on with a character. -/
def isNameChar (c : Char) : Bool := isNameStart c || c.isDigit

/-- A text is a name that scripts can write. -/
def IsIdentifier (text : String) : Prop :=
  text.toList.head?.any isNameStart ∧ text.toList.all isNameChar

theorem IsIdentifier.hash_not_mem {text : String} (h : IsIdentifier text) : '#' ∉ text.toList :=
  fun hmem => absurd (List.all_eq_true.mp h.2 _ hmem) (by decide)

/-! ## Names in texts -/

section Words

variable {g : Graph Char} {chars : Array Char} {id : RuleId} {P : Char → Bool} {start len : Nat}

/-- Whether a rule matches one character, and none but certain ones. -/
def Graph.takesOnly (g : Graph Char) (P : Char → Bool) (id : RuleId) : Bool :=
  match g.kind? id with
  | some (.single c) => P c
  | some (.range lo hi) =>
    (List.range (hi.toNat + 1)).all fun n => n < lo.toNat || P (Char.ofNat n)
  | _ => false

/-- Whether a rule matches what one of some such rules does. -/
def Graph.takesOneOf (g : Graph Char) (P : Char → Bool) (id : RuleId) : Bool :=
  match g.kind? id with
  | some (.oneOf subs) => subs.all (g.takesOnly P)
  | _ => false

/-- Whether a rule matches the start of a name and all that may follow. -/
def Graph.isWord (g : Graph Char) (id : RuleId) : Bool :=
  match g.kind? id with
  | some (.sequence [first, tail]) =>
    g.takesOneOf isNameStart first &&
      match g.kind? tail with
      | some (.count one 0 0) => g.takesOneOf isNameChar one
      | _ => false
  | _ => false

theorem Derives.takesOnly (hid : g.takesOnly P id) (h : Derives g chars id start (some len)) :
    len = 1 ∧ ∃ c ∈ chars[start]?, P c := by
  unfold Graph.takesOnly at hid
  split at hid
  · rename_i c hkind
    obtain ⟨hat, rfl⟩ := h.at_single hkind
    exact ⟨rfl, c, hat, hid⟩
  · rename_i lo hi hkind
    have hverdict := h.verdict_range hkind
    split at hverdict
    · rename_i hvalue
      obtain ⟨c, hat, hlo, hhi⟩ := hvalue
      refine ⟨Option.some.inj hverdict, c, hat, ?_⟩
      have hc := List.all_eq_true.mp hid c.toNat (List.mem_range.mpr (Nat.lt_succ_of_le hhi))
      rw [Char.ofNat_toNat, Bool.or_eq_true, decide_eq_true_eq] at hc
      exact hc.resolve_left (Nat.not_lt.mpr hlo)
    · cases hverdict
  · cases hid

theorem Derives.takesOneOf (hid : g.takesOneOf P id) (h : Derives g chars id start (some len)) :
    len = 1 ∧ ∃ c ∈ chars[start]?, P c := by
  unfold Graph.takesOneOf at hid
  split at hid
  · rename_i subs hkind
    obtain ⟨one, hone, h⟩ := (h.firstOf hkind).exists_mem
    exact h.takesOnly (List.all_eq_true.mp hid one hone)
  · cases hid

/-- Characters that make up a name, one after the other, are an identifier. -/
theorem exists_identifier_at {more : Nat} (hfirst : ∃ c ∈ chars[start]?, isNameStart c)
    (hall : ∀ pos, start ≤ pos → pos < start + (1 + more) → ∃ c ∈ chars[pos]?, isNameChar c) :
    ∃ text, textAt? chars ⟨start, 1 + more⟩ = some text ∧ IsIdentifier text := by
  have hstop : start + (1 + more) ≤ chars.size := by
    obtain ⟨c, hc, -⟩ := hall (start + more) (by omega) (by omega)
    have hlt := (Array.getElem?_eq_some_iff.mp hc).1
    omega
  refine ⟨_, if_pos hstop, ?_, List.all_eq_true.mpr fun c hc => ?_⟩
  · obtain ⟨c, hc, hstart⟩ := hfirst
    rw [String.toList_ofList, List.head?_eq_getElem?, Array.getElem?_toList, Array.getElem?_extract,
      if_pos (by rw [Span.stop]; dsimp only; omega), Nat.add_zero, hc]
    exact hstart
  · rw [String.toList_ofList, Array.mem_toList_iff, Array.mem_extract_iff_getElem] at hc
    obtain ⟨k, hk, rfl⟩ := hc
    obtain ⟨c, hc, hname⟩ := hall (start + k) (by omega) (by rw [Span.stop] at hk; dsimp only at hk; omega)
    rw [← (Array.getElem?_eq_some_iff.mp hc).2] at hname
    exact hname

theorem Derives.textAt_word (hid : g.isWord id) (h : Derives g chars id start (some len)) :
    ∃ text, textAt? chars ⟨start, len⟩ = some text ∧ IsIdentifier text := by
  unfold Graph.isWord at hid
  split at hid
  · rename_i first tail hkind
    obtain ⟨hfirst, htail⟩ := Bool.and_eq_true_iff.mp hid
    split at htail
    · rename_i one hcount
      -- One character that begins a name, then any number that may follow.
      obtain ⟨len₁, more, hbegins, hmore, rfl⟩ := (h.inOrder hkind).of_cons
      obtain ⟨len₂, rest, hgoes, hnil, rfl⟩ := hmore.of_cons
      obtain rfl : rest = 0 := by cases hnil; rfl
      obtain ⟨rfl, hstart⟩ := hbegins.takesOneOf hfirst
      obtain ⟨reps, -, hrepeats⟩ := hgoes.exists_repeats hcount
      obtain ⟨-, hall⟩ := hrepeats.forall_at fun _ _ hone => hone.takesOneOf htail
      refine exists_identifier_at hstart fun pos hpos hlt => ?_
      rcases hpos.eq_or_lt with rfl | hpos
      · obtain ⟨c, hc, hname⟩ := hstart
        exact ⟨c, hc, Bool.or_eq_true_iff.mpr (.inl hname)⟩
      · exact hall pos hpos (by omega)
    · cases htail
  · cases hid

end Words

namespace Script

/-- Each name token of a script is an identifier. -/
def Scanned.KnowsNames (s : Scanned) : Prop :=
  ∀ pos, s.tokens.kinds[pos]? = some (tokenOf "ident") → IsIdentifier (s.lexeme ⟨pos, 1⟩).text

theorem tokenizer_isWord : tokenizer.isWord (tokenOf "ident") := by
  decide +kernel

theorem scan_knowsNames {source : String} {limit : Nat} {s : Scanned} {journal : Journal}
    (h : scan source limit = (.ok s, journal)) : s.KnowsNames := by
  intro pos hpos
  obtain ⟨text, htext, hname⟩ := (derives_of_scan h hpos).textAt_word tokenizer_isWord
  simp only [Scanned.lexeme, htext, Option.getD_some]
  exact hname

/-! ## Names in trees -/

theorem eq_ruleOf_of_nodeKind? {id : RuleId} {kind : NodeKind} (h : grammar.nodeKind? id = some kind) :
    id = ruleOf kind := by
  obtain ⟨name, hname, hkind⟩ := Option.bind_eq_some_iff.mp h
  have hfound := List.find?_some hkind
  obtain rfl : kind.ruleName = name := beq_iff_eq.mp hfound
  have hid := (Graph.idOf?_eq_some_iff grammar_names_nodup).mpr hname
  rw [ruleOf, hid, Option.getD_some]

theorem Part.not_isLog_of_ofNode {node : Node} {part : Part} (h : ofNode node = .ok part) :
    grammar.isLog node.rule = false := by
  obtain ⟨rule, span, children⟩ := node
  rw [ofNode] at h
  split at h
  · rename_i kind hkind
    rw [eq_ruleOf_of_nodeKind? hkind, not_isLog_ruleOf]
  · cases h

section Trees

variable (s : Scanned)

/-- All nodes that stand for names are over identifiers. -/
def Scanned.NamesIn (forest : List Node) : Prop :=
  ∀ node ∈ Node.preorderAll forest, grammar.nodeKind? node.rule = some .ident →
    IsIdentifier (s.lexeme node.span).text

mutual

/-- All names among a part and those below it are identifiers. -/
def Part.Named : Part → Prop
  | ⟨kind, span, parts⟩ => (kind = .ident → IsIdentifier (s.lexeme span).text) ∧ Part.AllNamed parts

def Part.AllNamed : List Part → Prop
  | [] => True
  | part :: rest => part.Named ∧ Part.AllNamed rest

end

end Trees

variable {s : Scanned}

/-- A node that stands for a name is over one token, which is one for names. -/
theorem namesIn_of_matchRoot (hnames : s.KnowsNames) {limit : Nat} {outcome : Outcome} {trace : Trace}
    (h : grammar.matchRoot s.tokens.kinds limit = (.ok outcome, trace)) : s.NamesIn outcome.nodes := by
  have hsourced := (Graph.runRoot_gives grammar_primitive (by rw [grammar_statements.1]; rfl)
    s.tokens.kinds limit).of_result h
  intro node hnode hkind
  have hrule := eq_ruleOf_of_nodeKind? hkind
  have hderives := hsourced node hnode (hrule ▸ not_isLog_ruleOf .ident)
  rw [hrule] at hderives
  have hverdict := hderives.verdict_single (kind?_ruleOf rfl)
  split at hverdict
  · rename_i hat
    have hspan : node.span = ⟨node.span.start, 1⟩ := by
      rw [← Option.some.inj hverdict]
    rw [hspan]
    exact hnames _ hat
  · cases hverdict

namespace Part

mutual

theorem named_of_ofNode {part : Part} : (node : Node) → s.NamesIn [node] → ofNode node = .ok part →
    part.Named s
  | ⟨rule, span, children⟩, hnames, h => by
      rw [ofNode] at h
      split at h
      · rename_i kind hkind
        have hbelow : s.NamesIn children := fun node hnode =>
          hnames node (Node.mem_preorderAll_of_child List.mem_cons_self hnode)
        cases hparts : ofNodes children with
        | error error =>
            rw [hparts] at h
            cases h
        | ok parts =>
            rw [hparts] at h
            obtain rfl := Except.ok.inj h
            refine ⟨fun hident => ?_, allNamed_of_ofNodes children hbelow hparts⟩
            exact hnames ⟨rule, span, children⟩ (Node.mem_preorderAll_of_mem List.mem_cons_self)
              (hkind.trans (congrArg some hident))
      · cases h

theorem allNamed_of_ofNodes {parts : List Part} : (nodes : List Node) → s.NamesIn nodes →
    ofNodes nodes = .ok parts → AllNamed s parts
  | [], _, h => by
      cases h
      trivial
  | node :: rest, hnames, h => by
      have hrest : s.NamesIn rest := fun other hother => hnames other (by
        rw [Node.preorderAll_cons]
        exact List.mem_cons_of_mem _ (List.mem_append_right _ hother))
      -- Entries are no parts, so their names do not matter.
      cases hlog : grammar.isLog node.rule with
      | true =>
          rw [ofNodes, if_pos hlog] at h
          exact allNamed_of_ofNodes rest hrest h
      | false =>
          obtain ⟨part, more, hpart, hmore, rfl⟩ := ofNodes_cons_ok hlog h
          refine ⟨named_of_ofNode node (fun other hother => hnames other ?_) hpart,
            allNamed_of_ofNodes rest hrest hmore⟩
          rw [Node.preorderAll_singleton] at hother
          rw [Node.preorderAll_cons, ← List.cons_append]
          exact List.mem_append_left _ hother

end

end Part

/-! ## Names in expressions -/

namespace Expression

mutual

/-- All names in an expression are identifiers. -/
def Named : Expression → Prop
  | .name text => IsIdentifier text
  | .sequence parts | .choice parts | .evaluation parts => AllNamed parts
  | .repetition _ one | .not one | .condition one | .skip _ one | .logIf _ _ one | .pruned _ one =>
    Named one
  | .string _ | .set .. | .dot | .log .. => True

def AllNamed : List Expression → Prop
  | [] => True
  | e :: rest => Named e ∧ AllNamed rest

end

end Expression

namespace Scanned

mutual

theorem Makes.named {part : Part} {e : Expression} : s.Makes part e → part.Named s → e.Named
  | .group h, hnamed => h.named hnamed.2
  | .only h, hnamed => h.named hnamed.2.1
  | .sequence h, hnamed => h.named hnamed.2
  | .unary h, hnamed => h.named hnamed.2.1
  | .pruned _ h, hnamed => h.named hnamed.2.2.1
  | .repetition _ h, hnamed => h.named hnamed.2.2.1
  | .not h, hnamed => h.named hnamed.2.1
  | .condition h, hnamed => h.named hnamed.2.1
  | .skip _ h, hnamed => h.named hnamed.2.2.1
  | .log _, _ => trivial
  | .logIf _ h, hnamed => h.named hnamed.2.2.2.1
  | .set _, _ => trivial
  | .string, _ => trivial
  | .dot, _ => trivial
  | .name, hnamed => hnamed.1 rfl

theorem AllMake.named {parts : List Part} {es : List Expression} :
    s.AllMake parts es → Part.AllNamed s parts → Expression.AllNamed es
  | .nil, _ => trivial
  | .cons h hrest, hnamed => ⟨h.named hnamed.1, hrest.named hnamed.2⟩

theorem BodyMakes.named {parts : List Part} {e : Expression} :
    s.BodyMakes parts e → Part.AllNamed s parts → e.Named
  | .only h, hnamed => h.named hnamed.1
  | .choice h hrest, hnamed => ⟨h.named hnamed.1, hrest.named hnamed.2.1.2⟩
  | .evaluation h hrest, hnamed => ⟨h.named hnamed.1, hrest.named hnamed.2.1.2⟩

end

end Scanned

/-- **All names that a script writes are identifiers**: those in the body of a rule that one of its
statements declares. -/
theorem names_of_statement {source : String} {limit : Nat} {outcome : Outcome}
    (hscan : (scan source limit).1 = .ok s)
    (hmatch : (grammar.matchRoot s.tokens.kinds limit).1 = .ok outcome) {node : Node}
    (hnode : node ∈ statementNodes outcome.nodes) {header : Header} {body : Expression}
    (hread : Part.ofNode node >>= s.statement = .ok (.rule header body)) : body.Named := by
  have hnames := namesIn_of_matchRoot (scan_knowsNames (Prod.ext hscan rfl)) (Prod.ext hmatch rfl)
  have hbelow : s.NamesIn [node] := by
    intro other hother
    refine hnames other ?_
    obtain ⟨root, hroot, hnode⟩ := List.mem_flatMap.mp hnode
    -- The statement is the child of a node that stands for one, or a root itself.
    split at hnode
    · rw [Node.preorderAll_singleton] at hother
      refine Node.mem_preorderAll_of_child hroot ?_
      rcases List.mem_cons.mp hother with rfl | hother
      · exact Node.mem_preorderAll_of_mem hnode
      · exact Node.mem_preorderAll_of_child hnode hother
    · obtain rfl := List.mem_singleton.mp hnode
      rw [Node.preorderAll_singleton] at hother
      rcases List.mem_cons.mp hother with rfl | hother
      · exact Node.mem_preorderAll_of_mem hroot
      · exact Node.mem_preorderAll_of_child hroot hother
  obtain ⟨span, place, others, parts, hpart, -, hbody⟩ := Scanned.rule_of_statement hread
  have hnamed := Part.named_of_ofNode node hbelow hpart
  exact (Scanned.bodyMakes_of_body _ hbody).named hnamed.2.2

end Script

end RuleScript
