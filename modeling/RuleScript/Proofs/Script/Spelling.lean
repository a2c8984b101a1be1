import RuleScript.Script.Lexicon

/-!
# How tokens are spelled

Each alternative of the tokenizer has a `Shape`, which says how far it goes in the text ahead, if it
goes anywhere.  `spellings` has the alternatives in the order in which they are tried, and `next?` is
the first of them that goes somewhere.  From that alone it follows what a text is split into
(`Lexes`).

A shape is a function of the text ahead only.  That makes it fit for texts that are put together from
pieces: of what follows a token only the first character matters, and it matters only to tell where
the token ends.
-/

namespace RuleScript.Script

/-! ## Classes of characters -/

/-- Characters told by ranges that include both bounds. -/
abbrev CharClass := List (Char × Char)

namespace CharClass

/-- The class of some characters. -/
def ofChars (chars : List Char) : CharClass := chars.map fun c => (c, c)

def has (C : CharClass) (c : Char) : Bool :=
  C.any fun range => range.1.toNat ≤ c.toNat && c.toNat ≤ range.2.toNat

/-- Whether no range of one class overlaps one of the other. -/
def disjoint (C D : CharClass) : Bool :=
  C.all fun range => D.all fun range' =>
    range.2.toNat < range'.1.toNat || range'.2.toNat < range.1.toNat

theorem has_ofChars {chars : List Char} {c : Char} : (ofChars chars).has c ↔ c ∈ chars := by
  simp only [has, ofChars, List.any_map, List.any_eq_true, Function.comp_apply, Bool.and_eq_true,
    decide_eq_true_eq]
  constructor
  · rintro ⟨c', hmem, hle, hge⟩
    rwa [Char.toNat_inj.mp (Nat.le_antisymm hge hle)]
  · exact fun hmem => ⟨c, hmem, Nat.le_refl _, Nat.le_refl _⟩

theorem not_has_of_disjoint {C D : CharClass} {c : Char} (h : C.disjoint D) (hC : C.has c) :
    D.has c = false := by
  rw [Bool.eq_false_iff]
  intro hD
  obtain ⟨range, hrange, hin⟩ := List.any_eq_true.mp hC
  obtain ⟨range', hrange', hin'⟩ := List.any_eq_true.mp hD
  have hapart := List.all_eq_true.mp (List.all_eq_true.mp h range hrange) range' hrange'
  simp only [Bool.and_eq_true, Bool.or_eq_true, decide_eq_true_eq] at hin hin' hapart
  omega

end CharClass

/-- White space. -/
def spaces : CharClass := .ofChars ['\t', '\n', '\r', ' ']

def digits : CharClass := [('0', '9')]

/-- What a name starts with. -/
def nameStart : CharClass := [('a', 'z'), ('A', 'Z'), ('_', '_')]

/-- What a name goes on with. -/
def nameChars : CharClass := nameStart ++ digits

/-- Whether a name would go on in a text. -/
def nameAhead (text : List Char) : Bool := text.head?.any nameChars.has

/-! ## Shapes -/

/-- How far it is to where a block comment is closed first, if it is. -/
def closing? : List Char → Option Nat
  | [] => none
  | c :: rest => if "*)".toList <+: c :: rest then some 2 else (closing? rest).map (· + 1)

/-- How far a block comment goes after the two characters that open it: one that is not closed takes
the rest of the text. -/
def commentLength (text : List Char) : Nat := (closing? text).getD text.length

/-- How far the inside of a string goes: a quote, the end of the line or of the text ends it, unless
a backslash stands in front. -/
def insideLength (quote : Char) : List Char → Nat
  | [] => 0
  | '\\' :: _ :: rest => insideLength quote rest + 2
  | c :: rest => if c ∈ ['\n', quote, '\\'] then 0 else insideLength quote rest + 1

/-- What one alternative of the tokenizer matches. -/
inductive Shape where
  /-- Characters of a class, at least one and as many as there are. -/
  | run (C : CharClass)
  | lineComment
  | blockComment
  | quoted
  /-- A marker for pruning. -/
  | marker
  /-- A certain word, which has to end there. -/
  | keyword (text : String)
  /-- Any word. -/
  | word
  | mark (text : String)
  | any
  deriving DecidableEq

namespace Shape

/-- How far what a shape matches goes in a text. -/
def length? (shape : Shape) : List Char → Option Nat
  | [] => none
  | c :: rest =>
    match shape with
    | run C => if C.has c then some ((rest.takeWhile C.has).length + 1) else none
    | lineComment => if c = '#' then some ((rest.takeWhile (· ≠ '\n')).length + 1) else none
    | blockComment =>
      if "(*".toList <+: c :: rest then some (commentLength (rest.drop 1) + 2) else none
    | quoted =>
      if c ∈ ['"', '\''] ∧ rest[insideLength c rest]? = some c then some (insideLength c rest + 2)
      else none
    | marker =>
      if c = '-' ∧ rest.head?.any (· ∈ ['a', 'c', 'r']) ∧ ¬ nameAhead (rest.drop 1) then some 2
      else none
    | keyword text =>
      if text.toList <+: c :: rest ∧ ¬ nameAhead ((c :: rest).drop text.toList.length) then
        some text.toList.length
      else none
    | word => if nameStart.has c then some ((rest.takeWhile nameChars.has).length + 1) else none
    | mark text => if text.toList <+: c :: rest then some text.toList.length else none
    | any => some 1

@[simp] theorem length?_nil (shape : Shape) : shape.length? [] = none := rfl

/-- The characters that what a shape matches starts with; of the catch-all none are told. -/
def starts : Shape → CharClass
  | run C => C
  | lineComment => .ofChars ['#']
  | blockComment => .ofChars ['(']
  | quoted => .ofChars ['"', '\'']
  | marker => .ofChars ['-']
  | keyword text | mark text => .ofChars (text.toList.take 1)
  | word => nameStart
  | any => []

/-- Whether a shape never matches without going anywhere. -/
def isProper : Shape → Bool
  | keyword text | mark text => !text.toList.isEmpty
  | _ => true

/-- A text of which a shape matches something starts as it should. -/
theorem starts_of_length? {shape : Shape} {text : List Char} {len : Nat}
    (h : shape.length? text = some len) (hproper : shape.isProper) (hany : shape ≠ any) :
    ∃ c rest, text = c :: rest ∧ shape.starts.has c := by
  cases text with
  | nil => cases h
  | cons c rest =>
      -- Every shape tests how the text begins, and has a length only if the test holds.
      have hif {p : Prop} [Decidable p] {b : Option Nat}
          (h : (if p then b else none) = some len) : p := (Option.ite_none_right_eq_some.mp h).1
      have hof {chars : List Char} (hmem : c ∈ chars) :
          ∃ c' rest', c :: rest = c' :: rest' ∧ (CharClass.ofChars chars).has c' :=
        ⟨c, rest, rfl, CharClass.has_ofChars.mpr hmem⟩
      have hfits {text : String} (hproper : !text.toList.isEmpty)
          (hpre : text.toList <+: c :: rest) : c ∈ text.toList.take 1 := by
        cases htext : text.toList with
        | nil => simp [htext] at hproper
        | cons first more =>
            rw [htext, List.cons_prefix_cons] at hpre
            simp [hpre.1]
      cases shape with
      | any => exact absurd rfl hany
      | run C => exact ⟨c, rest, rfl, hif h⟩
      | word => exact ⟨c, rest, rfl, hif h⟩
      | lineComment => exact hof (List.mem_singleton.mpr (hif h))
      | blockComment => exact hof (List.mem_singleton.mpr (List.cons_prefix_cons.mp (hif h)).1.symm)
      | quoted => exact hof (hif h).1
      | marker => exact hof (List.mem_singleton.mpr (hif h).1)
      | keyword text => exact hof (hfits hproper (hif h).1)
      | mark text => exact hof (hfits hproper (hif h))

/-- Of two shapes that start with different characters only one matches at a place. -/
theorem length?_eq_none_of_disjoint {shape other : Shape} (h : other.starts.disjoint shape.starts)
    (hproper : shape.isProper) (hany : shape ≠ any) (hproper' : other.isProper) (hany' : other ≠ any)
    {text text' : List Char} {len : Nat} (hlen : shape.length? text = some len)
    (hhead : text'.head? = text.head?) : other.length? text' = none := by
  rw [Option.eq_none_iff_forall_ne_some]
  intro len' hlen'
  obtain ⟨c, rest, rfl, hc⟩ := starts_of_length? hlen hproper hany
  obtain ⟨c', rest', rfl, hc'⟩ := starts_of_length? hlen' hproper' hany'
  obtain rfl : c' = c := Option.some.inj hhead
  rw [CharClass.not_has_of_disjoint h hc'] at hc
  cases hc

theorem length?_pos {shape : Shape} (hproper : shape.isProper) {text : List Char} {len : Nat}
    (h : shape.length? text = some len) : 0 < len := by
  have hpos {text : String} (hproper : !text.toList.isEmpty) : 0 < text.toList.length :=
    List.length_pos_iff.mpr (by simpa using hproper)
  cases text with
  | nil => cases h
  | cons c rest =>
      cases shape with
      | keyword text =>
          obtain ⟨-, hlen⟩ := (Option.ite_none_right_eq_some).mp h
          cases hlen
          exact hpos hproper
      | mark text =>
          obtain ⟨-, hlen⟩ := (Option.ite_none_right_eq_some).mp h
          cases hlen
          exact hpos hproper
      | any =>
          cases h
          exact Nat.one_pos
      | _ =>
          obtain ⟨-, hlen⟩ := (Option.ite_none_right_eq_some).mp h
          cases hlen
          exact Nat.succ_pos _

end Shape

/-! ## What is first in a text -/

/-- The alternatives of the tokenizer that leave no token. -/
def gapNames : List String := ["whitespace", "line_comment", "block_comment"]

/-- The alternatives of the tokenizer in the order in which they are tried. -/
def spellings : List (String × Shape) :=
  [("whitespace", .run spaces), ("line_comment", .lineComment), ("block_comment", .blockComment),
    ("string", .quoted), ("integer", .run digits), ("prune", .marker)] ++
  keywords.map (fun entry => (entry.1, .keyword entry.2)) ++ ("ident", .word) ::
  marks.map (fun entry => (entry.1, .mark entry.2)) ++ [("invalid", .any)]

/-- The alternative that is taken at the start of a text, and how far it goes. -/
def next? (text : List Char) : Option (String × Nat) :=
  spellings.findSome? fun entry => (entry.2.length? text).map (entry.1, ·)

/-- What a text is split into: the names of the tokens, each with its characters. -/
inductive Lexes : List Char → List (String × List Char) → Prop
  | nil : Lexes [] []
  | gap {text : List Char} {name : String} {len : Nat} {lexemes : List (String × List Char)}
      (h : next? text = some (name, len)) (hgap : name ∈ gapNames)
      (hrest : Lexes (text.drop len) lexemes) : Lexes text lexemes
  | token {text : List Char} {name : String} {len : Nat} {lexemes : List (String × List Char)}
      (h : next? text = some (name, len)) (htoken : name ∉ gapNames)
      (hrest : Lexes (text.drop len) lexemes) : Lexes text ((name, text.take len) :: lexemes)

/-- What comes next is told by the first alternative that goes anywhere. -/
theorem next?_eq_some_iff {text : List Char} {name : String} {len : Nat} :
    next? text = some (name, len) ↔ ∃ before shape after,
      spellings = before ++ (name, shape) :: after ∧
        (∀ entry ∈ before, entry.2.length? text = none) ∧ shape.length? text = some len := by
  rw [next?, List.findSome?_eq_some_iff]
  constructor
  · rintro ⟨before, ⟨name', shape⟩, after, hsplit, hlen, hbefore⟩
    obtain ⟨len', hlen, heq⟩ := Option.map_eq_some_iff.mp hlen
    cases heq
    exact ⟨before, shape, after, hsplit, fun entry hentry =>
      Option.map_eq_none_iff.mp (hbefore entry hentry), hlen⟩
  · rintro ⟨before, shape, after, hsplit, hbefore, hlen⟩
    exact ⟨before, (name, shape), after, hsplit, by rw [hlen]; rfl, fun entry hentry =>
      Option.map_eq_none_iff.mpr (hbefore entry hentry)⟩

/-- What a shape matches comes next if nothing that is tried before starts in the same way. -/
theorem next?_of_apart {before after : List (String × Shape)} {name : String} {shape : Shape}
    (hsplit : spellings = before ++ (name, shape) :: after)
    (hapart : ∀ entry ∈ before, entry.2.starts.disjoint shape.starts ∧ entry.2.isProper ∧
      entry.2 ≠ .any) (hproper : shape.isProper) (hany : shape ≠ .any) {text : List Char} {len : Nat}
    (h : shape.length? text = some len) : next? text = some (name, len) := by
  refine next?_eq_some_iff.mpr ⟨before, shape, after, hsplit, fun entry hentry => ?_, h⟩
  obtain ⟨hdisjoint, hproper', hany'⟩ := hapart entry hentry
  exact Shape.length?_eq_none_of_disjoint hdisjoint hproper hany hproper' hany' h rfl

@[simp] theorem next?_nil : next? [] = none := by
  simp [next?]

/-- There is one way to split a text. -/
theorem Lexes.functional {text : List Char} {lexemes lexemes' : List (String × List Char)}
    (h : Lexes text lexemes) (h' : Lexes text lexemes') : lexemes = lexemes' := by
  -- The next lexeme is determined by the text, and so is whether it is a gap.
  induction h generalizing lexemes' with
  | nil =>
      cases h' with
      | nil => rfl
      | gap h => cases h
      | token h => cases h
  | gap h hgap _ ih =>
      cases h' with
      | nil => cases h
      | gap h' _ hrest =>
          cases h.symm.trans h'
          exact ih hrest
      | token h' htoken =>
          cases h.symm.trans h'
          exact absurd hgap htoken
  | token h htoken _ ih =>
      cases h' with
      | nil => cases h
      | gap h' hgap =>
          cases h.symm.trans h'
          exact absurd hgap htoken
      | token h' _ hrest =>
          cases h.symm.trans h'
          rw [ih hrest]

end RuleScript.Script
