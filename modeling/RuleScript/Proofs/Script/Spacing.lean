import Mathlib.Data.List.TakeWhile
import RuleScript.Proofs.Script.Lexemes

/-!
# Spacing makes no difference

What a token is does not depend on the spacing around it: white space and comments may be put in
between, or changed, or left out where the tokens touch already (`Relaid`).  The alternatives of the
tokenizer look at most one character beyond what they take, and none of them asks for a character
that white space or a comment starts with.  So the same alternative is taken again, as far as before
(`next?_follows`), and the alternatives in front of it fail again: they start with other characters,
or they are words that end elsewhere, or marks with one more character (`Shape.clears`).
-/

namespace RuleScript

namespace Script

/-! ## White space and comments -/

/-- What may stand between tokens: white space and comments that end.  At the end of a text the last
comment need not end. -/
inductive Spacing : (last : Bool) → List Char → Prop
  | nil {last : Bool} : Spacing last []
  | space {last : Bool} {c : Char} {rest : List Char} (hc : spaces.has c)
      (hrest : Spacing last rest) : Spacing last (c :: rest)
  | lineComment {last : Bool} {comment rest : List Char} (hline : '\n' ∉ comment)
      (hrest : Spacing last ('\n' :: rest)) : Spacing last ('#' :: comment ++ '\n' :: rest)
  | blockComment {last : Bool} {comment rest : List Char}
      (hclosed : closing? comment = some comment.length) (hrest : Spacing last rest) :
      Spacing last ('(' :: '*' :: comment ++ rest)
  | openLine {comment : List Char} (hline : '\n' ∉ comment) : Spacing true ('#' :: comment)
  | openBlock {comment : List Char} (hopen : closing? comment = none) :
      Spacing true ('(' :: '*' :: comment)

/-- What white space and comments start with. -/
def separators : CharClass := spaces ++ .ofChars ['#', '(']

theorem Spacing.starts {last : Bool} {spacing : List Char} (h : Spacing last spacing) :
    ∀ c ∈ spacing.head?, separators.has c := by
  have hspace {c : Char} (hc : spaces.has c) : separators.has c := by
    simpa only [separators, CharClass.has, List.any_append, Bool.or_eq_true] using Or.inl hc
  cases h with
  | nil => simp
  | space hc => simpa using hspace hc
  | lineComment => exact fun c hc => by cases hc; decide
  | blockComment => exact fun c hc => by cases hc; decide
  | openLine => exact fun c hc => by cases hc; decide
  | openBlock => exact fun c hc => by cases hc; decide

/-! ### Spacing leaves no token -/

/-- A comment that is closed is closed there whatever follows. -/
theorem closing?_append {text : List Char} {len : Nat} (h : closing? text = some len)
    (more : List Char) : closing? (text ++ more) = some len := by
  induction text generalizing len with
  | nil => cases h
  | cons c rest ih =>
      rw [closing?] at h
      rw [List.cons_append, closing?]
      split at h
      · rename_i hpre
        have hpre' : "*)".toList <+: c :: (rest ++ more) :=
          hpre.trans (List.prefix_append (c :: rest) more)
        rwa [if_pos hpre']
      · rename_i hpre
        obtain ⟨len', hlen', rfl⟩ := Option.map_eq_some_iff.mp h
        rw [if_neg, ih hlen', Option.map_some]
        cases rest with
        | nil => cases hlen'
        | cons d rest => simpa [List.cons_prefix_cons] using hpre

/-- White space is a gap of its own or becomes part of the one it is put in front of. -/
theorem Lexes.space {c : Char} {rest : List Char} {lexemes : List (String × List Char)}
    (hc : spaces.has c) (h : Lexes rest lexemes) : Lexes (c :: rest) lexemes := by
  have hnext {text : List Char} {len : Nat} (h : (Shape.run spaces).length? text = some len) :
      next? text = some ("whitespace", len) :=
    next?_of_apart (show spellings = [] ++ _ :: spellings.drop 1 from rfl) (by simp) rfl (by decide) h
  have hlen : (Shape.run spaces).length? (c :: rest) =
      some ((rest.takeWhile spaces.has).length + 1) := if_pos hc
  refine .gap (hnext hlen) (by decide) ?_
  rw [List.drop_succ_cons]
  -- The white space that follows belongs to the same gap.
  cases rest with
  | nil => exact h
  | cons d more =>
      -- The lexemes of the rest begin with that gap, which is longer by one now.
      by_cases hd : spaces.has d
      · have hlen' : (Shape.run spaces).length? (d :: more) =
            some (((d :: more).takeWhile spaces.has).length) := by
          simp [Shape.length?, hd]
        cases h with
        | gap h _ hrest =>
            cases h.symm.trans (hnext hlen')
            exact hrest
        | token h htoken =>
            cases h.symm.trans (hnext hlen')
            exact absurd (by decide) htoken
      · simpa [hd] using h

theorem next?_lineComment {text : List Char} {len : Nat}
    (h : Shape.lineComment.length? text = some len) : next? text = some ("line_comment", len) := by
  have hapart : ∀ entry ∈ spellings.take 1, entry.2.starts.disjoint Shape.lineComment.starts ∧
      entry.2.isProper ∧ entry.2 ≠ .any := by
    decide +kernel
  exact next?_of_apart (show spellings = spellings.take 1 ++ _ :: spellings.drop 2 from rfl) hapart
    rfl (by decide) h

theorem next?_blockComment {text : List Char} {len : Nat}
    (h : Shape.blockComment.length? text = some len) : next? text = some ("block_comment", len) := by
  have hapart : ∀ entry ∈ spellings.take 2, entry.2.starts.disjoint Shape.blockComment.starts ∧
      entry.2.isProper ∧ entry.2 ≠ .any := by
    decide +kernel
  exact next?_of_apart (show spellings = spellings.take 2 ++ _ :: spellings.drop 3 from rfl) hapart
    rfl (by decide) h

theorem Spacing.lexes {last : Bool} {spacing rest : List Char}
    {lexemes : List (String × List Char)} (h : Spacing last spacing) (hlast : last → rest = [])
    (hrest : Lexes rest lexemes) : Lexes (spacing ++ rest) lexemes := by
  -- A comment ends in front of the line break, or with the text.
  have hline {comment : List Char} (more : List Char) (hcomment : '\n' ∉ comment)
      (hmore : ∀ c ∈ more.head?, c = '\n') :
      Shape.lineComment.length? ('#' :: comment ++ more) = some (comment.length + 1) := by
    have hnone : more.takeWhile (· ≠ '\n') = [] := by
      cases more with
      | nil => rfl
      | cons c more => simp [hmore c rfl]
    have hall : comment.takeWhile (· ≠ '\n') = comment := by
      rw [List.takeWhile_eq_self_iff]
      exact fun c hc => decide_eq_true fun heq => hcomment (heq ▸ hc)
    rw [List.cons_append, Shape.length?, if_pos rfl, List.takeWhile_append, hall, if_pos rfl, hnone,
      List.append_nil]
  have hblock (comment : List Char) :
      Shape.blockComment.length? ('(' :: '*' :: comment) = some (commentLength comment + 2) := by
    have hpre : "(*".toList <+: '(' :: '*' :: comment := List.prefix_append ['(', '*'] comment
    rw [Shape.length?, if_pos hpre]
    rfl
  induction h with
  | nil => exact hrest
  | space hc _ ih => exact (ih hlast).space hc
  | @lineComment last comment more hcomment _ ih =>
      have hnext := next?_lineComment (hline ('\n' :: more ++ rest) hcomment (by simp))
      rw [List.append_assoc]
      refine .gap hnext (by decide) ?_
      simpa using ih hlast
  | @blockComment last comment more hclosed _ ih =>
      have hlen : commentLength (comment ++ (more ++ rest)) = comment.length := by
        rw [commentLength, closing?_append hclosed, Option.getD_some]
      rw [List.append_assoc]
      refine .gap (next?_blockComment (hblock _)) (by decide) ?_
      simpa [hlen] using ih hlast
  -- What is open at the end takes all that is left, so nothing may follow.
  | @openLine comment hcomment =>
      obtain rfl := hlast rfl
      refine .gap (next?_lineComment (hline [] hcomment (by simp))) (by decide) ?_
      simpa using hrest
  | @openBlock comment hopen =>
      obtain rfl := hlast rfl
      have hlen : commentLength comment = comment.length := by
        rw [commentLength, hopen, Option.getD_none]
      rw [List.append_nil]
      refine .gap (next?_blockComment (hblock _)) (by decide) ?_
      simpa [hlen] using hrest

/-! ## What follows a token -/

/-- A text may follow in the place of another: it starts with the same character or with spacing, or
it is empty. -/
def MayFollow (rest rest' : List Char) : Prop :=
  rest'.head? = rest.head? ∨ ∀ c ∈ rest'.head?, separators.has c

theorem MayFollow.head {rest rest' : List Char} (h : MayFollow rest rest') {c : Char}
    (hc : separators.has c = false) (hhead : rest'.head? = some c) : rest.head? = some c := by
  rcases h with h | h
  · rw [← h, hhead]
  · rw [h c hhead] at hc
    cases hc

theorem MayFollow.not_ahead {rest rest' : List Char} (h : MayFollow rest rest') {C : CharClass}
    (hC : separators.disjoint C) (hrest : ¬ rest.head?.any C.has) : ¬ rest'.head?.any C.has := by
  rcases h with h | h
  · rwa [h]
  · intro hany
    obtain ⟨c, hc, hhas⟩ := (Option.any_eq_true _ _).mp hany
    rw [CharClass.not_has_of_disjoint hC (h c hc)] at hhas
    cases hhas

theorem MayFollow.not_nameAhead {rest rest' : List Char} (h : MayFollow rest rest')
    (hrest : ¬ nameAhead rest) : ¬ nameAhead rest' :=
  h.not_ahead (by decide +kernel) hrest

/-! ### The alternative that is taken -/

/-- Whether a shape goes as far before spacing as it does before anything else that ends it. -/
def Shape.isSteady : Shape → Bool
  | .run C => separators.disjoint C
  | .quoted | .marker | .keyword _ | .word | .mark _ => true
  | .lineComment | .blockComment | .any => false

/-- A run of characters of a class stops at the end of a text just if nothing of the class follows. -/
theorem length_takeWhile_append_iff {p : Char → Bool} {text rest : List Char} :
    ((text ++ rest).takeWhile p).length = text.length ↔
      (∀ c ∈ text, p c) ∧ ¬ rest.head?.any p := by
  induction text with
  | nil => cases rest <;> simp [List.takeWhile_cons]
  | cons c text ih => by_cases hc : p c <;> simp [hc, ih]

/-- The inside of a string ends with the quote that ends it, whatever follows. -/
theorem insideLength_append {quote : Char} (hquote : quote ≠ '\\') {text : List Char}
    {rest : List Char} (h : insideLength quote (text ++ quote :: rest) = text.length)
    (rest' : List Char) : insideLength quote (text ++ quote :: rest') = text.length := by
  have hstop (rest : List Char) : insideLength quote (quote :: rest) = 0 := by
    rw [insideLength, if_pos (by simp)]
    exact fun _ _ heq _ => hquote heq
  induction text using insideLength.induct quote with
  | case1 => exact hstop rest'
  | case2 c text ih =>
      simp only [List.cons_append, insideLength, List.length_cons] at h ⊢
      rw [ih (by omega)]
  | case3 c text hescape hends =>
      -- A character that ends a string ends it too early, and a backslash takes the quote with it.
      by_cases hc : c = '\\'
      · cases text with
        | cons d text => exact absurd rfl (hescape d text hc)
        | nil =>
            subst hc
            rw [List.cons_append, List.nil_append, insideLength] at h
            simp at h
      · rw [List.cons_append, insideLength, if_pos hends] at h
        · cases h
        · exact fun _ _ heq _ => hc heq
  | case4 c text hescape hends ih =>
      have hc : c ≠ '\\' := fun hc => hends (by simp [hc])
      have hnext (rest : List Char) : insideLength quote (c :: text ++ quote :: rest) =
          insideLength quote (text ++ quote :: rest) + 1 := by
        rw [List.cons_append, insideLength, if_neg hends]
        exact fun _ _ heq _ => hc heq
      rw [hnext] at h ⊢
      rw [ih (Nat.succ.inj h)]
      rfl

theorem eq_of_prefix_append {wanted text rest : List Char} (hpre : wanted <+: text ++ rest)
    (hlen : wanted.length = text.length) : wanted = text :=
  (List.prefix_of_prefix_length_le hpre (List.prefix_append text rest)
    (Nat.le_of_eq hlen)).eq_of_length hlen

namespace Shape

section Exactly

variable {c : Char} {text rest rest' : List Char}

theorem run_length?_iff {C : CharClass} :
    (run C).length? (c :: text ++ rest) = some (c :: text).length ↔
      C.has c ∧ (∀ d ∈ text, C.has d) ∧ ¬ rest.head?.any C.has := by
  rw [← length_takeWhile_append_iff, List.cons_append]
  by_cases hc : C.has c <;> simp [length?, hc]

theorem word_length?_iff :
    word.length? (c :: text ++ rest) = some (c :: text).length ↔
      nameStart.has c ∧ (∀ d ∈ text, nameChars.has d) ∧ ¬ nameAhead rest := by
  rw [nameAhead, ← length_takeWhile_append_iff, List.cons_append]
  by_cases hc : nameStart.has c <;> simp [length?, hc]

theorem keyword_length?_iff {wanted : String} :
    (keyword wanted).length? (c :: text ++ rest) = some (c :: text).length ↔
      wanted.toList = c :: text ∧ ¬ nameAhead rest := by
  rw [List.cons_append, length?, Option.ite_none_right_eq_some, ← List.cons_append]
  constructor
  · rintro ⟨⟨hpre, hend⟩, hlen⟩
    have hwanted := eq_of_prefix_append hpre (Option.some.inj hlen)
    rw [hwanted, List.drop_left] at hend
    exact ⟨hwanted, hend⟩
  · rintro ⟨hwanted, hend⟩
    rw [hwanted, List.drop_left]
    exact ⟨⟨List.prefix_append _ _, hend⟩, rfl⟩

theorem mark_length?_iff {wanted : String} :
    (mark wanted).length? (c :: text ++ rest) = some (c :: text).length ↔
      wanted.toList = c :: text := by
  rw [List.cons_append, length?, Option.ite_none_right_eq_some, ← List.cons_append]
  constructor
  · exact fun h => eq_of_prefix_append h.1 (Option.some.inj h.2)
  · intro hwanted
    rw [hwanted]
    exact ⟨List.prefix_append _ _, rfl⟩

theorem marker_length?_iff :
    marker.length? (c :: text ++ rest) = some (c :: text).length ↔
      c = '-' ∧ (∃ d ∈ ['a', 'c', 'r'], text = [d]) ∧ ¬ nameAhead rest := by
  rw [List.cons_append, length?, Option.ite_none_right_eq_some]
  constructor
  · rintro ⟨⟨hc, hletter, hend⟩, hlen⟩
    obtain ⟨d, rfl⟩ : ∃ d, text = [d] := List.length_eq_one_iff.mp (by simpa using hlen.symm)
    exact ⟨hc, ⟨d, by simpa using hletter, rfl⟩, hend⟩
  · rintro ⟨hc, ⟨d, hd, rfl⟩, hend⟩
    exact ⟨⟨hc, by simpa using hd, hend⟩, rfl⟩

/-- A string stays one whatever follows. -/
theorem quoted_length?_append (h : quoted.length? (c :: text ++ rest) = some (c :: text).length) :
    quoted.length? (c :: text ++ rest') = some (c :: text).length := by
  rw [List.cons_append] at h
  obtain ⟨⟨hc, hlast⟩, hlen⟩ := Option.ite_none_right_eq_some.mp h
  have hplain : c ≠ '\\' := by
    rintro rfl
    simp at hc
  have hinside : insideLength c (text ++ rest) + 1 = text.length :=
    Nat.succ.inj (Option.some.inj hlen)
  -- The last character of the token is the quote, so the text in front of it is the inside.
  obtain ⟨inside, last, rfl⟩ : ∃ inside last, text = inside ++ [last] := by
    have hne : text ≠ [] := by
      rintro rfl
      simp at hinside
    exact ⟨text.dropLast, text.getLast hne, (List.dropLast_append_getLast hne).symm⟩
  rw [List.append_assoc, List.singleton_append] at hlast hinside
  have hlength : insideLength c (inside ++ last :: rest) = inside.length := by
    simpa using hinside
  rw [hlength] at hlast
  obtain rfl : last = c := by simpa using hlast
  have hsame := insideLength_append hplain hlength rest'
  rw [List.cons_append, List.append_assoc, List.singleton_append, length?, hsame,
    if_pos ⟨hc, by simp⟩]
  simp

end Exactly

/-- A steady shape goes as far as before. -/
theorem length?_follows {shape : Shape} {text rest rest' : List Char} (hsteady : shape.isSteady)
    (hproper : shape.isProper) (h : shape.length? (text ++ rest) = some text.length)
    (hfollow : MayFollow rest rest') : shape.length? (text ++ rest') = some text.length := by
  cases text with
  | nil => exact absurd (length?_pos hproper h) (Nat.lt_irrefl 0)
  | cons c text =>
      -- Only what looks ahead can tell the two texts apart, and there both agree.
      cases shape with
      | lineComment | blockComment | any => cases hsteady
      | quoted => exact quoted_length?_append h
      | mark wanted => exact mark_length?_iff.mpr (mark_length?_iff.mp h)
      | run C =>
          obtain ⟨hc, hall, hend⟩ := run_length?_iff.mp h
          exact run_length?_iff.mpr ⟨hc, hall, hfollow.not_ahead hsteady hend⟩
      | word =>
          obtain ⟨hc, hall, hend⟩ := word_length?_iff.mp h
          exact word_length?_iff.mpr ⟨hc, hall, hfollow.not_nameAhead hend⟩
      | marker =>
          obtain ⟨hc, hletter, hend⟩ := marker_length?_iff.mp h
          exact marker_length?_iff.mpr ⟨hc, hletter, hfollow.not_nameAhead hend⟩
      | keyword wanted =>
          obtain ⟨hwanted, hend⟩ := keyword_length?_iff.mp h
          exact keyword_length?_iff.mpr ⟨hwanted, hfollow.not_nameAhead hend⟩

end Shape

/-! ### The alternatives in front of it -/

/-- Whether one shape that fails where another matches fails there before anything else too: they
start with different characters, or they are words, or the one is the other with one more character,
which no spacing starts with. -/
def Shape.clears (other shape : Shape) : Bool :=
  other.starts.disjoint shape.starts ||
    match other, shape with
    | .keyword text, .keyword text' => text.toList.all nameChars.has && text'.toList.all nameChars.has
    | .keyword text, .word => text.toList.all nameChars.has
    | .mark text, .mark text' =>
      text'.toList.length = 1 && text.toList.length = 2 &&
        (text.toList.drop 1).all (!separators.has ·)
    | .blockComment, .mark text' => text'.toList.length = 1
    | _, _ => false

/-- A word that is found at the start of another one is that other. -/
theorem eq_of_words {word text rest : List Char} (hpre : word <+: text ++ rest)
    (hword : ∀ c ∈ word, nameChars.has c) (htext : ∀ c ∈ text, nameChars.has c)
    (hend : ¬ nameAhead ((text ++ rest).drop word.length)) (hrest : ¬ nameAhead rest) :
    word = text := by
  obtain ⟨after, hafter⟩ := hpre
  rcases List.append_eq_append_iff.mp hafter with ⟨more, rfl, rfl⟩ | ⟨more, rfl, rfl⟩
  · cases more with
    | nil => exact (List.append_nil word).symm
    | cons c more =>
        refine absurd ?_ hend
        rw [List.append_assoc, List.drop_left]
        exact htext c (by simp)
  · cases more with
    | nil => exact List.append_nil text
    | cons c more => exact absurd (hword c (by simp)) hrest

/-- What is one character longer than a text fails in front of spacing as well. -/
theorem not_prefix_follows {wanted text rest rest' : List Char} (htext : text.length = 1)
    (hwanted : wanted.length = 2) (hplain : ∀ c ∈ wanted.drop 1, separators.has c = false)
    (h : ¬ wanted <+: text ++ rest) (hfollow : MayFollow rest rest') :
    ¬ wanted <+: text ++ rest' := by
  obtain ⟨c, rfl⟩ := List.length_eq_one_iff.mp htext
  obtain ⟨a, b, rfl⟩ := List.length_eq_two.mp hwanted
  intro hpre
  obtain ⟨rfl, hnext⟩ := List.cons_prefix_cons.mp hpre
  refine h (List.cons_prefix_cons.mpr ⟨rfl, ?_⟩)
  have hhead : rest'.head? = some b := by
    obtain ⟨more, rfl⟩ := hnext
    rfl
  obtain ⟨more, rfl⟩ := List.head?_eq_some_iff.mp (hfollow.head (hplain b (by simp)) hhead)
  exact List.prefix_append [b] more

/-- A shape that fails where another matches fails there in front of spacing as well. -/
theorem Shape.length?_eq_none_follows {shape other : Shape} {text rest rest' : List Char}
    (hclears : other.clears shape) (hproper : shape.isProper) (hany : shape ≠ .any)
    (hproper' : other.isProper) (hany' : other ≠ .any)
    (h : shape.length? (text ++ rest) = some text.length)
    (hnone : other.length? (text ++ rest) = none) (hfollow : MayFollow rest rest') :
    other.length? (text ++ rest') = none := by
  cases text with
  | nil => exact absurd (Shape.length?_pos hproper h) (Nat.lt_irrefl 0)
  | cons c text =>
      have hnameStart {c : Char} (hc : nameStart.has c) : nameChars.has c := by
        simpa only [nameChars, CharClass.has, List.any_append, Bool.or_eq_true] using Or.inl hc
      -- A word that fails in front of the one text and is found in front of the other is what the
      -- other shape takes, and that ends in both.
      have hword {wanted : String} (hother : other = .keyword wanted)
          (hwanted : wanted.toList.all nameChars.has) (hall : ∀ d ∈ c :: text, nameChars.has d)
          (hend : ¬ nameAhead rest) : other.length? (c :: text ++ rest') = none := by
        subst hother
        refine if_neg fun hfound => ?_
        have heq : wanted.toList = c :: text := eq_of_words hfound.1
          (fun d hd => List.all_eq_true.mp hwanted d hd) hall hfound.2
          (hfollow.not_nameAhead hend)
        rw [keyword_length?_iff.mpr ⟨heq, hend⟩] at hnone
        cases hnone
      unfold Shape.clears at hclears
      rcases (Bool.or_eq_true _ _).mp hclears with hdisjoint | hclears
      · exact Shape.length?_eq_none_of_disjoint hdisjoint hproper hany hproper' hany' h rfl
      · split at hclears
        · rw [Bool.and_eq_true] at hclears
          obtain ⟨heq, hend⟩ := keyword_length?_iff.mp h
          refine hword rfl hclears.1 (fun d hd => ?_) hend
          rw [← heq] at hd
          exact List.all_eq_true.mp hclears.2 d hd
        · obtain ⟨hc, hall, hend⟩ := word_length?_iff.mp h
          exact hword rfl hclears (List.forall_mem_cons.mpr ⟨hnameStart hc, hall⟩) hend
        · simp only [Bool.and_eq_true, decide_eq_true_eq, List.all_eq_true,
            Bool.not_eq_true'] at hclears
          obtain ⟨⟨hone, htwo⟩, hplain⟩ := hclears
          rw [mark_length?_iff.mp h] at hone
          exact if_neg (not_prefix_follows hone htwo hplain
            (fun hpre => Option.some_ne_none _ ((if_pos hpre).symm.trans hnone)) hfollow)
        · rw [decide_eq_true_eq, mark_length?_iff.mp h] at hclears
          have hstar : ∀ c ∈ ['(', '*'].drop 1, separators.has c = false :=
            List.forall_mem_singleton.mpr rfl
          exact if_neg (not_prefix_follows hclears rfl hstar
            (fun hpre => Option.some_ne_none _ ((if_pos hpre).symm.trans hnone)) hfollow)
        · cases hclears

/-- What comes next still does before what may follow it. -/
theorem next?_follows {text rest rest' : List Char} {name : String}
    (h : next? (text ++ rest) = some (name, text.length)) (htoken : name ∉ gapNames)
    (hvalid : name ≠ "invalid") (hfollow : MayFollow rest rest') :
    next? (text ++ rest') = some (name, text.length) := by
  have hsteady : ∀ entry ∈ spellings, entry.1 ∉ gapNames → entry.1 ≠ "invalid" →
      entry.2.isSteady ∧ entry.2.isProper ∧ entry.2 ≠ .any := by
    decide +kernel
  have hclears : spellings.Pairwise fun other entry => entry.1 ∉ gapNames → entry.1 ≠ "invalid" →
      other.2.clears entry.2 ∧ other.2.isProper ∧ other.2 ≠ .any := by
    decide +kernel
  obtain ⟨before, shape, after, hsplit, hbefore, hlen⟩ := next?_eq_some_iff.mp h
  obtain ⟨hshape, hproper, hany⟩ := hsteady (name, shape) (by simp [hsplit]) htoken hvalid
  refine next?_eq_some_iff.mpr ⟨before, shape, after, hsplit, fun other hother => ?_,
    Shape.length?_follows hshape hproper hlen hfollow⟩
  rw [hsplit, List.pairwise_append] at hclears
  obtain ⟨hother', hproper', hany'⟩ :=
    hclears.2.2 other hother (name, shape) List.mem_cons_self htoken hvalid
  exact Shape.length?_eq_none_follows hother' hproper hany hproper' hany' hlen
    (hbefore other hother) hfollow

/-! ## Other texts with the same tokens -/

variable {chars : Array Char} {start : Nat} {before : Option Nat} {tokens : List Token}
variable {other : List Char}

/-- A text with the texts of some tokens in it, in their order, and spacing in between.  Only where a
token starts where the one `before` it stops, or is the first, may the two touch. -/
inductive Relaid (chars : Array Char) : (before : Option Nat) → List Token → List Char → Prop
  | last {before : Option Nat} {spacing : List Char} (h : Spacing true spacing) :
      Relaid chars before [] spacing
  | token {before : Option Nat} {token : Token} {tokens : List Token} {spacing rest : List Char}
      (h : Spacing false spacing) (htouch : spacing = [] → ∀ stop ∈ before, token.span.start = stop)
      (hrest : Relaid chars (some token.span.stop) tokens rest) :
      Relaid chars before (token :: tokens) (spacing ++ ((token.text chars).toList ++ rest))

/-- The text of a token is what is taken from the text ahead of it, and not empty. -/
theorem Splits.text_of_mem (h : Splits chars start tokens) {token : Token} (htoken : token ∈ tokens) :
    (token.text chars).toList = (chars.toList.drop token.span.start).take token.span.len ∧
      0 < token.span.len ∧ token.span.stop ≤ chars.size := by
  obtain ⟨name, hnext, -, -, hstop⟩ := h.of_mem htoken
  refine ⟨by rw [text_eq (by rfl) hstop, String.toList_ofList], ?_, hstop⟩
  obtain ⟨before, shape, after, hsplit, -, hlen⟩ := next?_eq_some_iff.mp hnext
  have hproper : ∀ entry ∈ spellings, entry.2.isProper := by
    decide +kernel
  exact Shape.length?_pos (hproper (name, shape) (by simp [hsplit])) hlen

/-- What is relaid may follow in the place of what stood there. -/
theorem Relaid.follows {stop : Nat} (h : Relaid chars (some stop) tokens other)
    (hsplits : Splits chars start tokens) : MayFollow (chars.toList.drop stop) other := by
  cases h with
  | last h => exact .inr h.starts
  | @token _ token tokens spacing rest h htouch hrest =>
      cases spacing with
      | cons c spacing => exact .inr h.starts
      | nil =>
          obtain ⟨htext, hpos, hstop⟩ := hsplits.text_of_mem List.mem_cons_self
          -- Tokens that touch in the new text have touched in the old one.
          obtain rfl := htouch rfl stop rfl
          refine .inl ?_
          rw [List.nil_append, htext]
          cases hahead : chars.toList.drop token.span.start with
          | nil =>
              have hsize : chars.size ≤ token.span.start := by simpa using hahead
              rw [Span.stop] at hstop
              omega
          | cons c ahead =>
              obtain ⟨len, hlen⟩ := Nat.exists_eq_add_of_lt hpos
              rw [hlen]
              simp

/-- A text that is relaid is split into the same tokens. -/
theorem Relaid.lexes (hsplits : Splits chars start tokens)
    (hvalid : ∀ token ∈ tokens, token.kind ≠ tokenOf "invalid") (h : Relaid chars before tokens other) :
    ∃ lexemes, Lexes other lexemes ∧
      tokens.map (fun token => (token.kind, token.text chars)) = lexemes.map lexemeOf := by
  induction hsplits generalizing before other with
  | done =>
      cases h with
      | last h => exact ⟨[], by simpa using h.lexes (fun _ => rfl) .nil, rfl⟩
  | gap _ _ _ ih => exact ih hvalid h
  | @token start len name token tokens hnext htoken hkind hspan hrest ih =>
      cases h with
      | @token _ _ _ spacing more h htouch hmore =>
          have hname : name ≠ "invalid" := by
            rintro rfl
            exact hvalid token List.mem_cons_self hkind
          have htext := congrArg String.toList (text_eq hspan hrest.le_size)
          rw [String.toList_ofList] at htext
          have hlength : (token.text chars).toList.length = len := by
            have hsize : chars.toList.length = chars.size := rfl
            have hle := hrest.le_size
            rw [htext, List.length_take, List.length_drop]
            omega
          -- What the token is followed by in the source and in the other text.
          have hfollow : MayFollow (chars.toList.drop (start + len)) more := by
            rw [hspan] at hmore
            exact hmore.follows hrest
          have hahead : next? ((token.text chars).toList ++ chars.toList.drop (start + len)) =
              some (name, (token.text chars).toList.length) := by
            rw [hlength, htext, ← List.drop_drop, List.take_append_drop]
            exact hnext
          obtain ⟨lexemes, hlexes, hsame⟩ := ih (fun token htoken =>
            hvalid token (List.mem_cons_of_mem _ htoken)) hmore
          have hother := Lexes.token (next?_follows hahead htoken hname hfollow) htoken
            (by rwa [List.drop_left])
          rw [List.take_left] at hother
          refine ⟨_, h.lexes (fun hlast => nomatch hlast) hother, ?_⟩
          rw [List.map_cons, List.map_cons, hsame, hkind, lexemeOf, String.ofList_toList]

/-- The texts of some tokens with single spaces in between are relaid. -/
theorem relaid_joined (tokens : List Token) :
    Relaid chars none tokens (" ".intercalate (tokens.map (·.text chars))).toList := by
  induction tokens with
  | nil => exact .last .nil
  | cons token tokens ih =>
      have hfirst {rest : List Char} (h : Relaid chars (some token.span.stop) tokens rest) :
          Relaid chars none (token :: tokens) ((token.text chars).toList ++ rest) :=
        @Relaid.token chars none token tokens [] rest .nil (by simp) h
      cases tokens with
      | nil => simpa using hfirst (.last .nil)
      | cons next tokens =>
          rw [List.map_cons, List.map_cons, String.intercalate_cons_cons, String.toList_append,
            String.toList_append, List.append_assoc]
          rw [List.map_cons] at ih
          generalize (" ".intercalate _).toList = joined at ih ⊢
          cases ih with
          | token h htouch hrest =>
              exact hfirst (.token (.space (by decide) h) (by simp) hrest)

end Script

open Script

/-- **Spacing makes no difference.**  Where no character of a text is invalid, the texts of its tokens
with single spaces in between are split into the same tokens, and so is every other text that differs
from it in white space and comments between the tokens only. -/
theorem spacing_irrelevant (source : String) {limit : Nat} (hlimit : 16 ≤ limit) :
    ∃ s journal, scan source limit = (.ok s, journal) ∧
      ((∀ token ∈ s.tokens.tokens, token.kind ≠ tokenOf "invalid") →
        (∃ joined journal,
          scan (" ".intercalate (s.spelled.map (·.2))) limit = (.ok joined, journal) ∧
            joined.spelled = s.spelled) ∧
          ∀ other : String, Relaid s.chars none s.tokens.tokens.toList other.toList →
            ∃ relaid journal, scan other limit = (.ok relaid, journal) ∧
              relaid.spelled = s.spelled) := by
  obtain ⟨nodes, trace, s, journal, -, hscan⟩ := exists_scan hlimit source
  obtain ⟨-, hsplits⟩ := scan_splits hscan
  refine ⟨s, journal, hscan, fun hvalid => ?_⟩
  -- Both texts have the lexemes of the relaid one, and a text has only one list of them.
  have hrelaid (other : String) (h : Relaid s.chars none s.tokens.tokens.toList other.toList) :
      ∃ relaid journal, scan other limit = (.ok relaid, journal) ∧ relaid.spelled = s.spelled := by
    obtain ⟨_, _, relaid, journal', -, hscan'⟩ := exists_scan hlimit other
    obtain ⟨lexemes, hlexes, hsame⟩ :=
      h.lexes hsplits fun token htoken => hvalid token (Array.mem_toList_iff.mp htoken)
    obtain ⟨lexemes', hlexes', hsame'⟩ := scan_lexes hscan'
    refine ⟨relaid, journal', hscan', ?_⟩
    rw [hsame', hlexes'.functional hlexes, ← hsame]
    rfl
  refine ⟨hrelaid _ ?_, hrelaid⟩
  rw [Scanned.spelled, List.map_map]
  exact relaid_joined _

/-- A comment between two names, a space in its place, and a tab with a comment at the end. -/
theorem comment_replaced :
    16 ≤ 16 ∧ ∃ s journal, scan "a(* b *)c" 16 = (.ok s, journal) ∧
      (∀ token ∈ s.tokens.tokens, token.kind ≠ tokenOf "invalid") ∧
      (∃ joined journal, scan "a c" 16 = (.ok joined, journal) ∧ joined.spelled = s.spelled) ∧
      Relaid s.chars none s.tokens.tokens.toList "a\tc# d".toList ∧
      ∃ relaid journal, scan "a\tc# d" 16 = (.ok relaid, journal) ∧ relaid.spelled = s.spelled := by
  obtain ⟨s, journal, hscan, hsame⟩ := spacing_irrelevant "a(* b *)c" (Nat.le_refl 16)
  have hchecked : (scan "a(* b *)c" 16).1.map (fun s => s.tokens.tokens.toList.map fun token =>
      (token.kind, token.span, token.text s.chars)) =
        .ok [(tokenOf "ident", ⟨0, 1⟩, "a"), (tokenOf "ident", ⟨8, 1⟩, "c")] := by
    decide +kernel
  rw [hscan] at hchecked
  obtain ⟨first, rest, htokens, hfirst, hrest⟩ := List.map_eq_cons_iff.mp (Except.ok.inj hchecked)
  obtain ⟨second, rfl, hsecond⟩ := List.map_eq_singleton_iff.mp hrest
  obtain ⟨hkind, hfirst⟩ := Prod.mk.inj hfirst
  obtain ⟨hspan, htext⟩ := Prod.mk.inj hfirst
  obtain ⟨hkind', hsecond⟩ := Prod.mk.inj hsecond
  obtain ⟨hspan', htext'⟩ := Prod.mk.inj hsecond
  have hvalid : ∀ token ∈ s.tokens.tokens, token.kind ≠ tokenOf "invalid" := by
    have hident : tokenOf "ident" ≠ tokenOf "invalid" := by decide +kernel
    intro token htoken
    rw [← Array.mem_toList_iff, htokens] at htoken
    rcases List.mem_pair.mp htoken with rfl | rfl
    · rwa [hkind]
    · rwa [hkind']
  -- A tab comes in place of the comment, and a comment is added at the end.
  have hrelaid : Relaid s.chars none s.tokens.tokens.toList "a\tc# d".toList := by
    have hlast : Relaid s.chars (some second.span.stop) [] "# d".toList :=
      .last (.openLine (by decide))
    have hboth := @Relaid.token s.chars none first [second] [] _ .nil (by simp)
      (.token (.space (by decide : spaces.has '\t') .nil) (by simp) hlast)
    rw [htext, htext', ← htokens] at hboth
    exact hboth
  obtain ⟨hjoined, hall⟩ := hsame hvalid
  have hspelled : s.spelled.map (·.2) = ["a", "c"] := by
    rw [Scanned.spelled, htokens]
    simp [htext, htext']
  rw [hspelled] at hjoined
  exact ⟨Nat.le_refl 16, s, journal, hscan, hvalid, hjoined, hrelaid, hall _ hrelaid⟩

end RuleScript
