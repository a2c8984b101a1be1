import RuleScript.Proofs.Script.Lexemes

/-!
# String literals come back

Two readers know the escapes of a string: the tokenizer, which looks for the quote that ends it, and
`literalValue`, which reads what is inside.  Both take a backslash together with the character after
it, so they agree on where a string ends: what `escape` writes is one token with the value it was
written from, and no token of a string is cut off after a backslash.
-/

namespace RuleScript

namespace Script

/-! ## The insides of strings -/

/-- A character that is written as it is ends no string. -/
theorem not_mem_of_escapeLetter? {c quote : Char} (hquote : quote ∈ ['"', '\''])
    (h : escapeLetter? c = none) : c ∉ ['\n', quote, '\\'] := by
  intro hmem
  simp only [List.mem_cons, List.not_mem_nil, or_false] at hmem hquote
  rcases hmem with rfl | rfl | rfl
  · cases h
  · rcases hquote with rfl | rfl <;> cases h
  · cases h

/-- What is written with escapes goes up to the quote after it. -/
theorem insideLength_escape {quote : Char} (hquote : quote ∈ ['"', '\'']) (text rest : List Char) :
    insideLength quote (escape text ++ quote :: rest) = (escape text).length := by
  induction text with
  | nil =>
      have hplain : quote ≠ '\\' := by
        rintro rfl
        simp at hquote
      rw [escape, List.nil_append, insideLength, if_pos (by simp)]
      · rfl
      · exact fun _ _ heq _ => hplain heq
  | cons c text ih =>
      rw [escape]
      split
      · rw [List.cons_append, List.cons_append, insideLength, ih]
        rfl
      · rename_i hletter
        -- A character without an escape is neither the quote nor a backslash.
        have hplain := not_mem_of_escapeLetter? hquote hletter
        rw [List.cons_append, insideLength, if_neg hplain, ih]
        · rfl
        · exact fun _ _ heq _ => hplain (by simp [heq])

/-- The inside of a string has a value unless it has an escape that is none. -/
theorem unescape_inside (quote : Char) (text : List Char) :
    (∃ value, unescape (text.take (insideLength quote text)) = .ok value) ∨
      ∃ c, unescape (text.take (insideLength quote text)) = .error (.unknownEscape c) := by
  -- Along the inside, which ends in front of the quote and never within an escape.
  induction text using insideLength.induct quote with
  | case1 => exact .inl ⟨[], rfl⟩
  | case2 c rest ih =>
      rw [insideLength, List.take_succ_cons, List.take_succ_cons, unescape]
      cases hmeaning : escapeMeaning? c with
      | none => exact .inr ⟨c, rfl⟩
      | some meaning =>
          refine ih.imp ?_ ?_
          · rintro ⟨value, hvalue⟩
            exact ⟨meaning :: value, by simp [hvalue, Except.map]⟩
          · rintro ⟨bad, hbad⟩
            exact ⟨bad, by simp [hbad, Except.map]⟩
  | case3 c rest hescape hstop =>
      rw [insideLength, if_pos hstop]
      · exact .inl ⟨[], rfl⟩
      · exact hescape
  | case4 c rest hescape hstop ih =>
      have hplain : c ≠ '\\' := fun hc => hstop (by simp [hc])
      rw [insideLength, if_neg hstop, List.take_succ_cons, unescape]
      · refine ih.imp ?_ ?_
        · rintro ⟨value, hvalue⟩
          exact ⟨c :: value, by rw [hvalue]; rfl⟩
        · rintro ⟨bad, hbad⟩
          exact ⟨bad, by rw [hbad]; rfl⟩
      · exact fun heq _ => hplain heq
      · exact fun _ _ heq _ => hplain heq
      · exact hescape

/-! ## Tokens of strings -/

/-- What the quotes of a string and what is between them are worth. -/
theorem literalValue_quoted {quote : Char} (hquote : quote ∈ ['"', '\'']) (inside : List Char) :
    literalValue (String.ofList (quote :: inside ++ [quote])) =
      (unescape inside).map String.ofList := by
  have hquote : quote = '"' ∨ quote = '\'' := by simpa using hquote
  rw [literalValue, String.toList_ofList, List.cons_append, unquote?,
    if_pos ⟨hquote, List.getLast?_concat⟩, List.dropLast_concat]

/-- Nothing that is tried before a string starts with a quote. -/
theorem next?_quoted {text : List Char} {len : Nat} (h : Shape.quoted.length? text = some len) :
    next? text = some ("string", len) := by
  have hapart : ∀ entry ∈ spellings.take 3, entry.2.starts.disjoint Shape.quoted.starts ∧
      entry.2.isProper ∧ entry.2 ≠ .any := by
    decide +kernel
  exact next?_of_apart (show spellings = spellings.take 3 ++ _ :: spellings.drop 4 from rfl) hapart
    rfl (by decide) h

/-- Only the tokens of strings have the kind of strings. -/
theorem shape_of_string {text : List Char} {name : String} {len : Nat}
    (h : next? text = some (name, len)) (hname : tokenOf name = tokenOf "string") :
    Shape.quoted.length? text = some len := by
  have honly : ∀ entry ∈ spellings, tokenOf entry.1 = tokenOf "string" → entry.2 = .quoted := by
    decide +kernel
  obtain ⟨before, shape, after, hsplit, -, hlen⟩ := next?_eq_some_iff.mp h
  have hmem : (name, shape) ∈ spellings := by
    rw [hsplit]
    exact List.mem_append_right _ List.mem_cons_self
  have hshape : shape = .quoted := honly _ hmem hname
  rwa [hshape] at hlen

/-- What is between the quotes of a string, and where it ends. -/
theorem quoted_cases {text : List Char} {len : Nat} (h : Shape.quoted.length? text = some len) :
    ∃ quote rest, quote ∈ ['"', '\''] ∧ text = quote :: rest ∧
      text.take len = quote :: rest.take (insideLength quote rest) ++ [quote] := by
  cases text with
  | nil => cases h
  | cons quote rest =>
      obtain ⟨⟨hquote, hlast⟩, hlen⟩ := Option.ite_none_right_eq_some.mp h
      obtain rfl : insideLength quote rest + 2 = len := Option.some.inj hlen
      refine ⟨quote, rest, hquote, rfl, ?_⟩
      rw [List.take_succ_cons, List.take_add_one, hlast]
      rfl

end Script

open Script

/-- **Strings come back.**  A text between two of the same quote, with its escapes written, is one
token, and the value of that token is the text.  A token of a string, in whatever script, has a value
unless it has an escape that is none. -/
theorem literals_round_trip :
    (∀ (text : List Char) (quote : Char) (limit : Nat), quote = '"' ∨ quote = '\'' → 16 ≤ limit →
      ∃ s journal,
        scan (String.ofList (quote :: escape text ++ [quote])) limit = (.ok s, journal) ∧
        ∃ token, s.tokens.tokens = #[token] ∧ token.kind = tokenOf "string" ∧
          token.span = ⟨0, (escape text).length + 2⟩ ∧
          token.text s.chars = String.ofList (quote :: escape text ++ [quote]) ∧
          literalValue (token.text s.chars) = .ok (String.ofList text)) ∧
      ∀ (source : String) (limit : Nat) (s : Scanned) (journal : Journal),
        scan source limit = (.ok s, journal) →
        ∀ token ∈ s.tokens.tokens, token.kind = tokenOf "string" →
          (∃ value, literalValue (token.text s.chars) = .ok value) ∨
            ∃ c, literalValue (token.text s.chars) = .error (.unknownEscape c) := by
  constructor
  · intro text quote limit hquote hlimit
    have hquote : quote ∈ ['"', '\''] := by simpa using hquote
    obtain ⟨nodes, trace, s, journal, -, hscan⟩ :=
      exists_scan hlimit (String.ofList (quote :: escape text ++ [quote]))
    obtain ⟨hchars, hsplits⟩ := scan_splits hscan
    rw [String.toList_ofList] at hchars
    have hall : s.chars.toList.drop 0 = quote :: escape text ++ [quote] := by
      rw [hchars, List.drop_zero]
    -- The inside of the literal is all of the escaped text, so the token takes everything.
    have hnext : next? (s.chars.toList.drop 0) = some ("string", (escape text).length + 2) := by
      rw [hall]
      refine next?_quoted ?_
      rw [List.cons_append, Shape.length?, insideLength_escape hquote,
        if_pos ⟨hquote, List.getElem?_concat_length⟩]
    obtain ⟨token, rest, htokens, hkind, hspan, hrest⟩ := hsplits.of_next? hnext (by decide)
    -- Nothing is left for a second token.
    have hnil : rest = [] := hrest.of_end (by simp [hchars])
    have htext : token.text s.chars = String.ofList (quote :: escape text ++ [quote]) := by
      rw [text_eq hspan hrest.le_size, hall, List.take_of_length_le (by simp)]
    refine ⟨s, journal, hscan, token, ?_, hkind, hspan, htext, ?_⟩
    · rw [← Array.toList_inj, htokens, hnil]
    · rw [htext, literalValue_quoted hquote, unescape_escape]
      rfl
  · intro source limit s journal hscan token htoken hkind
    obtain ⟨-, hsplits⟩ := scan_splits hscan
    obtain ⟨name, hnext, -, hname, hstop⟩ := hsplits.of_mem (Array.mem_toList_iff.mpr htoken)
    obtain ⟨quote, rest, hquote, -, htake⟩ :=
      quoted_cases (shape_of_string hnext (hname.symm.trans hkind))
    rw [text_eq (by rfl) hstop, htake, literalValue_quoted hquote]
    rcases unescape_inside quote rest with ⟨value, hvalue⟩ | ⟨c, hc⟩
    · exact .inl ⟨String.ofList value, by rw [hvalue]; rfl⟩
    · exact .inr ⟨c, by rw [hc]; rfl⟩

/-- A string with its own quote in it, and one with an escape that is none. -/
theorem itself_and_unknown_escape :
    (∃ s journal, scan "'it\\'s'" 16 = (.ok s, journal) ∧
      ∃ token, s.tokens.tokens = #[token] ∧ token.kind = tokenOf "string" ∧ token.span = ⟨0, 7⟩ ∧
        literalValue (token.text s.chars) = .ok "it's") ∧
      ∃ s journal, scan "'\\q'" 16 = (.ok s, journal) ∧
        ∃ token ∈ s.tokens.tokens, token.kind = tokenOf "string" ∧
          ∃ c, literalValue (token.text s.chars) = .error (.unknownEscape c) := by
  constructor
  · obtain ⟨s, journal, hscan, token, htokens, hkind, hspan, -, hvalue⟩ :=
      literals_round_trip.1 "it's".toList '\'' 16 (.inr rfl) (Nat.le_refl 16)
    exact ⟨s, journal, hscan, token, htokens, hkind, hspan, hvalue⟩
  · have hchecked : (scan "'\\q'" 16).1.map (fun s => s.tokens.tokens.toList.map fun token =>
        (token.kind, (literalValue (token.text s.chars)).isOk)) =
          .ok [(tokenOf "string", false)] := by
      decide +kernel
    rcases hscan : scan "'\\q'" 16 with ⟨cause | s, journal⟩
    · rw [hscan] at hchecked
      cases hchecked
    · rw [hscan] at hchecked
      obtain ⟨token, htokens, htoken⟩ := List.map_eq_singleton_iff.mp (Except.ok.inj hchecked)
      obtain ⟨hkind, hbad⟩ := Prod.mk.inj htoken
      have hmem : token ∈ s.tokens.tokens := Array.mem_toList_iff.mp (by simp [htokens])
      refine ⟨s, journal, rfl, token, hmem, hkind, ?_⟩
      -- The literal has no value, so there is an escape to blame.
      refine (literals_round_trip.2 _ _ s journal hscan token hmem hkind).resolve_left ?_
      rintro ⟨value, hvalue⟩
      rw [hvalue] at hbad
      cases hbad

end RuleScript
