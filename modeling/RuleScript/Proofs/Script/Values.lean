import RuleScript.Proofs.Script.Declaring
import RuleScript.Proofs.Script.Peg

/-!
# Values in expressions

The compiler takes the literals, numbers and keywords of a script for what they say: where it comes
to a value, `Scanned.peg` reads the same.  A set over characters becomes a range or a list of
characters, sorted and without repetitions, and both have the characters that belong to the items
(`charTerminals_set_eq_ok`).
-/

namespace RuleScript

/-! ## Sets of characters -/

namespace Element

variable {α : Type} [Element α] {a : α}

theorem mem_eraseReps_loop {b : α} (list kept : List α) :
    a ∈ List.eraseRepsBy.loop (· == ·) b list kept ↔ a = b ∨ a ∈ list ∨ a ∈ kept := by
  induction list generalizing b kept with
  | nil => simp [List.eraseRepsBy.loop, or_comm]
  | cons c list ih =>
      rw [List.eraseRepsBy.loop]
      split
      · rename_i heq
        rw [ih, List.mem_cons, ← eq_of_beq heq]
        tauto
      · rw [ih, List.mem_cons, List.mem_cons]
        tauto

theorem mem_sortedSet {elements : List α} : a ∈ sortedSet elements ↔ a ∈ elements := by
  have hsorted : a ∈ (elements.mergeSort fun b c => code b ≤ code c) ↔ a ∈ elements :=
    List.mem_mergeSort
  rw [← hsorted, sortedSet, List.eraseReps]
  cases elements.mergeSort fun b c => code b ≤ code c with
  | nil => rfl
  | cons b rest => simp [List.eraseRepsBy, mem_eraseReps_loop]

end Element

theorem charWithCode?_eq_some_iff {code : Nat} {c : Char} :
    charWithCode? code = some c ↔ c.toNat = code := by
  rw [charWithCode?]
  constructor
  · intro h
    split at h
    · rename_i hvalid
      cases h
      rw [Char.ofNat, dif_pos hvalid]
      rfl
    · cases h
  · rintro rfl
    rw [if_pos (show c.toNat.isValidChar from c.valid), Char.ofNat_toNat]

theorem mem_charsBetween {lo hi c : Char} :
    c ∈ charsBetween lo hi ↔ lo.toNat ≤ c.toNat ∧ c.toNat ≤ hi.toNat := by
  simp only [charsBetween, List.mem_filterMap, charWithCode?_eq_some_iff, exists_eq_right',
    List.mem_range'_1]
  omega

theorem rangeBounds_eq_ok {lo hi : String} {first last : Char}
    (h : rangeBounds lo hi = .ok (first, last)) : lo.toList = [first] ∧ hi.toList = [last] := by
  unfold rangeBounds at h
  split at h
  · rename_i hlo hhi
    split at h
    · cases h
      exact ⟨hlo, hhi⟩
    · cases h
  · cases h

/-- What an item contributes are the characters that belong to it. -/
theorem SetItem.mem_chars {item : SetItem} {chars : List Char} (h : item.chars = .ok chars)
    (c : Char) : c ∈ chars ↔ item.admits c := by
  cases item with
  | text text =>
      cases h
      exact List.contains_iff_mem.symm
  | range lo hi =>
      obtain ⟨⟨first, last⟩, hbounds, h⟩ := Script.ok_of_bind h
      obtain ⟨hlo, hhi⟩ := rangeBounds_eq_ok hbounds
      dsimp only at h
      split at h
      · cases h
      · cases h
        rw [mem_charsBetween, admits, hlo, hhi]
        simp

theorem SetItem.mem_flatten {items : List SetItem} {chars : List (List Char)}
    (h : items.mapM (·.chars) = .ok chars) (c : Char) :
    c ∈ chars.flatten ↔ items.any (·.admits c) := by
  induction items generalizing chars with
  | nil =>
      cases h
      simp
  | cons item items ih =>
      rw [List.mapM_cons] at h
      obtain ⟨first, hfirst, h⟩ := Script.ok_of_bind h
      obtain ⟨rest, hrest, h⟩ := Script.ok_of_bind h
      cases h
      rw [List.flatten_cons, List.mem_append, mem_chars hfirst, ih hrest, List.any_cons,
        Bool.or_eq_true]

/-- A set stands for a range if it is one, and for the characters of its items otherwise. -/
theorem charTerminals_set_eq_ok {items : List SetItem} {kind : Kind Char}
    (h : charTerminals.set items = .ok kind) :
    (∃ lo hi first last, items = [.range lo hi] ∧ lo.toList = [first] ∧ hi.toList = [last] ∧
      kind = .range first last) ∨
    ∃ values, kind = .set values ∧ ∀ c, c ∈ values ↔ items.any (·.admits c) := by
  simp only [charTerminals] at h
  split at h
  · rename_i lo hi
    obtain ⟨⟨first, last⟩, hbounds, h⟩ := Script.ok_of_bind h
    obtain ⟨hlo, hhi⟩ := rangeBounds_eq_ok hbounds
    cases h
    exact .inl ⟨lo, hi, first, last, rfl, hlo, hhi, rfl⟩
  · obtain ⟨chars, hchars, h⟩ := Script.ok_of_bind h
    cases h
    exact .inr ⟨_, rfl, fun c => Element.mem_sortedSet.trans (SetItem.mem_flatten hchars c)⟩

namespace Script

/-! ## Literals, numbers and keywords -/

namespace Scanned

variable {s : Scanned} {rule : String}

theorem text?_of_textOf {span : Span} {text : String}
    (h : textOf rule (s.lexeme span) = .ok text) : s.text? span = some text := by
  rw [textOf] at h
  rw [text?]
  cases hvalue : literalValue (s.lexeme span).text with
  | ok value =>
      rw [hvalue] at h
      exact congrArg some (Except.ok.inj h)
  | error error =>
      rw [hvalue] at h
      cases h

theorem number_of_countOf {span : Span} {count : Nat}
    (h : countOf rule (s.lexeme span) = .ok count) : s.number span = count := by
  simp only [countOf] at h
  split at h
  · exact Except.ok.inj h
  · cases h

theorem setItem?_of_itemOf {part : Part} {form : ItemForm} {value : SetItem}
    (hform : s.item part = .ok form) (h : itemOf rule form = .ok value) :
    s.setItem? part = some value := by
  unfold Scanned.item at hform
  split at hform
  · cases hform
    rw [itemOf, map_eq_pure_bind] at h
    obtain ⟨text, htext, heq⟩ := ok_of_bind h
    cases heq
    rw [setItem?, text?_of_textOf htext]
    rfl
  · cases hform
    obtain ⟨lo, hlo, h⟩ := ok_of_bind h
    obtain ⟨hi, hhi, heq⟩ := ok_of_bind h
    cases heq
    rw [setItem?, text?_of_textOf hlo, text?_of_textOf hhi]
    rfl
  · cases hform

theorem setItems_of_itemsOf {parts : List Part} {forms : List ItemForm} {items : List SetItem}
    (hforms : parts.mapM s.item = .ok forms) (h : itemsOf rule forms = .ok items) :
    parts.mapM s.setItem? = some items := by
  induction parts generalizing forms items with
  | nil =>
      cases hforms
      cases h
      rfl
  | cons part parts ih =>
      rw [List.mapM_cons] at hforms
      obtain ⟨form, hform, hforms⟩ := ok_of_bind hforms
      obtain ⟨rest, hrest, heq⟩ := ok_of_bind hforms
      cases heq
      rw [itemsOf, List.mapM_cons] at h
      obtain ⟨item, hitem, h⟩ := ok_of_bind h
      obtain ⟨others, hothers, heq⟩ := ok_of_bind h
      cases heq
      rw [List.mapM_cons, setItem?_of_itemOf hform hitem, ih hrest hothers]
      rfl

/-- Bounds that the compiler takes are those that are written, and they are in order. -/
theorem bounds?_of_boundsOf {part : Part} {form : RepetitionForm} {min bound : Nat}
    (hform : s.repetition part = .ok form) (h : boundsOf rule form = .ok (min, bound)) :
    ∃ max, s.bounds? part = some (min, max) ∧ bound = max.getD 0 ∧
      ∀ most ∈ max, 0 < most ∧ min ≤ most := by
  unfold Scanned.repetition at hform
  split at hform
  · cases hform
    cases h
    exact ⟨none, rfl, rfl, by simp⟩
  · cases hform
    cases h
    exact ⟨none, rfl, rfl, by simp⟩
  · cases hform
    cases h
    exact ⟨some 1, rfl, rfl, by simp⟩
  · -- The bounds are spelled out: exactly, at least, or from one number to another.
    unfold Scanned.bounds at hform
    split at hform
    · cases hform
      obtain ⟨times, htimes, h⟩ := ok_of_bind h
      split at h
      · cases h
      · rename_i hpos
        cases h
        rw [bounds?, number_of_countOf htimes]
        refine ⟨some min, rfl, rfl, ?_⟩
        rintro _ ⟨⟩
        exact ⟨Nat.pos_of_ne_zero hpos, Nat.le_refl _⟩
    · cases hform
      obtain ⟨least, hleast, h⟩ := ok_of_bind h
      cases h
      rw [bounds?, number_of_countOf hleast]
      exact ⟨none, rfl, rfl, by simp⟩
    · cases hform
      obtain ⟨least, hleast, h⟩ := ok_of_bind h
      obtain ⟨most, hmost, h⟩ := ok_of_bind h
      split_ifs at h with hpos hle
      · cases h
      · cases h
      · cases h
        rw [bounds?, number_of_countOf hleast, number_of_countOf hmost]
        refine ⟨some bound, rfl, rfl, ?_⟩
        rintro _ ⟨⟩
        exact ⟨Nat.pos_of_ne_zero hpos, Nat.le_of_not_lt hle⟩
    · cases hform
  · cases hform

theorem ending?_of_skipForm {keyword : NodeKind} {form : SkipForm}
    (h : skipForm keyword = .ok form) : ending? keyword = some form := by
  unfold skipForm at h
  split at h <;> cases h <;> rfl

theorem severity_ne_fatal {keyword : NodeKind} {level : Severity} (h : severity keyword = .ok level)
    (hkeyword : keyword ≠ .kwFatal) : level ≠ .fatal := by
  unfold severity at h
  split at h <;> cases h <;> first | exact Severity.noConfusion | exact absurd rfl hkeyword

end Scanned

end Script

end RuleScript
