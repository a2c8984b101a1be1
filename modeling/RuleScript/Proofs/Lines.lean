import Mathlib.Data.List.TakeWhile
import Mathlib.Data.Prod.Lex
import Mathlib.Data.Set.Card
import RuleScript.Span
import RuleScript.Text.LineIndex

/-!
# Lines and columns tell positions exactly

The line of a position is the number of terminators that end at it or before it (`IsTerminator`), and
the column is what there is to go from the start of that line.  So a position inside of a text is found
again from its line and column, and further on in the text is further on by line and then by column
(`LineIndex.place_exact`).

The index knows a terminator only by where it ends, and goes through the text looking at one character
and the one after it.  `EndsLine` says what it looks for.  It never looks back, so it can be told of the
rest of a text as well as of the whole; that no two terminators end at the same place
(`IsTerminator.eq_of_stop_eq`) is why counting ends is as good as counting terminators.
-/

namespace RuleScript

/-! ## Terminators -/

/-- A span of a text that ends a line.  A carriage return and the line feed right after it are one
terminator. -/
inductive IsTerminator (text : List Char) : Span → Prop
  | lineFeed {start : Nat} (hfeed : text[start]? = some '\n')
      (halone : ∀ before, start = before + 1 → text[before]? ≠ some '\r') :
      IsTerminator text ⟨start, 1⟩
  | carriageReturn {start : Nat} (hreturn : text[start]? = some '\r')
      (halone : text[start + 1]? ≠ some '\n') : IsTerminator text ⟨start, 1⟩
  | both {start : Nat} (hreturn : text[start]? = some '\r') (hfeed : text[start + 1]? = some '\n') :
      IsTerminator text ⟨start, 2⟩

/-- The character at a position is the last one of its line. -/
def EndsLine (text : List Char) (pos : Nat) : Prop :=
  text[pos]? = some '\n' ∨ text[pos]? = some '\r' ∧ text[pos + 1]? ≠ some '\n'

section Terminators

variable {text rest : List Char} {c : Char} {pos start : Nat} {t t' : Span}

theorem endsLine_nil : ¬ EndsLine [] pos := by simp [EndsLine]

theorem endsLine_cons_succ : EndsLine (c :: rest) (pos + 1) ↔ EndsLine rest pos := by
  simp [EndsLine]

theorem endsLine_cons_zero : EndsLine (c :: rest) 0 ↔ c = '\n' ∨ c = '\r' ∧ rest[0]? ≠ some '\n' := by
  simp [EndsLine]

theorem IsTerminator.endsLine (h : IsTerminator text t) :
    ∃ last, t.stop = last + 1 ∧ EndsLine text last := by
  cases h with
  | lineFeed hfeed => exact ⟨_, rfl, .inl hfeed⟩
  | carriageReturn hreturn halone => exact ⟨_, rfl, .inr ⟨hreturn, halone⟩⟩
  | both hreturn hfeed => exact ⟨_, rfl, .inl hfeed⟩

theorem EndsLine.exists_terminator (h : EndsLine text pos) :
    ∃ t, IsTerminator text t ∧ t.stop = pos + 1 := by
  rcases h with hfeed | ⟨hreturn, halone⟩
  · by_cases hboth : ∃ before, pos = before + 1 ∧ text[before]? = some '\r'
    · obtain ⟨before, rfl, hreturn⟩ := hboth
      exact ⟨_, .both hreturn hfeed, rfl⟩
    · exact ⟨_, .lineFeed hfeed fun before hpos hreturn => hboth ⟨before, hpos, hreturn⟩, rfl⟩
  · exact ⟨_, .carriageReturn hreturn halone, rfl⟩

/-- A terminator is known by where it ends. -/
theorem IsTerminator.eq_of_stop_eq (h : IsTerminator text t) (h' : IsTerminator text t')
    (hstop : t.stop = t'.stop) : t = t' := by
  cases h <;> cases h' <;> simp_all [Span.stop]

/-! ## Line starts -/

/-- After the first, lines start where terminators end. -/
theorem mem_laterLineStarts :
    start ∈ laterLineStarts pos text ↔ ∃ last, EndsLine text last ∧ start = pos + (last + 1) := by
  -- Two characters that end a line together count as one end, at the second of them.
  fun_induction laterLineStarts pos text with
  | case1 pos => simp [endsLine_nil]
  | case2 pos rest ih =>
      rw [List.mem_cons, ih]
      constructor
      · rintro (rfl | ⟨last, hlast, rfl⟩)
        · exact ⟨1, by simp [EndsLine], rfl⟩
        · exact ⟨last + 2, endsLine_cons_succ.mpr (endsLine_cons_succ.mpr hlast), by omega⟩
      · rintro ⟨_ | _ | last, hlast, rfl⟩
        · simp [endsLine_cons_zero] at hlast
        · exact .inl rfl
        · exact .inr ⟨last, endsLine_cons_succ.mp (endsLine_cons_succ.mp hlast), by omega⟩
  | case3 pos c rest hpair hends ih =>
      rw [List.mem_cons, ih]
      have hlone : EndsLine (c :: rest) 0 := by
        refine endsLine_cons_zero.mpr (hends.imp_right fun hreturn => ⟨hreturn, fun hfeed => ?_⟩)
        obtain ⟨more, rfl⟩ : ∃ more, rest = '\n' :: more := by
          cases rest <;> simp_all
        exact hpair more hreturn rfl
      constructor
      · rintro (rfl | ⟨last, hlast, rfl⟩)
        · exact ⟨0, hlone, rfl⟩
        · exact ⟨last + 1, endsLine_cons_succ.mpr hlast, by omega⟩
      · rintro ⟨_ | last, hlast, rfl⟩
        · exact .inl rfl
        · exact .inr ⟨last, endsLine_cons_succ.mp hlast, by omega⟩
  | case4 pos c rest hpair hends ih =>
      rw [ih]
      constructor
      · rintro ⟨last, hlast, rfl⟩
        exact ⟨last + 1, endsLine_cons_succ.mpr hlast, by omega⟩
      · rintro ⟨_ | last, hlast, rfl⟩
        · exact absurd ((endsLine_cons_zero.mp hlast).imp_right And.left) hends
        · exact ⟨last, endsLine_cons_succ.mp hlast, by omega⟩

theorem laterLineStarts_pairwise (pos : Nat) (text : List Char) :
    (laterLineStarts pos text).Pairwise (· < ·) := by
  have hlater {from' : Nat} {text : List Char} : ∀ start ∈ laterLineStarts from' text, from' < start := by
    intro start hstart
    obtain ⟨last, -, rfl⟩ := mem_laterLineStarts.mp hstart
    omega
  fun_induction laterLineStarts pos text with
  | case1 => exact .nil
  | case2 pos rest ih => exact .cons hlater ih
  | case3 pos c rest hpair hends ih => exact .cons hlater ih
  | case4 pos c rest hpair hends ih => exact ih

/-- As many lines start up to a position, after the first, as terminators end there or before. -/
theorem countP_laterLineStarts (text : List Char) (pos : Nat) :
    (laterLineStarts 0 text).countP (· ≤ pos) =
      {t | IsTerminator text t ∧ t.stop ≤ pos}.ncard := by
  -- Line starts are counted instead of terminators: each is where one terminator stops.
  have hstops : Span.stop '' {t | IsTerminator text t ∧ t.stop ≤ pos} =
      ((laterLineStarts 0 text).filter (· ≤ pos)).toFinset := by
    ext stop
    simp only [Set.mem_image, Set.mem_ofPred_eq, List.coe_toFinset, List.mem_filter,
      decide_eq_true_eq, mem_laterLineStarts, Nat.zero_add]
    constructor
    · rintro ⟨t, ⟨hterm, hle⟩, rfl⟩
      obtain ⟨last, hstop, hlast⟩ := hterm.endsLine
      exact ⟨⟨last, hlast, hstop⟩, hle⟩
    · rintro ⟨⟨last, hlast, rfl⟩, hle⟩
      obtain ⟨t, hterm, hstop⟩ := hlast.exists_terminator
      exact ⟨t, ⟨hterm, hstop ▸ hle⟩, hstop⟩
  have hinj : Set.InjOn Span.stop {t | IsTerminator text t ∧ t.stop ≤ pos} :=
    fun _ h _ h' hstop => h.1.eq_of_stop_eq h'.1 hstop
  have hnodup : ((laterLineStarts 0 text).filter (· ≤ pos)).Nodup :=
    ((laterLineStarts_pairwise 0 text).imp Nat.ne_of_lt).filter _
  rw [← hinj.ncard_image, hstops, Set.ncard_coe_finset, List.toFinset_card_of_nodup hnodup,
    List.countP_eq_length_filter]

end Terminators

/-! ## Places -/

/-- Places are compared by line and then by column. -/
def Place.order (place : Place) : ℕ ×ₗ ℕ := toLex (place.line, place.column)

/-- Of numbers in increasing order, those up to a bound come first. -/
theorem length_takeWhile_le_eq_countP {numbers : List Nat} (h : numbers.Pairwise (· < ·)) (bound : Nat) :
    (numbers.takeWhile (· ≤ bound)).length = numbers.countP (· ≤ bound) := by
  induction h with
  | nil => rfl
  | @cons first rest hfirst _ ih =>
      by_cases hle : first ≤ bound
      · simp [hle, ih]
      · have hnone : rest.countP (· ≤ bound) = 0 :=
          List.countP_eq_zero.mpr fun other hother => by
            have hlt := hfirst other hother
            simp only [decide_eq_true_eq]
            omega
        simp [hle, hnone]

namespace LineIndex

variable (text : List Char)

theorem line_place (pos : Nat) :
    ((ofChars text).place pos).line = (laterLineStarts 0 text).countP (· ≤ min pos text.length) := by
  rw [← length_takeWhile_le_eq_countP (laterLineStarts_pairwise 0 text)]
  simp [place, ofChars]

/-- The line of a position has a start, from which the column is counted. -/
theorem exists_lineStart (pos : Nat) :
    ∃ start, (ofChars text).lineStart? ((ofChars text).place pos).line = some start ∧
      start + ((ofChars text).place pos).column = min pos text.length := by
  let upTo := (ofChars text).starts.takeWhile (· ≤ min pos text.length)
  have hnil : upTo ≠ [] := by simp [upTo, ofChars]
  have hlast : upTo[upTo.length - 1]? = some (upTo.getLast hnil) := by
    rw [← List.getLast?_eq_getElem?, List.getLast?_eq_getLast_of_ne_nil hnil]
  have hle : upTo.getLast hnil ≤ min pos text.length :=
    of_decide_eq_true (List.mem_takeWhile_imp (p := fun start => decide (start ≤ min pos text.length))
      (List.getLast_mem hnil))
  have hcolumn : ((ofChars text).place pos).column = min pos text.length - upTo.getLast hnil := by
    rw [← Option.getD_some (a := upTo.getLast hnil) (b := 0), ← List.getLast?_eq_getLast_of_ne_nil hnil,
      ← List.getLastD_eq_getLast?]
    rfl
  refine ⟨upTo.getLast hnil, ?_, by omega⟩
  -- the lines that start up to the position are the first ones of all
  obtain ⟨later, hstarts⟩ : upTo <+: (ofChars text).starts := List.takeWhile_prefix _
  have hlt : upTo.length - 1 < upTo.length := Nat.pred_lt (mt List.length_eq_zero_iff.mp hnil)
  show (ofChars text).starts[upTo.length - 1]? = some (upTo.getLast hnil)
  rw [← hstarts, List.getElem?_append_left hlt, hlast]

/-- Further on in a text is further on by line and column. -/
theorem place_strictMonoOn :
    StrictMonoOn (fun pos => ((ofChars text).place pos).order) (Set.Iic text.length) := by
  intro first hfirst second hsecond hlt
  have hline : ((ofChars text).place first).line ≤ ((ofChars text).place second).line := by
    rw [line_place, line_place]
    refine List.countP_mono_left fun start _ hstart => ?_
    simp only [decide_eq_true_eq] at hstart ⊢
    omega
  obtain ⟨start, hstart, hcolumn⟩ := exists_lineStart text first
  obtain ⟨start', hstart', hcolumn'⟩ := exists_lineStart text second
  rw [Nat.min_eq_left hfirst] at hcolumn
  rw [Nat.min_eq_left hsecond] at hcolumn'
  refine Prod.Lex.toLex_lt_toLex.mpr (hline.lt_or_eq.imp_right fun heq => ⟨heq, ?_⟩)
  -- on one line the columns are counted from the same start
  dsimp only at heq ⊢
  rw [heq, hstart'] at hstart
  cases hstart
  omega

end LineIndex

/-- **Lines and columns are exact coordinates.**  The index knows the length of a text.  The line of a
position is the number of terminators that end at it or before it, and the position is as far from the
start of that line as the column says; a position past the end is the end.  Inside of the text, places
are in the order of positions, and no two positions have the same place. -/
theorem LineIndex.place_exact (text : String) :
    (ofText text).length = text.length ∧
      (∀ pos,
        ((ofText text).place pos).line =
            {t | IsTerminator text.toList t ∧ t.stop ≤ min pos text.length}.ncard ∧
          ∃ start, (ofText text).lineStart? ((ofText text).place pos).line = some start ∧
            start + ((ofText text).place pos).column = min pos text.length) ∧
      StrictMonoOn (fun pos => ((ofText text).place pos).order) (Set.Iic text.length) ∧
      Set.InjOn (ofText text).place (Set.Iic text.length) := by
  have hlength : text.length = text.toList.length := String.length_toList.symm
  have hmono := place_strictMonoOn text.toList
  rw [hlength]
  refine ⟨rfl, fun pos => ⟨?_, exists_lineStart text.toList pos⟩, hmono, ?_⟩
  · rw [ofText, line_place, countP_laterLineStarts]
  · exact fun first hfirst second hsecond heq =>
      hmono.injOn hfirst hsecond (congrArg Place.order heq)

/-- A line feed, both together and a carriage return: the position between the two characters of a
terminator still belongs to the line that they end. -/
example : (List.range 8).map (LineIndex.ofText "a\n\r\nb\rc").place =
    [⟨0, 0⟩, ⟨0, 1⟩, ⟨1, 0⟩, ⟨1, 1⟩, ⟨2, 0⟩, ⟨2, 1⟩, ⟨3, 0⟩, ⟨3, 1⟩] := by decide +kernel

end RuleScript
