import Mathlib.Order.Bounds.Defs
import Mathlib.Order.Lattice.Nat
import RuleScript.Text.Similarity

/-!
# The distance of two texts counts edits

`editDistance` fills a table row by row, from the fronts of the texts.  The distance it is to find is
the least number of edits that turn one text into the other (`Edit`, `EditsTo`), and the two are tied
together by a recursion on both texts (`edits`).

* So many edits as the recursion says are enough (`editsTo_edits`), and a single edit changes what it
  says by at most one, whatever the other text is (`Edit.edits_le`), so no fewer edits will do.
* A full row of the table holds the numbers of edits between one front of the first text and all fronts
  of the second (`HoldsEdits`).  While a row is written over, that is so only as far as it is written;
  further on it holds what is left from two rounds before, and none of it is read
  (`holdsEdits_overwrite`).  The recursion takes first characters off the texts while fronts grow at the
  end, so fronts are spelled backwards.  Edits do not care which way a text is read.

That the distance is a metric then follows from what edits are (`editDistance_isLeast`).
-/

namespace RuleScript

/-! ## Edits -/

/-- The second text comes of the first one by inserting, deleting or substituting one character. -/
inductive Edit : List Char → List Char → Prop
  | insertion (before after : List Char) (c : Char) : Edit (before ++ after) (before ++ c :: after)
  | deletion (before after : List Char) (c : Char) : Edit (before ++ c :: after) (before ++ after)
  | substitution (before after : List Char) (c d : Char) :
      Edit (before ++ c :: after) (before ++ d :: after)

/-- So many edits, one after the other, turn the first text into the second. -/
inductive EditsTo : Nat → List Char → List Char → Prop
  | none (a : List Char) : EditsTo 0 a a
  | more {n : Nat} {a b c : List Char} (hedit : Edit a b) (hrest : EditsTo n b c) :
      EditsTo (n + 1) a c

section Edits

variable {a b c : List Char} {m n : Nat}

theorem Edit.symm (h : Edit a b) : Edit b a := by
  cases h with
  | insertion before after c => exact .deletion before after c
  | deletion before after c => exact .insertion before after c
  | substitution before after c d => exact .substitution before after d c

theorem Edit.cons (d : Char) (h : Edit a b) : Edit (d :: a) (d :: b) := by
  cases h with
  | insertion before after c => exact .insertion (d :: before) after c
  | deletion before after c => exact .deletion (d :: before) after c
  | substitution before after c e => exact .substitution (d :: before) after c e

theorem Edit.reverse (h : Edit a b) : Edit a.reverse b.reverse := by
  cases h with
  | insertion before after c => simpa using Edit.insertion after.reverse before.reverse c
  | deletion before after c => simpa using Edit.deletion after.reverse before.reverse c
  | substitution before after c d => simpa using Edit.substitution after.reverse before.reverse c d

namespace EditsTo

theorem trans (h : EditsTo m a b) (h' : EditsTo n b c) : EditsTo (m + n) a c := by
  induction h with
  | none a => rwa [Nat.zero_add]
  | more hedit _ ih =>
      rw [Nat.add_right_comm]
      exact .more hedit (ih h')

theorem symm (h : EditsTo n a b) : EditsTo n b a := by
  induction h with
  | none a => exact .none a
  | more hedit _ ih => exact ih.trans (.more hedit.symm (.none _))

theorem cons (d : Char) (h : EditsTo n a b) : EditsTo n (d :: a) (d :: b) := by
  induction h with
  | none a => exact .none _
  | more hedit _ ih => exact .more (hedit.cons d) ih

theorem reverse (h : EditsTo n a b) : EditsTo n a.reverse b.reverse := by
  induction h with
  | none a => exact .none _
  | more hedit _ ih => exact .more hedit.reverse ih

theorem insertAll (a : List Char) : EditsTo a.length [] a := by
  induction a with
  | nil => exact .none []
  | cons c a ih => exact .more (.insertion [] [] c) (ih.cons c)

end EditsTo

end Edits

/-! ## The least number of edits -/

/-- How many edits it takes, by comparing first characters: that of one of the texts is left over, or
the two stand in the same place. -/
def edits : List Char → List Char → Nat
  | [], b => b.length
  | a, [] => a.length
  | c :: a, d :: b =>
    min (min (edits a (d :: b) + 1) (edits (c :: a) b + 1)) (edits a b + if c = d then 0 else 1)
termination_by a b => a.length + b.length

section Least

variable {a b : List Char} {n : Nat}

theorem edits_nil_left (b : List Char) : edits [] b = b.length := by rw [edits]

theorem edits_nil_right (a : List Char) : edits a [] = a.length := by cases a <;> simp [edits]

theorem edits_cons_cons (c d : Char) (a b : List Char) :
    edits (c :: a) (d :: b) =
      min (min (edits a (d :: b) + 1) (edits (c :: a) b + 1)) (edits a b + if c = d then 0 else 1) := by
  rw [edits]

/-- So many edits are enough. -/
theorem editsTo_edits (a b : List Char) : EditsTo (edits a b) a b := by
  fun_induction edits a b with
  | case1 b => exact .insertAll b
  | case2 a => exact (EditsTo.insertAll a).symm
  | case3 c a d b hleft hright hboth =>
      have hdelete : EditsTo (edits a (d :: b) + 1) (c :: a) (d :: b) := .more (.deletion [] a c) hleft
      have hinsert : EditsTo (edits (c :: a) b + 1) (c :: a) (d :: b) :=
        hright.trans (.more (.insertion [] b d) (.none _))
      have hsubstitute : EditsTo (edits a b + if c = d then 0 else 1) (c :: a) (d :: b) := by
        split
        · rename_i heq
          rw [heq]
          exact hboth.cons d
        · exact .trans (hboth.cons c) (.more (.substitution [] b c d) (.none _))
      exact min_rec' (EditsTo · (c :: a) (d :: b))
        (min_rec' (EditsTo · (c :: a) (d :: b)) hdelete hinsert) hsubstitute

theorem edits_self (a : List Char) : edits a a = 0 := by
  induction a with
  | nil => exact edits_nil_left []
  | cons c a ih => simp [edits_cons_cons, ih]

theorem cost_le_one (c d : Char) : (if c = d then 0 else 1) ≤ 1 := by split <;> decide

theorem edits_le_max (a b : List Char) : edits a b ≤ max a.length b.length := by
  fun_induction edits a b with
  | case1 b => exact Nat.le_max_right _ _
  | case2 a => exact Nat.le_max_left _ _
  | case3 c a d b hleft hright hboth =>
      have hcost := cost_le_one c d
      simp only [List.length_cons]
      omega

/-! ### One edit -/

theorem edits_cons_right_le (a b : List Char) (d : Char) : edits a (d :: b) ≤ edits a b + 1 := by
  cases a with
  | nil => simp [edits_nil_left]
  | cons c a =>
      rw [edits_cons_cons]
      omega

/-- An insertion in front. -/
theorem edits_le_cons_left (a b : List Char) (c : Char) : edits a b ≤ edits (c :: a) b + 1 := by
  induction b with
  | nil =>
      simp only [edits_nil_right, List.length_cons]
      omega
  | cons d b ih =>
      have hinsert := edits_cons_right_le a b d
      rw [edits_cons_cons]
      omega

/-- A deletion in front. -/
theorem edits_cons_left_le (a b : List Char) (c : Char) : edits (c :: a) b ≤ edits a b + 1 := by
  cases b with
  | nil => simp [edits_nil_right]
  | cons d b =>
      rw [edits_cons_cons]
      omega

/-- A substitution in front. -/
theorem edits_cons_le_cons (a b : List Char) (c d : Char) :
    edits (c :: a) b ≤ edits (d :: a) b + 1 := by
  induction b with
  | nil => simp [edits_nil_right]
  | cons e b ih =>
      have hcost := cost_le_one c e
      rw [edits_cons_cons c, edits_cons_cons d]
      omega

/-- What makes a difference of at most one to every text does so further on in a text as well. -/
theorem edits_append_le (before : List Char) (h : ∀ x, edits a x ≤ edits b x + 1) (x : List Char) :
    edits (before ++ a) x ≤ edits (before ++ b) x + 1 := by
  induction before generalizing x with
  | nil => exact h x
  | cons c before ih =>
      rw [List.cons_append, List.cons_append]
      -- The first character of `x` may be the one left over, so `x` gets shorter as well.
      induction x with
      | nil =>
          have hlength := ih []
          simp only [edits_nil_right, List.length_cons] at hlength ⊢
          omega
      | cons d x ihx =>
          have hleft := ih (d :: x)
          have hboth := ih x
          rw [edits_cons_cons, edits_cons_cons]
          omega

theorem Edit.edits_le (h : Edit a b) (x : List Char) : edits a x ≤ edits b x + 1 := by
  cases h with
  | insertion before after c => exact edits_append_le before (edits_le_cons_left after · c) x
  | deletion before after c => exact edits_append_le before (edits_cons_left_le after · c) x
  | substitution before after c d => exact edits_append_le before (edits_cons_le_cons after · c d) x

/-- No fewer edits are enough. -/
theorem EditsTo.edits_le (h : EditsTo n a b) : edits a b ≤ n := by
  induction h with
  | none a => exact Nat.le_of_eq (edits_self a)
  | @more n a b c hedit _ ih =>
      calc edits a c ≤ edits b c + 1 := hedit.edits_le c
        _ ≤ n + 1 := Nat.succ_le_succ ih

end Least

/-! ## The rows -/

section Rows

variable {b : List Char} {front : List Char} {c : Char} {full row : Array Nat}

theorem getD_setIfInBounds_self {j : Nat} (h : j < row.size) (entry : Nat) :
    (row.setIfInBounds j entry).getD j 0 = entry := by
  rw [Array.getD_eq_getD_getElem?, Array.getElem?_setIfInBounds_self_of_lt h]
  rfl

theorem getD_setIfInBounds_ne {i j : Nat} (h : i ≠ j) (entry : Nat) :
    (row.setIfInBounds i entry).getD j 0 = row.getD j 0 := by
  rw [Array.getD_eq_getD_getElem?, Array.getD_eq_getD_getElem?, Array.getElem?_setIfInBounds_ne h]

/-- Up to an index a row holds the numbers of edits between a front of the first text and the fronts of
the second.  The first of them is spelled backwards, and nothing is said of the entries further on: they
may be left from any row before. -/
structure HoldsEdits (front b : List Char) (filled : Nat) (row : Array Nat) : Prop where
  size : row.size = b.length + 1
  entry : ∀ k ≤ filled, row.getD k 0 = edits front (b.take k).reverse

/-- The first entry is right whatever the row held. -/
theorem holdsEdits_first (hsize : row.size = b.length + 1) :
    HoldsEdits front b 0 (row.setIfInBounds 0 front.length) where
  size := by rw [Array.size_setIfInBounds, hsize]
  entry k hk := by
    obtain rfl := Nat.le_zero.mp hk
    rw [getD_setIfInBounds_self (by omega), List.take_zero, List.reverse_nil, edits_nil_right]

/-- One entry more is right: those it is computed from are the two beside it that are written and two of
the full row. -/
theorem HoldsEdits.step {seen rest : List Char} {d : Char} (hb : b = seen ++ d :: rest)
    (hfull : HoldsEdits front b b.length full) (hrow : HoldsEdits (c :: front) b seen.length row) :
    HoldsEdits (c :: front) b (seen.length + 1) (row.setIfInBounds (seen.length + 1)
      (min (min (full.getD (seen.length + 1) 0 + 1) (row.getD seen.length 0 + 1))
        (full.getD seen.length 0 + if c = d then 0 else 1))) where
  size := by rw [Array.size_setIfInBounds, hrow.size]
  entry k hk := by
    have hlength : b.length = seen.length + 1 + rest.length := by
      simp only [hb, List.length_append, List.length_cons]
      omega
    have htake : b.take seen.length = seen := by rw [hb, List.take_left]
    have hnext : (b.take (seen.length + 1)).reverse = d :: seen.reverse := by
      rw [hb, List.take_length_add_append]
      simp
    -- The entries before are not touched by the write; the new one is computed from three that hold.
    rcases Nat.lt_or_eq_of_le hk with hlt | rfl
    · rw [getD_setIfInBounds_ne (by omega)]
      exact hrow.entry k (Nat.le_of_lt_succ hlt)
    · have hsize : seen.length + 1 < row.size := by
        rw [hrow.size]
        omega
      rw [getD_setIfInBounds_self hsize, hfull.entry _ (by omega), hfull.entry _ (by omega),
        hrow.entry _ (Nat.le_refl _), hnext, htake, edits_cons_cons]

/-- **Stale entries are never read.**  Whatever is left in a row further on, writing over it from the
front fills it with what belongs there. -/
theorem holdsEdits_overwrite {seen rest : List Char} (hb : b = seen ++ rest)
    (hfull : HoldsEdits front b b.length full) (hrow : HoldsEdits (c :: front) b seen.length row) :
    HoldsEdits (c :: front) b b.length (overwrite c full rest seen.length row) := by
  induction rest generalizing seen row with
  | nil =>
      have hall : b.length = seen.length := by rw [hb, List.append_nil]
      rw [hall]
      exact hrow
  | cons d rest ih =>
      have hstep := hfull.step hb hrow
      have hsplit : b = (seen ++ [d]) ++ rest := by rw [hb, List.append_assoc, List.singleton_append]
      have hseen : (seen ++ [d]).length = seen.length + 1 := by simp
      rw [← hseen] at hstep
      have hrest := ih hsplit hstep
      rw [hseen] at hrest
      exact hrest

/-- The rows change places, and the one that was full is written over next. -/
theorem holdsEdits_fillRows (a : List Char) {rows : Rows}
    (hfull : HoldsEdits front b b.length rows.full) (hspare : rows.spare.size = b.length + 1) :
    HoldsEdits (a.reverse ++ front) b b.length (fillRows b a front.length rows).full := by
  induction a generalizing front rows with
  | nil => exact hfull
  | cons c a ih =>
      have hfirst : HoldsEdits (c :: front) b 0 (rows.spare.setIfInBounds 0 (c :: front).length) :=
        holdsEdits_first hspare
      have hnext := holdsEdits_overwrite (List.nil_append b).symm hfull hfirst
      rw [List.reverse_cons, List.append_assoc, List.singleton_append]
      exact ih hnext hfull.size

/-- The row of no characters counts insertions. -/
theorem holdsEdits_range (b : List Char) : HoldsEdits [] b b.length (Array.range (b.length + 1)) where
  size := Array.size_range
  entry k hk := by
    have hlt : k < b.length + 1 := Nat.lt_succ_of_le hk
    rw [Array.getD_eq_getD_getElem?, Array.getElem?_range, if_pos hlt, edits_nil_left,
      List.length_reverse, List.length_take_of_le hk]
    rfl

end Rows

/-- The last entry of the last row is right for the whole texts, both read backwards. -/
theorem editDistance_eq_edits (a b : List Char) : editDistance a b = edits a.reverse b.reverse := by
  let rows : Rows := ⟨Array.range (b.length + 1), Array.replicate (b.length + 1) 0⟩
  have hrows : HoldsEdits (a.reverse ++ []) b b.length (fillRows b a 0 rows).full :=
    holdsEdits_fillRows a (holdsEdits_range b) Array.size_replicate
  have hlast := hrows.entry b.length (Nat.le_refl _)
  rw [List.append_nil, List.take_length] at hlast
  exact hlast

/-! ## The distance -/

section Distance

variable {a b : List Char} {n : Nat}

theorem editsTo_editDistance (a b : List Char) : EditsTo (editDistance a b) a b := by
  have hbackwards := (editsTo_edits a.reverse b.reverse).reverse
  rwa [List.reverse_reverse, List.reverse_reverse, ← editDistance_eq_edits] at hbackwards

theorem EditsTo.editDistance_le (h : EditsTo n a b) : editDistance a b ≤ n := by
  rw [editDistance_eq_edits]
  exact h.reverse.edits_le

end Distance

/-- **The distance is the least number of edits.**  So it makes the texts a metric space: it is
symmetric, zero just between a text and itself, and no detour is shorter.  It is at most the length of
the longer text. -/
theorem editDistance_isLeast (a b c : List Char) :
    IsLeast {n | EditsTo n a b} (editDistance a b) ∧
      editDistance a b = editDistance b a ∧
      (editDistance a b = 0 ↔ a = b) ∧
      editDistance a c ≤ editDistance a b + editDistance b c ∧
      editDistance a b ≤ max a.length b.length := by
  have hle (a b : List Char) : editDistance a b ≤ editDistance b a :=
    (editsTo_editDistance b a).symm.editDistance_le
  refine ⟨⟨editsTo_editDistance a b, fun n hn => EditsTo.editDistance_le hn⟩,
    Nat.le_antisymm (hle a b) (hle b a), ⟨fun hzero => ?_, ?_⟩, ?_, ?_⟩
  · have hnone := editsTo_editDistance a b
    rw [hzero] at hnone
    cases hnone
    rfl
  · rintro rfl
    exact Nat.le_zero.mp (EditsTo.none a).editDistance_le
  · exact ((editsTo_editDistance a b).trans (editsTo_editDistance b c)).editDistance_le
  · rw [editDistance_eq_edits]
    simpa using edits_le_max a.reverse b.reverse

example : editDistance "kitten".toList "sitting".toList = 3 := by decide +kernel

end RuleScript
