import Mathlib.Data.List.Forall2
import RuleScript.Proofs.Script.Scanning
import RuleScript.Proofs.Script.Spelling

/-!
# What the rules of the tokenizer read

A rule of the tokenizer only looks ahead, so what it comes to is a function of the text ahead
(`Graph.Reads`).  The function of a rule is put together from those of the rules inside, one way for
each kind of rule.
-/

namespace RuleScript

open Script

/-! ## Reading ahead -/

namespace Script

/-- One character of a class. -/
def CharClass.read (C : CharClass) (text : List Char) : Option Nat :=
  if text.head?.any C.has then some 1 else none

@[simp] theorem CharClass.read_nil (C : CharClass) : C.read [] = none := rfl

@[simp] theorem CharClass.read_cons (C : CharClass) (c : Char) (rest : List Char) :
    C.read (c :: rest) = if C.has c then some 1 else none := rfl

/-- A certain text. -/
def readText (wanted : String) (text : List Char) : Option Nat :=
  if wanted.toList <+: text then some wanted.toList.length else none

/-- A character inside of a string that ends with a quote, with a backslash in front or without. -/
def readPiece (quote : Char) : List Char → Option Nat
  | [] => none
  | '\\' :: _ :: _ => some 2
  | c :: _ => if c ∈ ['\n', quote, '\\'] then none else some 1

/-- A string between two of a quote. -/
def readQuoted (quote : Char) : List Char → Option Nat
  | [] => none
  | c :: rest =>
    if c = quote ∧ rest[insideLength quote rest]? = some quote then
      some (insideLength quote rest + 2)
    else none

/-- All of some readings, one after the other. -/
def inTurn : List (List Char → Option Nat) → List Char → Option Nat
  | [], _ => some 0
  | read :: reads, text =>
    (read text).bind fun len => (inTurn reads (text.drop len)).map (len + ·)

/-- The first of some classes that has a character is one class put together from all of them. -/
theorem CharClass.findSome?_read (classes : List CharClass) (text : List Char) :
    (classes.map CharClass.read).findSome? (· text) = CharClass.read classes.flatten text := by
  induction classes with
  | nil => cases text <;> rfl
  | cons C classes ih =>
      rw [List.map_cons, List.findSome?_cons, ih]
      cases text with
      | nil => rfl
      | cons c rest =>
          have hhas : CharClass.has (C ++ classes.flatten) c =
              (C.has c || CharClass.has classes.flatten c) := List.any_append
          by_cases hC : C.has c <;> by_cases hrest : CharClass.has classes.flatten c <;>
            simp [hhas, hC, hrest]

end Script

section Reading

variable {g : Graph Char} {chars : Array Char} {id : RuleId} {start : Nat} {verdict : Option Nat}
variable {read read' : List Char → Option Nat}

/-- What a rule comes to is told by the text ahead, and by nothing else. -/
def Graph.Reads (g : Graph Char) (id : RuleId) (read : List Char → Option Nat) : Prop :=
  ∀ (chars : Array Char) (start : Nat) (verdict : Option Nat),
    Derives g chars id start verdict → verdict = read (chars.toList.drop start)

namespace Graph.Reads

theorem congr (h : g.Reads id read) (heq : ∀ text, read text = read' text) : g.Reads id read' :=
  fun chars start verdict hd => (h chars start verdict hd).trans (heq _)

theorem text {wanted : String} (hkind : g.kind? id = some (.text wanted)) :
    g.Reads id (readText wanted) :=
  fun _ _ _ hd => hd.verdict_literal hkind

theorem anyOne (hkind : g.kind? id = some .anyOne) :
    g.Reads id fun text => if text = [] then none else some 1 := by
  intro chars start verdict hd
  rw [hd.verdict_any hkind]
  have hnil : chars.toList.drop start = [] ↔ chars.size ≤ start := by simp
  by_cases h : chars.size ≤ start
  · simp only [hnil, h, if_true]
    rw [if_pos (by omega)]
  · simp only [hnil, h, if_false]
    rw [if_neg (by omega), if_neg (by decide),
      show Nat.min (chars.size - start) 1 = 1 from Nat.min_eq_right (by omega)]

theorem not {one : RuleId} (hkind : g.kind? id = some (.not one)) (h : g.Reads one read) :
    g.Reads id fun text => if (read text).isSome then none else some 0 := by
  intro chars start verdict hd
  obtain ⟨seen, hseen, rfl⟩ := hd.of_not hkind
  rw [h chars start seen hseen]

theorem sequence {subs : List RuleId} {reads : List (List Char → Option Nat)}
    (hkind : g.kind? id = some (.sequence subs)) (h : List.Forall₂ g.Reads subs reads) :
    g.Reads id (inTurn reads) := by
  intro chars start verdict hd
  replace hd := hd.inOrder hkind
  clear hkind
  induction h generalizing start verdict with
  | nil =>
      cases hd
      rfl
  | cons hone _ ih =>
      cases hd with
      | failure hd => simp [inTurn, ← hone _ _ _ hd]
      | success hd hrest =>
          rw [ih _ _ hrest, inTurn, ← hone _ _ _ hd, Option.bind_some, List.drop_drop]

theorem oneOf {subs : List RuleId} {reads : List (List Char → Option Nat)}
    (hkind : g.kind? id = some (.oneOf subs)) (h : List.Forall₂ g.Reads subs reads) :
    g.Reads id fun text => reads.findSome? (· text) := by
  intro chars start verdict hd
  replace hd := hd.firstOf hkind
  clear hkind
  induction h generalizing verdict with
  | nil =>
      cases hd
      rfl
  | cons hone _ ih =>
      cases hd with
      | failure hd hrest => simp [← hone _ _ _ hd, ih _ hrest]
      | success hd => simp [← hone _ _ _ hd]

/-- A repetition goes as far as any function says that adds up the lengths of the rounds. -/
theorem count {one : RuleId} {min : Nat} {total : List Char → Nat}
    (hkind : g.kind? id = some (.count one min 0)) (h : g.Reads one read) (hmin : min ≤ 1)
    (hround : ∀ text len, read text = some len → len ≠ 0 ∧ total text = len + total (text.drop len))
    (hover : ∀ text, read text = none → total text = 0) :
    g.Reads id fun text => if total text < min then none else some (total text) := by
  intro chars start verdict hd
  -- Each round that is counted takes off the front what it reads.
  have hsum {reps len : Nat} (hrepeats : Repeats g chars one reps start len) :
      total (chars.toList.drop start) = len + total (chars.toList.drop (start + len)) := by
    induction reps generalizing len with
    | zero =>
        cases hrepeats
        exact (Nat.zero_add _).symm
    | succ reps ih =>
        obtain _ | ⟨hrest, hlast, -⟩ := hrepeats
        have hread := (hround _ _ (h _ _ _ hlast).symm).2
        rw [ih hrest, hread, List.drop_drop]
        simp only [Nat.add_assoc]
  obtain ⟨reps, len, hrepeats, ⟨hend, rfl⟩ | ⟨hempty, -⟩⟩ := hd.count_cases hkind
  · have hlen : total (chars.toList.drop start) = len := by
      rw [hsum hrepeats, hover _ (h _ _ _ hend).symm, Nat.add_zero]
    have hreps := hrepeats.reps_le
    -- Without a round nothing is consumed, so the bound from below, which is one at most, is about
    -- lengths as well.
    have hzero : reps = 0 → len = 0 := by
      rintro rfl
      cases hrepeats
      rfl
    simp only [hlen]
    split <;> split <;> first | rfl | omega
  · exact absurd rfl (hround _ _ (h _ _ _ hempty).symm).1

/-- A skip goes as far as any function says that counts what is passed over. -/
theorem skip {stop : RuleId} {stopBefore failOnEnd : Bool} {total : List Char → Option Nat}
    (hkind : g.kind? id = some (.skip stop stopBefore failOnEnd)) (h : g.Reads stop read)
    (hstop : ∀ text len, read text = some len → total text = some (if stopBefore then 0 else len))
    (hpass : ∀ c rest, read (c :: rest) = none → total (c :: rest) = (total rest).map (· + 1))
    (hend : read [] = none → total [] = if failOnEnd then none else some 0) :
    g.Reads id total := by
  intro chars start verdict hd
  have hsize : chars.toList.length = chars.size := rfl
  -- Going on by one character adds one to what is read, for as long as the stop is not there.
  have hsum {passed : Nat} (hpassed : passed ≤ chars.size - start)
      (hbefore : ∀ before < passed, Derives g chars stop (start + before) none) :
      total (chars.toList.drop start) =
        (total (chars.toList.drop (start + passed))).map (· + passed) := by
    induction passed with
    | zero => simp
    | succ passed ih =>
        rw [ih (by omega) fun before hlt => hbefore before (by omega)]
        have hnone := (h _ _ _ (hbefore passed (by omega))).symm
        rw [List.drop_eq_getElem_cons (by omega)] at hnone ⊢
        rw [hpass _ _ hnone, Option.map_map, Nat.add_assoc]
        exact congrFun (congrArg Option.map (funext fun len => by simp only [Function.comp]; omega)) _
  rcases hd.skip_cases hkind with ⟨passed, len, hpassed, hbefore, hlast, rfl⟩ | ⟨hnowhere, rfl⟩
  · rw [hsum hpassed hbefore, hstop _ _ (h _ _ _ hlast).symm, Option.map_some]
    cases stopBefore <;> simp [Nat.add_comm]
  · have hlast := (h _ _ _ (hnowhere _ (Nat.le_refl _))).symm
    have hnil : chars.toList.drop (start + (chars.size - start)) = [] :=
      List.drop_eq_nil_of_le (by omega)
    rw [hnil] at hlast
    rw [hsum (Nat.le_refl _) fun before hlt => hnowhere before (Nat.le_of_lt hlt), hnil, hend hlast]
    cases failOnEnd <;> simp

theorem log {severity : Severity} {message : String}
    (hkind : g.kind? id = some (.log severity message none)) : g.Reads id fun _ => some 0 := by
  intro chars start verdict hd
  cases hd <;> simp_all

theorem anyRest (hkind : g.kind? id = some (.any 0 0)) : g.Reads id fun text => some text.length := by
  intro chars start verdict hd
  rw [hd.verdict_any hkind]
  simp

end Graph.Reads

/-! ### Classes of characters -/

/-- The class of the characters that a rule matches, if it is one that matches single characters. -/
def Graph.charClass? (g : Graph Char) : (height : Nat) → RuleId → Option CharClass
  | 0, _ => none
  | height + 1, id =>
    match g.kind? id with
    | some (.single value) => some (.ofChars [value])
    | some (.set values) => some (.ofChars values)
    | some (.range lo hi) => some [(lo, hi)]
    | some (.oneOf subs) =>
      if subs.all fun sub => (g.charClass? height sub).isSome then
        some (subs.filterMap (g.charClass? height)).flatten
      else none
    | _ => none

theorem Graph.Reads.class {C : CharClass} {height : Nat} (h : g.charClass? height id = some C) :
    g.Reads id C.read := by
  induction height generalizing id C with
  | zero => cases h
  | succ height ih =>
      have hhead {chars : Array Char} {start : Nat} :
          (chars.toList.drop start).head? = chars[start]? := by
        rw [List.head?_drop, Array.getElem?_toList]
      rw [Graph.charClass?] at h
      -- A class is a single character, a set, a range, or a choice of classes of less height.
      split at h
      · rename_i value hkind
        cases h
        intro chars start verdict hd
        rw [hd.verdict_single hkind, CharClass.read, hhead]
        simp [Option.any_eq_true, CharClass.has_ofChars]
      · rename_i values hkind
        cases h
        intro chars start verdict hd
        rw [hd.verdict_set hkind, CharClass.read, hhead]
        simp [Option.any_eq_true, CharClass.has_ofChars]
      · rename_i lo hi hkind
        cases h
        intro chars start verdict hd
        rw [hd.verdict_range hkind, CharClass.read, hhead]
        simp [Option.any_eq_true, CharClass.has, Element.code]
      · rename_i subs hkind
        split at h
        · rename_i hall
          cases h
          have hsubs : List.Forall₂ g.Reads subs
              ((subs.filterMap (g.charClass? height)).map CharClass.read) := by
            clear hkind
            induction subs with
            | nil => exact .nil
            | cons sub subs ihsubs =>
                obtain ⟨hsub, hrest⟩ := (Bool.and_eq_true _ _).mp hall
                obtain ⟨D, hD⟩ := Option.isSome_iff_exists.mp hsub
                rw [List.filterMap_cons_some hD, List.map_cons]
                exact .cons (ih hD) (ihsubs hrest)
          exact (Graph.Reads.oneOf hkind hsubs).congr (CharClass.findSome?_read _)
        · cases h
      · cases h

/-! ### Shapes -/

/-- Whether a rule matches nothing where no word goes on. -/
def Graph.isWordEnd (g : Graph Char) (id : RuleId) : Bool :=
  match g.kind? id with
  | some (.not one) => g.charClass? 2 one = some nameChars
  | _ => false

/-- Whether a rule takes one character of a string that ends with a quote, or two with a backslash
in front. -/
def Graph.isPiece (g : Graph Char) (quote : Char) (id : RuleId) : Bool :=
  match g.kind? id with
  | some (.oneOf [escape, plain]) =>
    match g.kind? escape, g.kind? plain with
    | some (.sequence [backslash, any]), some (.sequence [notStop, any']) =>
      g.kind? backslash = some (.single '\\') && g.kind? any = some .anyOne &&
        g.kind? any' = some .anyOne &&
        match g.kind? notStop with
        | some (.not stop) => g.kind? stop = some (.set ['\n', quote, '\\'])
        | _ => false
    | _, _ => false
  | _ => false

/-- Whether a rule takes a string between two of a quote. -/
def Graph.isQuoted (g : Graph Char) (quote : Char) (id : RuleId) : Bool :=
  match g.kind? id with
  | some (.sequence [opening, body, closing]) =>
    g.kind? opening = some (.single quote) && g.kind? closing = some (.single quote) &&
      match g.kind? body with
      | some (.count piece 0 0) => g.isPiece quote piece
      | _ => false
  | _ => false

/-- Whether a rule matches what a shape does, and is made in the way of this shape. -/
def Graph.hasShape (g : Graph Char) (id : RuleId) : Shape → Bool
  | .run C =>
    match g.kind? id with
    | some (.count one 1 0) => g.charClass? 1 one = some C
    | _ => false
  | .lineComment => g.isLineComment id
  | .blockComment => g.isBlockComment id
  | .quoted =>
    match g.kind? id with
    | some (.oneOf [double, single]) => g.isQuoted '"' double && g.isQuoted '\'' single
    | _ => false
  | .marker =>
    match g.kind? id with
    | some (.sequence [minus, letter, wordEnd]) =>
      g.charClass? 1 minus = some (.ofChars ['-']) &&
        g.charClass? 1 letter = some (.ofChars ['a', 'c', 'r']) && g.isWordEnd wordEnd
    | _ => false
  | .keyword text =>
    match g.kind? id with
    | some (.sequence [literal, wordEnd]) =>
      g.kind? literal = some (.text text) && g.isWordEnd wordEnd
    | _ => false
  | .word =>
    match g.kind? id with
    | some (.sequence [first, tail]) =>
      g.charClass? 2 first = some nameStart &&
        match g.kind? tail with
        | some (.count one 0 0) => g.charClass? 2 one = some nameChars
        | _ => false
    | _ => false
  | .mark text => g.kind? id = some (.text text)
  | .any => g.kind? id = some .anyOne

namespace Graph.Reads

theorem wordEnd (h : g.isWordEnd id) :
    g.Reads id fun text => if nameAhead text then none else some 0 := by
  unfold Graph.isWordEnd at h
  split at h
  · rename_i one hkind
    refine (Graph.Reads.not hkind (.class (of_decide_eq_true h))).congr fun text => ?_
    by_cases hahead : nameAhead text <;> simp [CharClass.read, nameAhead] at hahead ⊢ <;> simp [hahead]
  · cases h

/-- Characters of a class, as many as there are. -/
theorem classRun {one : RuleId} {C : CharClass} {height min : Nat}
    (hkind : g.kind? id = some (.count one min 0)) (h : g.charClass? height one = some C)
    (hmin : min ≤ 1) :
    g.Reads id fun text => if (text.takeWhile C.has).length < min then none
      else some (text.takeWhile C.has).length := by
  refine count hkind (.class h) hmin ?_ ?_
  · intro text len hread
    cases text with
    | nil => cases hread
    | cons c rest =>
        obtain ⟨hc, rfl⟩ : C.has c ∧ 1 = len := by simpa using hread
        simp [hc, Nat.add_comm]
  · intro text hread
    cases text with
    | nil => rfl
    | cons c rest =>
        have hc : ¬ C.has c := fun hc => by simp [hc] at hread
        simp [hc]

theorem piece {quote : Char} (h : g.isPiece quote id) : g.Reads id (readPiece quote) := by
  unfold Graph.isPiece at h
  split at h
  · rename_i escape plain hkind
    split at h
    · rename_i backslash any notStop any' hescape hplain
      simp only [Bool.and_eq_true, decide_eq_true_eq] at h
      obtain ⟨⟨⟨hbackslash, hany⟩, hany'⟩, h⟩ := h
      split at h
      · rename_i stop hnot
        have hstop := of_decide_eq_true h
        have hclass : g.charClass? 1 backslash = some (.ofChars ['\\']) := by
          rw [Graph.charClass?, hbackslash]
        have hstopClass : g.charClass? 1 stop = some (.ofChars ['\n', quote, '\\']) := by
          rw [Graph.charClass?, hstop]
        -- A piece is a backslash with any character, or one character that does not end the text.
        refine (oneOf hkind (.cons (sequence hescape (.cons (.class hclass)
          (.cons (anyOne hany) .nil))) (.cons (sequence hplain (.cons (not hnot (.class hstopClass))
          (.cons (anyOne hany') .nil))) .nil))).congr fun text => ?_
        -- Both take a look at two characters at most.
        match text with
        | [] => rfl
        | [c] =>
            by_cases hc : c = '\\' <;> by_cases hstop : c ∈ ['\n', quote, '\\'] <;> 
              simp_all [inTurn, readPiece, CharClass.has_ofChars]
        | c :: d :: rest =>
            by_cases hc : c = '\\' <;> by_cases hstop : c ∈ ['\n', quote, '\\'] <;> 
              simp_all [inTurn, readPiece, CharClass.has_ofChars]
      · cases h
    · cases h
  · cases h

/-- The inside of a string is made of pieces, as many as there are. -/
theorem inside {quote : Char} {one : RuleId} (hkind : g.kind? id = some (.count one 0 0))
    (h : g.isPiece quote one) : g.Reads id fun text => some (insideLength quote text) := by
  refine (count hkind (piece h) (Nat.zero_le 1) ?_ ?_).congr fun text => if_neg (Nat.not_lt_zero _)
  · -- A piece that is read is one or two characters, and the inside goes on behind it.
    intro text len hread
    unfold readPiece at hread
    split at hread
    · cases hread
    · cases hread
      exact ⟨by decide, Nat.add_comm _ _⟩
    · rename_i c rest hplain
      split at hread
      · cases hread
      · rename_i hstop
        cases hread
        rw [insideLength, if_neg hstop]
        · exact ⟨by decide, Nat.add_comm _ _⟩
        · exact hplain
  · -- Where no piece is read the text is over, or its quote or the end of the line is there.
    intro text hread
    unfold readPiece at hread
    split at hread
    · rfl
    · cases hread
    · rename_i c rest hplain
      split at hread
      · rename_i hstop
        rw [insideLength, if_pos hstop]
        exact hplain
      · cases hread

/-- A string starts with its quote and ends where that quote ends its inside. -/
theorem quoted {quote : Char} (h : g.isQuoted quote id) : g.Reads id (readQuoted quote) := by
  unfold Graph.isQuoted at h
  split at h
  · rename_i opening body closing hkind
    simp only [Bool.and_eq_true, decide_eq_true_eq] at h
    obtain ⟨⟨hopening, hclosing⟩, h⟩ := h
    split at h
    · rename_i one hbody
      have hopeningClass : g.charClass? 1 opening = some (.ofChars [quote]) := by
        rw [Graph.charClass?, hopening]
      have hclosingClass : g.charClass? 1 closing = some (.ofChars [quote]) := by
        rw [Graph.charClass?, hclosing]
      refine (sequence hkind (.cons (.class hopeningClass) (.cons (inside hbody h)
        (.cons (.class hclosingClass) .nil)))).congr fun text => ?_
      cases text with
      | nil => rfl
      | cons c rest =>
          rw [readQuoted]
          by_cases hc : c = quote
          · subst hc
            -- The closing quote is the character just behind the inside.
            have hlast : (CharClass.ofChars [c]).read ((c :: rest).drop (1 + insideLength c rest)) =
                if rest[insideLength c rest]? = some c then some 1 else none := by
              rw [CharClass.read, List.head?_drop, Nat.add_comm, List.getElem?_cons_succ]
              simp [Option.any_eq_true, CharClass.has_ofChars]
            by_cases h : rest[insideLength c rest]? = some c
            · simpa [inTurn, CharClass.has_ofChars, hlast, h] using Nat.add_comm 1 _
            · simp [inTurn, CharClass.has_ofChars, hlast, h]
          · simp [inTurn, CharClass.has_ofChars, hc]
    · cases h
  · cases h

theorem lineComment (h : g.isLineComment id) : g.Reads id Shape.lineComment.length? := by
  unfold Graph.isLineComment at h
  split at h
  · rename_i name precedence hash toLineEnd hrule
    rw [Bool.and_eq_true, decide_eq_true_eq] at h
    obtain ⟨hhash, h⟩ := h
    split at h
    · rename_i newline hskip
      have hhashClass : g.charClass? 1 hash = some (.ofChars ['#']) := by
        rw [Graph.charClass?, hhash]
      have hnewlineClass : g.charClass? 1 newline = some (.ofChars ['\n']) := by
        rw [Graph.charClass?, of_decide_eq_true h]
      -- The rest of the line ends in front of a line break or with the text.
      have hrest : g.Reads toLineEnd fun text => some (text.takeWhile (· ≠ '\n')).length := by
        refine skip hskip (.class hnewlineClass) (fun text len hread => ?_) (fun c rest hread => ?_)
          fun _ => rfl
        · cases text with
          | nil => cases hread
          | cons c rest =>
              have hc : c = '\n' := by
                by_contra hc
                simp [CharClass.has_ofChars, hc] at hread
              simp [hc]
        · have hc : c ≠ '\n' := by
            rintro rfl
            cases hread
          simp [hc]
      refine (sequence (Graph.kind?_eq_some hrule) (.cons (.class hhashClass)
        (.cons hrest .nil))).congr fun text => ?_
      cases text with
      | nil => rfl
      | cons c rest =>
          by_cases hc : c = '#' <;>
            simp [inTurn, Shape.length?, CharClass.has_ofChars, hc, Nat.add_comm]
    · cases h
  · cases h

/-- Up to where a block comment is closed first. -/
theorem closed (h : g.isClosed id) : g.Reads id closing? := by
  unfold Graph.isClosed at h
  split at h
  · rename_i closing hskip
    refine skip hskip (text (of_decide_eq_true h)) (fun text len hread => ?_) (fun c rest hread => ?_)
      fun _ => rfl
    · cases text with
      | nil => cases hread
      | cons c rest =>
          by_cases hpre : "*)".toList <+: c :: rest
          · rw [closing?, if_pos hpre, if_neg Bool.false_ne_true, ← hread, readText, if_pos hpre]
            rfl
          · rw [readText, if_neg hpre] at hread
            cases hread
    · by_cases hpre : "*)".toList <+: c :: rest
      · rw [readText, if_pos hpre] at hread
        cases hread
      · rw [closing?, if_neg hpre]
  · cases h

theorem commentBody (h : g.isCommentBody id) : g.Reads id fun text => some (commentLength text) := by
  unfold Graph.isCommentBody at h
  split at h
  · rename_i name precedence closed unclosed hrule
    simp only [Bool.and_eq_true] at h
    obtain ⟨⟨hclosed, -⟩, h⟩ := h
    unfold Graph.isUnclosed at h
    split at h
    · rename_i name precedence remark rest hunclosed
      simp only [Bool.and_eq_true, decide_eq_true_eq] at h
      obtain ⟨⟨hremark, hrest⟩, -⟩ := h
      refine (oneOf (Graph.kind?_eq_some hrule) (.cons (Graph.Reads.closed hclosed)
        (.cons (sequence (Graph.kind?_eq_some hunclosed) (.cons (log hremark)
          (.cons (anyRest hrest) .nil))) .nil))).congr fun text => ?_
      cases h : closing? text <;> simp [inTurn, commentLength, h]
    · cases h
  · cases h

theorem blockComment (h : g.isBlockComment id) : g.Reads id Shape.blockComment.length? := by
  unfold Graph.isBlockComment at h
  split at h
  · rename_i name precedence opening body hrule
    simp only [Bool.and_eq_true, decide_eq_true_eq] at h
    obtain ⟨⟨hopening, -⟩, hbody⟩ := h
    refine (sequence (Graph.kind?_eq_some hrule) (.cons (text hopening)
      (.cons (commentBody hbody) .nil))).congr fun text => ?_
    cases text with
    | nil => rfl
    | cons c rest =>
        by_cases hpre : "(*".toList <+: c :: rest
        · simp only [inTurn, readText, Shape.length?, hpre, if_true]
          simp [Nat.add_comm]
        · simp only [inTurn, readText, Shape.length?, hpre, if_false]
          rfl
  · cases h

theorem markText {wanted : String} (hproper : (Shape.mark wanted).isProper)
    (h : g.hasShape id (.mark wanted)) : g.Reads id (Shape.mark wanted).length? := by
  refine (text (of_decide_eq_true h)).congr fun text => ?_
  cases text with
  | nil =>
      have hne : wanted.toList ≠ [] := by simpa [Shape.isProper] using hproper
      simp [readText, hne]
  | cons c rest => rfl

theorem run {C : CharClass} (h : g.hasShape id (.run C)) : g.Reads id (Shape.run C).length? := by
  unfold Graph.hasShape at h
  dsimp only at h
  split at h
  · rename_i one hkind
    refine (classRun hkind (of_decide_eq_true h) (Nat.le_refl 1)).congr fun text => ?_
    cases text with
    | nil => rfl
    | cons c rest => by_cases hc : C.has c <;> simp [Shape.length?, hc]
  · cases h

theorem quotedText (h : g.hasShape id .quoted) : g.Reads id Shape.quoted.length? := by
  unfold Graph.hasShape at h
  dsimp only at h
  split at h
  · rename_i double single hkind
    rw [Bool.and_eq_true] at h
    refine (oneOf hkind (.cons (quoted h.1) (.cons (quoted h.2) .nil))).congr fun text => ?_
    cases text with
    | nil => rfl
    | cons c rest =>
        -- The two kinds of quotes exclude each other by their first character.
        by_cases hdouble : c = '"'
        · subst hdouble
          by_cases hlast : rest[insideLength '"' rest]? = some '"' <;>
            simp [Shape.length?, readQuoted, hlast]
        · by_cases hsingle : c = '\''
          · subst hsingle
            by_cases hlast : rest[insideLength '\'' rest]? = some '\'' <;>
              simp [Shape.length?, readQuoted, hlast]
          · simp [Shape.length?, readQuoted, hdouble, hsingle]
  · cases h

theorem marker (h : g.hasShape id .marker) : g.Reads id Shape.marker.length? := by
  unfold Graph.hasShape at h
  dsimp only at h
  split at h
  · rename_i minus letter wordEnd hkind
    simp only [Bool.and_eq_true, decide_eq_true_eq] at h
    refine (sequence hkind (.cons (.class h.1.1) (.cons (.class h.1.2)
      (.cons (.wordEnd h.2) .nil)))).congr fun text => ?_
    rcases text with _ | ⟨c, _ | ⟨d, rest⟩⟩
    · rfl
    · by_cases hc : c = '-' <;> simp [inTurn, Shape.length?, CharClass.has_ofChars, hc]
    · by_cases hc : c = '-' <;> by_cases hd : d ∈ ['a', 'c', 'r'] <;>
        by_cases hahead : nameAhead rest <;>
        simp_all [inTurn, Shape.length?, CharClass.has_ofChars]
  · cases h

theorem keyword {wanted : String} (hproper : (Shape.keyword wanted).isProper)
    (h : g.hasShape id (.keyword wanted)) : g.Reads id (Shape.keyword wanted).length? := by
  unfold Graph.hasShape at h
  dsimp only at h
  split at h
  · rename_i literal wordEnd hkind
    simp only [Bool.and_eq_true, decide_eq_true_eq] at h
    refine (sequence hkind (.cons (text h.1) (.cons (.wordEnd h.2) .nil))).congr fun text => ?_
    cases text with
    | nil =>
        have hne : wanted.toList ≠ [] := by simpa [Shape.isProper] using hproper
        simp [inTurn, readText, hne]
    | cons c rest =>
        by_cases hpre : wanted.toList <+: c :: rest
        · rw [inTurn, readText, if_pos hpre, Option.bind_some, inTurn]
          cases hahead : nameAhead ((c :: rest).drop wanted.toList.length) <;>
            simp [inTurn, Shape.length?, hpre, hahead]
        · simp [inTurn, readText, Shape.length?, hpre]
  · cases h

theorem word (h : g.hasShape id .word) : g.Reads id Shape.word.length? := by
  unfold Graph.hasShape at h
  dsimp only at h
  split at h
  · rename_i first tail hkind
    rw [Bool.and_eq_true, decide_eq_true_eq] at h
    obtain ⟨hfirst, h⟩ := h
    split at h
    · rename_i one htail
      refine (sequence hkind (.cons (.class hfirst)
        (.cons (classRun htail (of_decide_eq_true h) (Nat.zero_le 1)) .nil))).congr fun text => ?_
      cases text with
      | nil => rfl
      | cons c rest =>
          by_cases hc : nameStart.has c <;> simp [inTurn, Shape.length?, hc, Nat.add_comm]
    · cases h
  · cases h

/-- A rule made in the way of a shape reads what the shape does. -/
theorem shape {shape : Shape} (hproper : shape.isProper) (h : g.hasShape id shape) :
    g.Reads id shape.length? := by
  cases shape with
  | lineComment => exact lineComment h
  | blockComment => exact blockComment h
  | mark wanted => exact markText hproper h
  | any =>
      refine (anyOne (of_decide_eq_true h)).congr fun text => ?_
      cases text <;> rfl
  | run C => exact run h
  | quoted => exact quotedText h
  | marker => exact marker h
  | keyword wanted => exact keyword hproper h
  | word => exact word h

end Graph.Reads

end Reading

end RuleScript
