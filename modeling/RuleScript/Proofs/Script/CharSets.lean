import RuleScript.Proofs.Match.Adequacy
import RuleScript.Proofs.Script.Values

/-!
# Sets of characters

A set of a tokenizer's script becomes a range if it is one, and else a list of characters, in order
and each once.  In both forms a rule of that kind matches one character, and it matches just those
that belong to an item (`charTerminals_set_union`).  Neither the form nor the order and number of the
items shows in what is matched.

A kind that tests one element comes to the same wherever it stands (`Kind.ComesTo`), so two such kinds
are compared by their tests.
-/

namespace RuleScript

/-! ## Kinds that test one element -/

namespace Kind

section Tests

variable {α : Type} {test : α → Bool} {input : Array α} {start : Nat}

/-- The match of one element if it passes a test, and no match otherwise. -/
def tested (test : α → Bool) (input : Array α) (start : Nat) : Option Nat :=
  if input[start]?.any test then some 1 else none

theorem tested_eq_some_iff : tested test input start = some 1 ↔ ∃ e ∈ input[start]?, test e := by
  unfold tested
  cases input[start]? <;> simp

theorem tested_eq_none_iff : tested test input start = none ↔ ¬ ∃ e ∈ input[start]?, test e := by
  unfold tested
  cases input[start]? <;> simp

end Tests

variable {α : Type} [Element α] {kind : Kind α} {input : Array α} {start : Nat}

/-- What every rule of a kind comes to at `start`, in whatever graph and with any depth at all. -/
def ComesTo (kind : Kind α) (input : Array α) (start : Nat) (verdict : Option Nat) : Prop :=
  ∀ (g : Graph α) (id : RuleId) (limit : Nat), g.kind? id = some kind → 0 < limit →
    ∃ outcome, (g.matchAt input limit id start).1 = .ok outcome ∧ outcome.verdict = verdict

theorem comesTo_of_element {test : α → Bool}
    (h : ∀ g (sub : RuleId → Nat → Run Outcome) id,
      Match.kind g input sub id kind start = Match.element input id test start) :
    kind.ComesTo input start (tested test input start) := by
  intro g id limit hkind hlimit
  obtain ⟨rule, hrule, rfl⟩ := Option.map_eq_some_iff.mp hkind
  obtain ⟨depth, rfl⟩ := Nat.exists_eq_succ_of_ne_zero hlimit.ne'
  have hreturns : (g.run input (depth + 1) id start).Returns
      (·.verdict = tested test input start) := by
    rw [Graph.run, Graph.runWithin_succ hrule, Match.rule, h]
    exact (Match.element_returns Iff.rfl).map fun outcome houtcome =>
      (Outcome.verdict_mapNodes ..).trans houtcome
  obtain ⟨outcome, after, hresult, houtcome⟩ := hreturns.exists_result {}
  exact ⟨outcome, congrArg Prod.fst hresult, houtcome⟩

theorem set_comesTo (values : List α) (input : Array α) (start : Nat) :
    (set values).ComesTo input start (tested values.contains input start) :=
  comesTo_of_element fun _ _ _ => rfl

theorem range_comesTo (lo hi : α) (input : Array α) (start : Nat) :
    (range lo hi).ComesTo input start
      (tested (fun e => Element.code lo ≤ Element.code e && Element.code e ≤ Element.code hi)
        input start) :=
  comesTo_of_element fun _ _ _ => rfl

/-- A kind comes to one verdict at most: there is a graph with a rule of that kind. -/
theorem ComesTo.unique {verdict verdict' : Option Nat} (h : kind.ComesTo input start verdict)
    (h' : kind.ComesTo input start verdict') : verdict = verdict' := by
  obtain ⟨outcome, hresult, rfl⟩ := h { rules := #[.ofKind kind] } ⟨0⟩ 1 rfl Nat.one_pos
  obtain ⟨outcome', hresult', rfl⟩ := h' { rules := #[.ofKind kind] } ⟨0⟩ 1 rfl Nat.one_pos
  rw [Except.ok.inj (hresult.symm.trans hresult')]

theorem ComesTo.iff_eq {verdict verdict' : Option Nat} (h : kind.ComesTo input start verdict) :
    kind.ComesTo input start verdict' ↔ verdict = verdict' := by
  constructor
  · exact h.unique
  · rintro rfl
    exact h

end Kind

/-! ## Sorted sets -/

namespace Element

variable {α : Type} [Element α]

/-- Going over a list in order, what is kept is in order with each element once. -/
theorem pairwise_eraseReps_loop {b : α} {list kept : List α}
    (hlist : (b :: list).Pairwise fun c d => code c ≤ code d)
    (hkept : (kept.reverse ++ [b]).Pairwise fun c d => code c < code d) :
    (List.eraseRepsBy.loop (· == ·) b list kept).Pairwise fun c d => code c < code d := by
  induction list generalizing b kept with
  | nil => rwa [List.eraseRepsBy.loop, List.reverse_cons]
  | cons c list ih =>
      obtain ⟨hb, hrest⟩ := List.pairwise_cons.mp hlist
      rw [List.eraseRepsBy.loop]
      split
      · rename_i heq
        exact ih (by rwa [eq_of_beq heq]) hkept
      · rename_i hne
        have hless : code b < code c := by
          refine lt_of_le_of_ne (hb c List.mem_cons_self) fun hcode => ?_
          exact ne_of_beq_false hne (code_injective hcode)
        obtain ⟨-, -, hbefore⟩ := List.pairwise_append.mp hkept
        apply ih hrest
        rw [List.reverse_cons]
        apply List.pairwise_append.mpr
        refine ⟨hkept, List.pairwise_singleton _ _, ?_⟩
        intro d hd e he
        rw [List.mem_singleton.mp he]
        -- All that is kept comes before `b`, or is `b`.
        rcases List.mem_append.mp hd with hd | hd
        · exact (hbefore d hd b (List.mem_singleton.mpr rfl)).trans hless
        · rwa [List.mem_singleton.mp hd]

theorem sortedSet_pairwise (elements : List α) :
    (sortedSet elements).Pairwise fun c d => code c < code d := by
  have htrans (c d e : α) (hcd : decide (code c ≤ code d)) (hde : decide (code d ≤ code e)) :
      decide (code c ≤ code e) :=
    decide_eq_true ((of_decide_eq_true hcd).trans (of_decide_eq_true hde))
  have htotal (c d : α) : decide (code c ≤ code d) || decide (code d ≤ code c) := by
    simpa only [Bool.or_eq_true, decide_eq_true_eq] using Nat.le_total (code c) (code d)
  have hsorted : (elements.mergeSort fun c d => code c ≤ code d).Pairwise
      fun c d => code c ≤ code d :=
    (List.pairwise_mergeSort htrans htotal elements).imp of_decide_eq_true
  rw [sortedSet, List.eraseReps]
  cases hlist : elements.mergeSort fun c d => code c ≤ code d with
  | nil => exact .nil
  | cons b rest =>
      rw [hlist] at hsorted
      exact pairwise_eraseReps_loop hsorted (List.pairwise_singleton _ _)

end Element

/-! ## Sets over characters -/

variable {items : List SetItem} {kind : Kind Char}

/-- The kind that a set becomes tests whether an item has the character. -/
theorem charTerminals_set_comesTo (h : charTerminals.set items = .ok kind) (input : Array Char)
    (start : Nat) :
    kind.ComesTo input start (Kind.tested (fun c => items.any (·.admits c)) input start) := by
  rcases charTerminals_set_eq_ok h with ⟨lo, hi, first, last, rfl, hlo, hhi, rfl⟩ | ⟨values, rfl, hvalues⟩
  · have htest : (fun c => [SetItem.range lo hi].any (·.admits c)) =
        fun c => Element.code first ≤ Element.code c && Element.code c ≤ Element.code last := by
      funext c
      rw [List.any_cons, List.any_nil, Bool.or_false, SetItem.admits, hlo, hhi]
      rfl
    rw [htest]
    exact Kind.range_comesTo first last input start
  · have htest : (fun c => items.any (·.admits c)) = values.contains := by
      funext c
      rw [Bool.eq_iff_iff, ← hvalues, List.contains_iff_mem]
    rw [htest]
    exact Kind.set_comesTo values input start

/-- A set becomes a range if it is one, and else a list of characters, in order and each once. -/
theorem charTerminals_set_form (h : charTerminals.set items = .ok kind) :
    (∃ lo hi first last, items = [.range lo hi] ∧ kind = .range first last) ∨
      ∃ values, kind = .set values ∧ values.Pairwise (·.toNat < ·.toNat) := by
  simp only [charTerminals] at h
  split at h
  · rename_i lo hi
    obtain ⟨⟨first, last⟩, -, h⟩ := Script.ok_of_bind h
    cases h
    exact .inl ⟨lo, hi, first, last, rfl, rfl⟩
  · obtain ⟨chars, -, h⟩ := Script.ok_of_bind h
    cases h
    exact .inr ⟨_, rfl, Element.sortedSet_pairwise _⟩

/-- A range and the list of its characters come to the same. -/
theorem setOf_charsBetween_comesTo (first last : Char) (input : Array Char) (start : Nat)
    (verdict : Option Nat) :
    (Kind.setOf (charsBetween first last)).ComesTo input start verdict ↔
      (Kind.range first last).ComesTo input start verdict := by
  have htest : (Element.sortedSet (charsBetween first last)).contains =
      fun c => Element.code first ≤ Element.code c && Element.code c ≤ Element.code last := by
    funext c
    rw [Bool.eq_iff_iff, List.contains_iff_mem, Element.mem_sortedSet, mem_charsBetween,
      Bool.and_eq_true, decide_eq_true_iff, decide_eq_true_iff]
    rfl
  rw [Kind.setOf, (Kind.set_comesTo _ input start).iff_eq, htest,
    (Kind.range_comesTo first last input start).iff_eq]

theorem any_admits_of_subset {items' : List SetItem} (hsub : items ⊆ items') {c : Char}
    (h : items.any (·.admits c)) : items'.any (·.admits c) := by
  obtain ⟨item, hitem, hc⟩ := List.any_eq_true.mp h
  exact List.any_eq_true.mpr ⟨item, hsub hitem, hc⟩

/-- **A set of characters means the union of its items.**  A rule for it matches where there is a
character that belongs to an item, and then it matches just that character.  A range matches what the
list of its characters does, and items in another order, or repeated, match the same. -/
theorem charTerminals_set_union (h : charTerminals.set items = .ok kind) :
    (∀ input start,
      (kind.ComesTo input start (some 1) ↔ ∃ c ∈ input[start]?, ∃ item ∈ items, item.admits c) ∧
      (kind.ComesTo input start none ↔ ¬ ∃ c ∈ input[start]?, ∃ item ∈ items, item.admits c)) ∧
    ((∃ lo hi first last, items = [.range lo hi] ∧ kind = .range first last ∧
        ∀ input start verdict, kind.ComesTo input start verdict ↔
          (Kind.setOf (charsBetween first last)).ComesTo input start verdict) ∨
      ∃ values, kind = .set values ∧ values.Pairwise (·.toNat < ·.toNat)) ∧
    ∀ items' kind', charTerminals.set items' = .ok kind' → items ⊆ items' → items' ⊆ items →
      ∀ input start verdict, kind.ComesTo input start verdict ↔ kind'.ComesTo input start verdict := by
  refine ⟨?_, ?_, ?_⟩
  · intro input start
    have hverdict := charTerminals_set_comesTo h input start
    rw [hverdict.iff_eq, hverdict.iff_eq, Kind.tested_eq_some_iff, Kind.tested_eq_none_iff]
    simp only [List.any_eq_true, and_self]
  · refine (charTerminals_set_form h).imp_left ?_
    rintro ⟨lo, hi, first, last, rfl, rfl⟩
    refine ⟨lo, hi, first, last, rfl, rfl, ?_⟩
    intro input start verdict
    exact (setOf_charsBetween_comesTo first last input start verdict).symm
  · intro items' kind' h' hsub hsub' input start verdict
    -- Items with the same elements admit the same characters.
    have hsame : (fun c => items.any (·.admits c)) = fun c => items'.any (·.admits c) := by
      funext c
      rw [Bool.eq_iff_iff]
      exact ⟨any_admits_of_subset hsub, any_admits_of_subset hsub'⟩
    rw [(charTerminals_set_comesTo h input start).iff_eq, hsame,
      (charTerminals_set_comesTo h' input start).iff_eq]

theorem chars_acrossGap :
    SetItem.chars (.range "\uD7FE" "\uE001") = .ok ['\uD7FE', '\uD7FF', '\uE000', '\uE001'] := by
  decide +kernel

/-- The range alone matches what the set matches that has the range twice. -/
theorem acrossGap_set_union :
    charTerminals.set [.range "\uD7FE" "\uE001"] = .ok (.range '\uD7FE' '\uE001') ∧
      charTerminals.set [.range "\uD7FE" "\uE001", .range "\uD7FE" "\uE001"] =
        .ok (.setOf ['\uD7FE', '\uD7FF', '\uE000', '\uE001', '\uD7FE', '\uD7FF', '\uE000',
          '\uE001']) ∧
      ∀ input start verdict,
        (Kind.range '\uD7FE' '\uE001').ComesTo input start verdict ↔
          (Kind.setOf ['\uD7FE', '\uD7FF', '\uE000', '\uE001', '\uD7FE', '\uD7FF', '\uE000',
            '\uE001']).ComesTo input start verdict := by
  have hrange : charTerminals.set [.range "\uD7FE" "\uE001"] = .ok (.range '\uD7FE' '\uE001') := rfl
  have htwice : charTerminals.set [.range "\uD7FE" "\uE001", .range "\uD7FE" "\uE001"] =
      .ok (.setOf ['\uD7FE', '\uD7FF', '\uE000', '\uE001', '\uD7FE', '\uD7FF', '\uE000',
        '\uE001']) := by
    simp only [charTerminals, List.mapM_cons, List.mapM_nil, chars_acrossGap]
    rfl
  obtain ⟨-, -, hsame⟩ := charTerminals_set_union hrange
  exact ⟨hrange, htwice, hsame _ _ htwice (by simp) (by simp)⟩

end RuleScript
