import RuleScript.Match.Matcher
import RuleScript.Proofs.Match.Folding

/-!
# Lengths as differences of positions

`Graph.run` adds up lengths.  The same match can be done by keeping the position that was reached
and taking the start away from it at the end, as sequences, repetitions, skips and operator chains
do in this file.  Subtraction is a parameter there: it is exact where the result is not below zero, and
below zero it may do anything, stop the match included.

`Graph.runBy_eq` says that the two matchers are the same function, whatever the subtraction does
below zero.  So it is never asked for anything below zero: every position reached, and the end of
every folded chain, is at or after the start.
-/

namespace RuleScript

/-- A way to subtract that is only good for results that are not below zero. -/
structure Subtraction where
  minus : Nat → Nat → Run Nat
  exact : ∀ {a b : Nat}, b ≤ a → minus a b = pure (a - b)

/-- The subtraction that stops the match below zero, in a way that no match stops otherwise. -/
def Subtraction.checked : Subtraction where
  minus a b := if b ≤ a then pure (a - b) else throw .missingRoot
  exact h := if_pos h

instance : Inhabited Subtraction := ⟨.checked⟩

theorem Subtraction.minus_add_left (s : Subtraction) (start len : Nat) :
    s.minus (start + len) start = pure len := by
  rw [s.exact (Nat.le_add_right start len), Nat.add_sub_cancel_left]

/-! ## The matcher by positions -/

namespace Match

section Positions

variable (s : Subtraction) (sub : RuleId → Nat → Run Outcome)

/-- All rules one after the other, from the position that those before them reached. -/
def sequenceTo (start : Nat) :
    (subs : List RuleId) → (pos : Nat) → (nodes : Array Node) → Run Outcome
  | [], pos, nodes => do pure (.success (← s.minus pos start) nodes.toList)
  | id :: ids, pos, nodes => do
    match ← sub id pos with
    | .failure => pure .failure
    | .success more found => sequenceTo start ids (pos + more) (nodes ++ found)

/-- The end, at `pos`, of a repetition that matched `reps` times. -/
def enoughTo (min start reps pos : Nat) (nodes : Array Node) : Run Outcome :=
  if reps < min then pure .failure
  else do pure (.success (← s.minus pos start) nodes.toList)

/-- One more repetition from `pos` on; `again` goes on from there. -/
def repetitionTo (label : String) (id : RuleId) (min max start : Nat)
    (again : (reps pos : Nat) → (nodes : Array Node) → Run Outcome) (reps pos : Nat)
    (nodes : Array Node) : Run Outcome := do
  if max ≠ 0 ∧ max ≤ reps then
    enoughTo s min start reps pos nodes
  else
    match ← sub id pos with
    | .failure => enoughTo s min start reps pos nodes
    | .success 0 found =>
      if max = 0 then
        Run.record (.emptyRepetition label pos)
        pure .failure
      else
        enoughTo s min start (Nat.max (reps + 1) min) pos (nodes ++ found)
    | .success more found => again (reps + 1) (pos + more) (nodes ++ found)

/-- A rule as often as it matches, from the position that the repetitions so far reached. -/
def repeatedTo (label : String) (id : RuleId) (min max start : Nat) :
    (room reps pos : Nat) → (nodes : Array Node) → Run Outcome
  | 0 => repetitionTo s sub label id min max start (enoughTo s min start)
  | room + 1 =>
    repetitionTo s sub label id min max start (repeatedTo label id min max start room)

/-- A match of `stop` at `pos`, or `beyond` where there is none. -/
def stopOrTo (stop : RuleId) (stopBefore : Bool) (start pos : Nat) (beyond : Run Outcome) :
    Run Outcome := do
  match ← sub stop pos with
  | .success len nodes =>
    if stopBefore then pure (.success (← s.minus pos start) [])
    else pure (.success (← s.minus (pos + len) start) nodes)
  | .failure => beyond

/-- Everything up to a match of `stop`, from the position that was reached. -/
def skipFrom (stop : RuleId) (stopBefore failOnEnd : Bool) (start : Nat) :
    (room pos : Nat) → Run Outcome
  | 0, pos =>
    stopOrTo s sub stop stopBefore start pos
      (if failOnEnd then pure .failure else do pure (.success (← s.minus pos start) []))
  | room + 1, pos =>
    stopOrTo s sub stop stopBefore start pos
      (skipFrom stop stopBefore failOnEnd start room (pos + 1))

/-- A chain, folded by precedence, up to the end of the fold. -/
def chainTo {α : Type} (form : ChainForm) (g : Graph α) (size start : Nat) : Run Outcome := do
  match ← firstOf sub start form.operands with
  | .failure => pure .failure
  | .success len nodes =>
    let first : Operand := ⟨⟨start, len⟩, nodes⟩
    let links ← extend sub form (size - start) first.span.stop #[]
    let folded := (ChainTree.ofChain first links.toList).fold g
    pure (.success (← s.minus folded.span.stop start) folded.nodes)

/-- What a rule of the given kind matches at `start`, before pruning. -/
def kindBy {α : Type} [Element α] (g : Graph α) (input : Array α) (id : RuleId) (kind : Kind α)
    (start : Nat) : Run Outcome :=
  match kind with
  | .sequence subs => (·.under id start) <$> sequenceTo s sub start subs start #[]
  | .count one min max =>
    (·.under id start) <$>
      repeatedTo s sub (g.label id) one min max start (input.size - start) 0 start #[]
  | .skip stop stopBefore failOnEnd =>
    (·.under id start) <$>
      skipFrom s sub stop stopBefore failOnEnd start (input.size - start) start
  | .evaluation alternatives =>
    chainTo s sub (ChainForm.ofEvaluation g id alternatives) g input.size start
  | other => Match.kind g input sub id other start

end Positions

end Match

/-- Match a rule by positions, with `depth` levels left of the `limit`. -/
def Graph.runWithinBy {α : Type} [Element α] (g : Graph α) (s : Subtraction) (input : Array α)
    (limit : Nat) : (depth : Nat) → (id : RuleId) → (start : Nat) → Run Outcome
  | depth, id, start =>
    match g.rule? id with
    | none => do
      Run.record (.unknownRule id)
      pure .failure
    | some rule =>
      match depth with
      | 0 => throw (.depthExceeded limit start)
      | depth + 1 =>
        (·.mapNodes (g.prune rule.pruning)) <$>
          Match.kindBy s (g.runWithinBy s input limit depth) g input id rule.kind start

/-- Match a rule by positions, with rules nested `limit` deep at most. -/
def Graph.runBy {α : Type} [Element α] (g : Graph α) (s : Subtraction) (input : Array α)
    (limit : Nat) (id : RuleId) (start : Nat) : Run Outcome :=
  g.runWithinBy s input limit limit id start

/-! ## The two matchers agree -/

namespace Match

variable (s : Subtraction) (sub : RuleId → Nat → Run Outcome) (start : Nat)

theorem sequenceTo_eq (ids : List RuleId) (len : Nat) (nodes : Array Node) :
    sequenceTo s sub start ids (start + len) nodes = inSequence sub start ids len nodes := by
  induction ids generalizing len nodes with
  | nil => rw [sequenceTo, inSequence, s.minus_add_left, pure_bind]
  | cons id ids ih =>
      rw [sequenceTo, inSequence]
      congr 1
      funext outcome
      cases outcome with
      | failure => rfl
      | success more found =>
          dsimp only
          rw [Nat.add_assoc, ih]

theorem enoughTo_eq (min reps len : Nat) (nodes : Array Node) :
    enoughTo s min start reps (start + len) nodes = pure (enough min reps len nodes) := by
  rw [enoughTo, enough, s.minus_add_left, pure_bind]
  split <;> rfl

theorem repetitionTo_eq (label : String) (id : RuleId) (min max : Nat)
    {againTo again : Nat → Nat → Array Node → Run Outcome}
    (hagain : ∀ reps len nodes, againTo reps (start + len) nodes = again reps len nodes)
    (reps len : Nat) (nodes : Array Node) :
    repetitionTo s sub label id min max start againTo reps (start + len) nodes =
      repetition sub label id min max start again reps len nodes := by
  rw [repetitionTo, repetition]
  split
  · exact enoughTo_eq s start min reps len nodes
  · congr 1
    funext outcome
    split
    · exact enoughTo_eq s start min reps len nodes
    · split
      · rfl
      · exact enoughTo_eq s start min _ len _
    · rename_i more found hmore
      cases more with
      | zero => exact absurd rfl hmore
      | succ more =>
          -- Nothing is subtracted here: both loops have advanced by the same length.
          calc againTo (reps + 1) (start + len + (more + 1)) (nodes ++ found)
              = againTo (reps + 1) (start + (len + (more + 1))) (nodes ++ found) := by
                rw [Nat.add_assoc]
            _ = again (reps + 1) (len + (more + 1)) (nodes ++ found) := hagain _ _ _

theorem repeatedTo_eq (label : String) (id : RuleId) (min max room reps len : Nat)
    (nodes : Array Node) :
    repeatedTo s sub label id min max start room reps (start + len) nodes =
      repeated sub label id min max start room reps len nodes := by
  induction room generalizing reps len nodes with
  | zero => exact repetitionTo_eq s sub start label id min max (enoughTo_eq s start min) _ _ _
  | succ room ih => exact repetitionTo_eq s sub start label id min max ih _ _ _

theorem stopOrTo_eq (stop : RuleId) (stopBefore : Bool) (passed : Nat)
    {beyondTo beyond : Run Outcome} (hbeyond : beyondTo = beyond) :
    stopOrTo s sub stop stopBefore start (start + passed) beyondTo =
      stopOr sub stop stopBefore start passed beyond := by
  rw [stopOrTo, stopOr]
  congr 1
  funext outcome
  cases outcome with
  | failure => exact hbeyond
  | success len nodes =>
      dsimp only
      rw [s.minus_add_left, Nat.add_assoc, s.minus_add_left, pure_bind, pure_bind]
      split
      · rfl
      · rfl

theorem skipFrom_eq (stop : RuleId) (stopBefore failOnEnd : Bool) (room passed : Nat) :
    skipFrom s sub stop stopBefore failOnEnd start room (start + passed) =
      skipTo sub stop stopBefore failOnEnd start room passed := by
  induction room generalizing passed with
  | zero =>
      refine stopOrTo_eq s sub start stop stopBefore passed ?_
      rw [s.minus_add_left, pure_bind]
      split
      · rfl
      · rfl
  | succ room ih => exact stopOrTo_eq s sub start stop stopBefore passed (ih (passed + 1))

theorem chainTo_eq {α : Type} (form : ChainForm) (g : Graph α) (size : Nat) :
    chainTo s sub form g size start = chain sub form g size start := by
  rw [chainTo, chain]
  congr 1
  funext outcome
  cases outcome with
  | failure => rfl
  | success len nodes =>
      dsimp only
      congr 1
      funext links
      -- The end of a fold is not computed from `start`, so that it lies after it needs a reason.
      have hfirst := ChainTree.stop_le_stop_fold g ⟨⟨start, len⟩, nodes⟩ links.toList
      rw [s.exact (Nat.le_trans (Nat.le_add_right start len) hfirst), pure_bind]

variable {α : Type} [Element α]

theorem kindBy_eq (g : Graph α) (input : Array α) (id : RuleId) (kind : Kind α) :
    kindBy s sub g input id kind start = Match.kind g input sub id kind start := by
  cases kind with
  | sequence subs =>
      have heq : sequenceTo s sub start subs start #[] = inSequence sub start subs 0 #[] :=
        sequenceTo_eq s sub start subs 0 #[]
      rw [kindBy, heq]
      rfl
  | count one min max =>
      have heq (room : Nat) :
          repeatedTo s sub (g.label id) one min max start room 0 start #[] =
            repeated sub (g.label id) one min max start room 0 0 #[] :=
        repeatedTo_eq s sub start (g.label id) one min max room 0 0 #[]
      rw [kindBy, heq]
      rfl
  | skip stop stopBefore failOnEnd =>
      have heq (room : Nat) :
          skipFrom s sub stop stopBefore failOnEnd start room start =
            skipTo sub stop stopBefore failOnEnd start room 0 :=
        skipFrom_eq s sub start stop stopBefore failOnEnd room 0
      rw [kindBy, heq]
      rfl
  | evaluation alternatives => exact chainTo_eq s sub start _ g input.size
  | _ => rfl

end Match

theorem Graph.runWithinBy_eq {α : Type} [Element α] (g : Graph α) (s : Subtraction)
    (input : Array α) (limit depth : Nat) :
    g.runWithinBy s input limit depth = g.runWithin input limit depth := by
  induction depth with
  | zero =>
      funext id start
      cases hrule : g.rule? id with
      | none => simp only [runWithinBy, runWithin, hrule]
      | some rule => simp only [runWithinBy, runWithin, hrule]
  | succ depth ih =>
      funext id start
      simp only [runWithinBy, runWithin]
      cases g.rule? id with
      | none => rfl
      | some rule =>
          dsimp only
          rw [ih, Match.kindBy_eq]
          rfl

/-- No match takes away from a position more than there is: the matcher by positions is the same,
whatever its subtraction does below zero. -/
theorem Graph.runBy_eq {α : Type} [Element α] (g : Graph α) (s : Subtraction) (input : Array α)
    (limit : Nat) (id : RuleId) (start : Nat) :
    g.runBy s input limit id start = g.run input limit id start := by
  rw [runBy, run, runWithinBy_eq]

end RuleScript
