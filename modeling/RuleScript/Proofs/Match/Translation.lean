import RuleScript.Proofs.Match.Bounds
import RuleScript.Proofs.Match.Suffix

/-!
# Matches do not depend on where they are

A match from some position on is the match from the start of what is left of the input, moved on by that
position: the same success or abort, the same length, and the same tree but for the positions in it
(`Graph.matchAt_translation`).  All that mentions a position is moved on by the same distance, records
included, so nowhere is a position taken for a length or the other way round.  What comes before the
start has no say in it.

The correspondence is that of `RuleScript.Proofs.Match.Suffix`, with traces and aborts that are moved on
like the trees.
-/

namespace RuleScript

/-! ## Moving on -/

/-- The same abort so many positions further on. -/
def Abort.movedOn (distance : Nat) : Abort → Abort
  | fatal message span => fatal message ⟨span.start + distance, span.len⟩
  | depthExceeded limit pos => depthExceeded limit (pos + distance)
  | unresolvedReference name => unresolvedReference name
  | missingRoot => missingRoot

/-- The same record of a match so many positions further on; what a match does not record stays as it
is. -/
def Event.movedOn (distance : Nat) : Event → Event
  | breakpointEntered breakpoint pos subject => breakpointEntered breakpoint (pos + distance) subject
  | breakpointLeft breakpoint pos matched len => breakpointLeft breakpoint (pos + distance) matched len
  | emptyRepetition rule pos => emptyRepetition rule (pos + distance)
  | logged severity rule span message =>
    logged severity rule ⟨span.start + distance, span.len⟩ message
  | event => event

/-- The same trace so many positions further on. -/
def Trace.movedOn (distance : Nat) (trace : Trace) : Trace where
  farthest := trace.farthest + distance
  journal := trace.journal.map (Event.movedOn distance)

theorem Trace.movedOn_record (distance : Nat) (trace : Trace) (event : Event) :
    Trace.movedOn distance { trace with journal := trace.journal.push event } =
      { trace.movedOn distance with
        journal := (trace.movedOn distance).journal.push (event.movedOn distance) } := by
  simp only [movedOn, Array.map_push]

theorem Trace.movedOn_miss (distance : Nat) (trace : Trace) (pos : Nat) :
    Trace.movedOn distance { trace with farthest := max trace.farthest pos } =
      { trace.movedOn distance with
        farthest := max (trace.movedOn distance).farthest (pos + distance) } := by
  simp only [movedOn, Nat.add_max_add_right]

/-- What the same match comes to so many positions further on. -/
def movedResult (distance : Nat) (result : Except Abort Outcome) : Except Abort Outcome :=
  (result.map (Outcome.movedOn distance)).mapError (Abort.movedOn distance)

/-- All that the second run leaves is what the first one leaves, so many positions further on. -/
def Run.Comparison.movedOn (distance : Nat) : Run.Comparison where
  traces trace trace' := trace' = trace.movedOn distance
  aborts cause cause' := cause' = cause.movedOn distance
  excuses _ := False

/-- Matches of which the second does all that the first does so many positions after it. -/
def Correspondence.translation (distance : Nat) : Correspondence :=
  { Correspondence.movedOn distance with toComparison := .movedOn distance }

/-! ## Matches -/

namespace Graph

variable {α : Type}

theorem translation_setting (g : Graph α) (u v : Array α) :
    (Correspondence.translation u.size).Setting g g v (u ++ v) := by
  have hrecords (event : Event) :
      (Correspondence.translation u.size).Records event (event.movedOn u.size) := by
    rintro trace _ rfl
    exact (trace.movedOn_record u.size event).symm
  have hmisses (pos : Nat) : (Correspondence.translation u.size).Misses pos (pos + u.size) := by
    rintro trace _ rfl
    exact (trace.movedOn_miss u.size pos).symm
  -- All that is read or recorded is moved by the length of what stands before.
  obtain ⟨helement, hroom, -⟩ := (g.movedOn_graphs u v).setting
  refine ⟨helement, hroom, hmisses, ?_, ?_, ?_, ?_, ?_, ?_, ?_, ?_⟩
  · rw [Array.size_append, Nat.add_comm u.size]
    exact hmisses v.size
  · rintro id _ rfl
    exact hrecords (.unknownRule id)
  · rintro id _ rfl pos
    exact hrecords (.emptyRepetition (g.label id) pos)
  · rintro id _ rfl severity start len message
    exact hrecords (.logged severity (g.label id) ⟨start, len⟩ message)
  · rintro id _ subject _ rfl rfl pos
    exact hrecords (.breakpointEntered (g.label id) pos (g.label subject))
  · rintro id _ rfl pos matched len
    exact hrecords (.breakpointLeft (g.label id) pos matched len)
  · exact fun _ _ _ => rfl
  · exact fun _ => rfl

theorem translation_graphs (g : Graph α) (u v : Array α) :
    (Correspondence.translation u.size).Graphs g g v (u ++ v) := by
  refine .self rfl (g.translation_setting u v) ?_
  rintro pruning found _ rfl
  exact g.prune_movedOn pruning found

variable [Element α]

/-- A match over the second of two inputs is one over both, so much further on as the first is long,
from any trace. -/
theorem runWithin_append (g : Graph α) (u v : Array α) (limit depth : Nat) (id : RuleId) (start : Nat)
    (trace : Trace) :
    (g.runWithin (u ++ v) limit depth id (start + u.size)).result (trace.movedOn u.size) =
      (movedResult u.size ((g.runWithin v limit depth id start).result trace).1,
        ((g.runWithin v limit depth id start).result trace).2.movedOn u.size) := by
  have hagree := Correspondence.runWithin_agree_of_aborts (g.translation_graphs u v) limit limit
    (fun _ => rfl) depth id id rfl start trace _ rfl
  have hshift : start + (Correspondence.translation u.size).shift = start + u.size := rfl
  rw [hshift] at hagree
  rcases hresult : (g.runWithin v limit depth id start).result trace with ⟨cause | outcome, after⟩
  · rcases hresult' : (g.runWithin (u ++ v) limit depth id (start + u.size)).result
        (trace.movedOn u.size) with ⟨cause' | outcome', after'⟩
    · rw [hresult, hresult'] at hagree
      obtain ⟨rfl, rfl⟩ := hagree.resolve_left fun hexcuse => hexcuse
      rfl
    · rw [hresult, hresult'] at hagree
      exact hagree.elim
  · rcases hresult' : (g.runWithin (u ++ v) limit depth id (start + u.size)).result
        (trace.movedOn u.size) with ⟨cause' | outcome', after'⟩
    · rw [hresult, hresult'] at hagree
      exact hagree.elim
    · rw [hresult, hresult'] at hagree
      obtain ⟨rfl, houtcome⟩ := hagree
      cases houtcome with
      | failure => rfl
      | success len hfound =>
          cases hfound
          rfl

/-- A match from a position is one from the start of what is left, moved on by that position. -/
theorem matchAt_append (g : Graph α) (u v : Array α) (limit : Nat) (id : RuleId) :
    let alone := g.matchAt v limit id 0
    let moved := g.matchAt (u ++ v) limit id u.size
    moved.1 = movedResult u.size alone.1 ∧
      moved.2.journal = alone.2.journal.map (Event.movedOn u.size) ∧
      max u.size moved.2.farthest = alone.2.farthest + u.size := by
  intro alone moved
  -- The match is the same from an empty trace, but for what is farthest.
  obtain ⟨result, more, huniform⟩ := g.runWithin_uniform (u ++ v) limit limit id u.size
  have hmoved : moved = (result, Trace.append {} more) := huniform {}
  have halone : (g.runWithin v limit limit id 0).result {} = alone := rfl
  have htranslated := g.runWithin_append u v limit limit id 0 {}
  rw [Nat.zero_add, huniform, halone, Prod.mk.injEq] at htranslated
  obtain ⟨hresult, htrace⟩ := htranslated
  have hjournal := congrArg Trace.journal htrace
  have hfarthest := congrArg Trace.farthest htrace
  rw [hmoved]
  refine ⟨hresult, ?_, ?_⟩
  · simpa [Trace.append, Trace.movedOn] using hjournal
  · simpa [Trace.append, Trace.movedOn] using hfarthest

/-- **Matching is translation invariant.**  A match from a position of the input is the match from the
start of the rest of the input: it fails, succeeds or is aborted likewise, with the same length and the
same tree but for all spans being moved on by that position, and so is the place of an abort.  Its records
are the same, moved on likewise, and so is its farthest miss unless there is none.  Whatever stands before
the position, the match comes to the same. -/
theorem matchAt_translation (g : Graph α) (input : Array α) (limit : Nat) (id : RuleId) {start : Nat}
    (hstart : start ≤ input.size) :
    let suffix := input.extract start input.size
    let alone := g.matchAt suffix limit id 0
    let moved := g.matchAt input limit id start
    (moved.1 = movedResult start alone.1 ∧
      moved.2.journal = alone.2.journal.map (Event.movedOn start) ∧
      max start moved.2.farthest = alone.2.farthest + start) ∧
    ∀ before : Array α, before.size = start →
      (g.matchAt (before ++ suffix) limit id start).1 = moved.1 := by
  intro suffix alone moved
  have hsplit : input.extract 0 start ++ suffix = input := by
    rw [Array.extract_append_extract, Nat.max_eq_right hstart, Nat.zero_min, Array.extract_size]
  have hsize : (input.extract 0 start).size = start := by
    rw [Array.size_extract]
    omega
  have hmoved := g.matchAt_append (input.extract 0 start) suffix limit id
  rw [hsplit, hsize] at hmoved
  refine ⟨hmoved, ?_⟩
  -- Whatever stands before, it is the same run moved by the same distance.
  rintro before rfl
  exact (g.matchAt_append before suffix limit id).1.trans hmoved.1.symm

/-- The lookahead, the log entry and the sum in front of them are moved on by one. -/
theorem peeking_translation :
    let nodes (start : Nat) : List Node := [⟨⟨6⟩, ⟨start, 1⟩, [
      ⟨⟨2⟩, ⟨start, 3⟩, [.leaf ⟨0⟩ ⟨start, 1⟩, .leaf ⟨1⟩ ⟨start + 1, 1⟩, .leaf ⟨0⟩ ⟨start + 2, 1⟩]⟩,
      .leaf ⟨5⟩ ⟨start, 3⟩,
      .leaf ⟨0⟩ ⟨start, 1⟩]⟩]
    1 ≤ #['x', 'n', '+', 'n'].size ∧
      (peeking.matchAt #['n', '+', 'n'] 9 ⟨6⟩ 0).1 = .ok (.success 1 (nodes 0)) ∧
      (peeking.matchAt #['x', 'n', '+', 'n'] 9 ⟨6⟩ 1).1 = .ok (.success 1 (nodes 1)) ∧
      (peeking.matchAt #['+', 'n', '+', 'n'] 9 ⟨6⟩ 1).1 = .ok (.success 1 (nodes 1)) := by
  intro nodes
  have hstart : 1 ≤ #['x', 'n', '+', 'n'].size := by decide
  have halone : (peeking.matchAt #['n', '+', 'n'] 9 ⟨6⟩ 0).1 = .ok (.success 1 (nodes 0)) := by
    decide +kernel
  obtain ⟨⟨hmoved, -, -⟩, hbefore⟩ := peeking.matchAt_translation #['x', 'n', '+', 'n'] 9 ⟨6⟩ hstart
  have hsuffix : #['x', 'n', '+', 'n'].extract 1 #['x', 'n', '+', 'n'].size = #['n', '+', 'n'] := rfl
  rw [hsuffix, halone] at hmoved
  exact ⟨hstart, halone, hmoved, (hbefore #['+'] rfl).trans hmoved⟩

end Graph

end RuleScript
