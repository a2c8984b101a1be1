import RuleScript.Match.Matcher

/-!
# Matchers

A matcher is used for one match after the other over the same input.  It holds how many rules it is
inside of and what all matches so far left on record.  Entering a rule counts the depth up, and leaving
it counts the depth down again, in the same way whether or not the match was aborted inside of it.

`Graph.enter` is one such step, given how the rules inside are matched.  The one matcher goes through all
of them, depth and all: a match that left it deeper or less deep than it was would make the next one stop
too early or too late.  `Graph.parse` is the recursion; no rule is entered at the limit.
-/

namespace RuleScript

/-- What a matcher keeps from one match to the next. -/
structure Matcher where
  /-- How many rules it is inside of. -/
  depth : Nat := 0
  trace : Trace := {}
  deriving DecidableEq

namespace Matcher

/-- The matcher inside of one rule more. -/
def deeper (m : Matcher) : Matcher := { m with depth := m.depth + 1 }

/-- The matcher out of the innermost rule it was inside of. -/
def shallower (m : Matcher) : Matcher := { m with depth := m.depth - 1 }

/-- The matcher with another trace. -/
def withTrace (m : Matcher) (trace : Trace) : Matcher := { m with trace := trace }

end Matcher

/-- A computation of a matcher that can be aborted; the matcher is kept in either case. -/
abbrev Session (β : Type) := ExceptT Abort (StateM Matcher) β

namespace Session

/-- Do what touches nothing of the matcher but its trace. -/
def tracing {β : Type} (run : Run β) : Session β := fun m =>
  let (result, trace) := run.result m.trace
  (result, m.withTrace trace)

/-- The result of a computation that starts with the given matcher, and the matcher at the end. -/
def result {β : Type} (session : Session β) (m : Matcher) : Except Abort β × Matcher :=
  StateT.run (ExceptT.run session) m

instance : Traced Session := ⟨fun event => tracing (Run.record event), fun pos => tracing (Run.miss pos)⟩

end Session

namespace Graph

variable {α : Type} [Element α]

/-- Match a rule at `start`, given how the rules inside of it are matched. -/
def enter (g : Graph α) (input : Array α) (limit : Nat) (inside : RuleId → Nat → Session Outcome)
    (id : RuleId) (start : Nat) : Session Outcome :=
  match g.rule? id with
  | none => do
    Traced.record (.unknownRule id)
    pure .failure
  | some rule => fun m =>
    if m.depth < limit then
      let (result, after) := (Match.rule g input inside id rule start).result m.deeper
      (result, after.shallower)
    else (.error (.depthExceeded limit start), m)

/-- Match a rule at `start` with rules nested `limit` deep at most.  The recursion is on how many rules
more may be entered; where none may, `enter` stops before it comes to a rule inside. -/
def parseWithin (g : Graph α) (input : Array α) (limit : Nat) :
    (levels : Nat) → (id : RuleId) → (start : Nat) → Session Outcome
  | 0 => g.enter input limit fun _ start => throw (.depthExceeded limit start)
  | levels + 1 => g.enter input limit (g.parseWithin input limit levels)

/-- Match a rule at `start` by a matcher, with rules nested `limit` deep at most. -/
def parse (g : Graph α) (input : Array α) (limit : Nat) (m : Matcher) (id : RuleId) (start : Nat) :
    Except Abort Outcome × Matcher :=
  (g.parseWithin input limit (limit - m.depth) id start).result m

/-- Match one rule after the other, each at its position, whether or not those before were aborted. -/
def parseAll (g : Graph α) (input : Array α) (limit : Nat) :
    (m : Matcher) → (calls : List (RuleId × Nat)) → List (Except Abort Outcome) × Matcher
  | m, [] => ([], m)
  | m, (id, start) :: calls =>
    let (result, after) := g.parse input limit m id start
    let (results, last) := g.parseAll input limit after calls
    (result :: results, last)

end Graph

end RuleScript
