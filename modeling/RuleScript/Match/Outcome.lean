import RuleScript.Event
import RuleScript.Node

/-!
# Outcomes of a match

A rule tried at a position either fails, which is an ordinary outcome, or succeeds having consumed
some elements and left some nodes.  A match may also be aborted as a whole.  A `Run` computes an
outcome or an abort and keeps, either way, a trace: the farthest position at which an element was
missed, and the journal.

How rules are combined does not depend on what else is handed on with the trace (`Traced`).
-/

namespace RuleScript

/-- What becomes of a rule at a position. -/
inductive Outcome where
  | failure
  | success (len : Nat) (nodes : List Node)
  deriving DecidableEq

namespace Outcome

def isSuccess : Outcome → Bool
  | failure => false
  | success .. => true

/-- How many elements were consumed; none by a failure. -/
def len : Outcome → Nat
  | failure => 0
  | success len _ => len

/-- The nodes left; none by a failure. -/
def nodes : Outcome → List Node
  | failure => []
  | success _ nodes => nodes

/-- Change the nodes that were left. -/
def mapNodes (f : List Node → List Node) : Outcome → Outcome
  | failure => failure
  | success len nodes => success len (f nodes)

/-- Put the nodes under a node of a rule tried at `start`. -/
def under (id : RuleId) (start : Nat) : Outcome → Outcome
  | failure => failure
  | success len nodes => success len [⟨id, ⟨start, len⟩, nodes⟩]

end Outcome

/-- Why a match stopped before its outcome was known. -/
inductive Abort where
  /-- A log rule of fatal severity came into force. -/
  | fatal (message : String) (span : Span)
  /-- Rules were nested deeper than allowed. -/
  | depthExceeded (limit pos : Nat)
  | unresolvedReference (name : String)
  | missingRoot
  deriving DecidableEq

namespace Abort

def message : Abort → String
  | fatal message _ => s!"fatal: {message}"
  | depthExceeded limit pos =>
    s!"maximum rule nesting depth ({limit}) exceeded at position {pos}"
  | unresolvedReference name => s!"reference to '{name}' was never resolved"
  | missingRoot => "graph has no root rule to start matching from"

/-- The part of the input that an abort is about. -/
def span? : Abort → Option Span
  | fatal _ span => some span
  | depthExceeded _ pos => some (.empty pos)
  | unresolvedReference _ | missingRoot => none

end Abort

/-- What a match leaves behind besides its outcome. -/
structure Trace where
  /-- The farthest position at which an element was missed. -/
  farthest : Nat := 0
  journal : Journal := #[]
  deriving DecidableEq

/-- Matches can be made: events are recorded, and so is how far an element was looked for. -/
class Traced (m : Type → Type) where
  /-- Record an event. -/
  record : Event → m Unit
  /-- Fail because of the element at a position. -/
  miss : Nat → m Outcome

/-- A computation that can be aborted; the trace is kept in either case. -/
abbrev Run (β : Type) := ExceptT Abort (StateM Trace) β

namespace Run

/-- Record an event. -/
def record (event : Event) : Run Unit :=
  modify fun trace => { trace with journal := trace.journal.push event }

/-- Fail because of the element at a position. -/
def miss (pos : Nat) : Run Outcome := do
  modify fun trace => { trace with farthest := max trace.farthest pos }
  pure .failure

/-- The result of a run that starts with the given trace, and its trace at the end. -/
def result {β : Type} (run : Run β) (trace : Trace) : Except Abort β × Trace :=
  StateT.run (ExceptT.run run) trace

instance : Traced Run := ⟨record, miss⟩

end Run

end RuleScript
