import RuleScript.Script.Error
import RuleScript.Script.Grammar

/-!
# Parts of a script

The nodes that the script grammar leaves, with their kinds in the place of rule ids and without
log entries.
-/

namespace RuleScript.Script

/-- A node of a parsed script; spans count tokens. -/
structure Part where
  kind : NodeKind
  span : Span
  children : List Part

namespace Part

mutual

/-- The part a node stands for. -/
def ofNode : Node → Except CompileError Part
  | ⟨rule, span, children⟩ =>
    match grammar.nodeKind? rule with
    | some kind => (ofNodes children).map (⟨kind, span, ·⟩)
    | none => .error (.unmappedNode (grammar.label rule) rule)

/-- The parts that the nodes of a list stand for, log entries passed over. -/
def ofNodes : List Node → Except CompileError (List Part)
  | [] => .ok []
  | node :: rest =>
    if grammar.isLog node.rule then ofNodes rest
    else
      match ofNode node with
      | .ok part => (ofNodes rest).map (part :: ·)
      | .error error => .error error

end

end Part

end RuleScript.Script
