import RuleScript.Graph.Breakpoint
import RuleScript.Main
import RuleScript.Proofs.EditDistance
import RuleScript.Proofs.Graph.Breakpoints
import RuleScript.Proofs.Graph.Integrity
import RuleScript.Proofs.Graph.LeastNullable
import RuleScript.Proofs.Graph.SetAgain
import RuleScript.Proofs.Graph.Uses
import RuleScript.Proofs.Lines
import RuleScript.Proofs.Match.Adequacy
import RuleScript.Proofs.Match.Agreement
import RuleScript.Proofs.Match.Associativity
import RuleScript.Proofs.Match.BoundedRepetition
import RuleScript.Proofs.Match.Bounds
import RuleScript.Proofs.Match.Desugared
import RuleScript.Proofs.Match.EmptyMatch
import RuleScript.Proofs.Match.Merged
import RuleScript.Proofs.Match.Nesting
import RuleScript.Proofs.Match.NullableRules
import RuleScript.Proofs.Match.Origin
import RuleScript.Proofs.Match.Resolved
import RuleScript.Proofs.Match.Shape
import RuleScript.Proofs.Match.Termination
import RuleScript.Proofs.Match.TokenSpans
import RuleScript.Proofs.Match.Trail
import RuleScript.Proofs.Match.Translation
import RuleScript.Proofs.Match.Transparency
import RuleScript.Proofs.Match.WatchedTokens
import RuleScript.Proofs.Pipeline.Coherence
import RuleScript.Proofs.Pipeline.Includes
import RuleScript.Proofs.Pipeline.Loads
import RuleScript.Proofs.Pipeline.Reports
import RuleScript.Proofs.Pipeline.Shown
import RuleScript.Proofs.Pruning
import RuleScript.Proofs.Script.Acceptance
import RuleScript.Proofs.Script.Blame
import RuleScript.Proofs.Script.CharSets
import RuleScript.Proofs.Script.Compiling
import RuleScript.Proofs.Script.FrontEnd
import RuleScript.Proofs.Script.Literals
import RuleScript.Proofs.Script.Meaning
import RuleScript.Proofs.Script.Recovery
import RuleScript.Proofs.Script.Spacing
