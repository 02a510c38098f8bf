import ValueGraph.Config
import ValueGraph.Graph.Extends
import ValueGraph.Graph.Reach
import ValueGraph.Graph.Unfold
import ValueGraph.Simplify.Run
import ValueGraph.Proofs.History
import ValueGraph.Proofs.Name.Recognition
import ValueGraph.Proofs.Simplify.Accounting
import ValueGraph.Proofs.Simplify.Blindness
import ValueGraph.Proofs.Simplify.Calls
import ValueGraph.Proofs.Simplify.Convergence
import ValueGraph.Proofs.Simplify.Independence
import ValueGraph.Proofs.Simplify.Landmarks
import ValueGraph.Proofs.Simplify.Meaning
import ValueGraph.Proofs.Simplify.Negation
import ValueGraph.Proofs.Simplify.Outcome
import ValueGraph.Proofs.Simplify.Safety
import ValueGraph.Proofs.Simplify.Separation
import ValueGraph.Proofs.Simplify.Settled
import ValueGraph.Proofs.Simplify.Sharing
import ValueGraph.Proofs.Simplify.Tower
import ValueGraph.Proofs.Simplify.TwoPasses
import ValueGraph.Proofs.Simplify.Typing
import ValueGraph.Proofs.Graph.Showing
import ValueGraph.Proofs.Graph.Readability
import ValueGraph.Proofs.Simplify.Succession
import ValueGraph.Proofs.Term.Typing
import ValueGraph.Proofs.Config.Tokens
import ValueGraph.Proofs.Config.Passes
import ValueGraph.Proofs.Rule.Method
import ValueGraph.Proofs.Rule.Orientation
import ValueGraph.Proofs.Capacity
import ValueGraph.Proofs.Term.OperandTyping
import ValueGraph.Proofs.Simplify.OperandTyping
import ValueGraph.Proofs.Term.Unordered
import ValueGraph.Proofs.Simplify.Unordered
