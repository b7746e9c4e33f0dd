import SeaOfNodes.Execution
import SeaOfNodes.Graph.Builder
import SeaOfNodes.Graph.Dot
import SeaOfNodes.Graph.Text
import SeaOfNodes.Graph.Verify
import SeaOfNodes.Tracker
import SeaOfNodes.Worklist.Ripple
import SeaOfNodes.Propagation
import SeaOfNodes.Cleanup
import SeaOfNodes.Substitution
import SeaOfNodes.Pipeline.Run
import SeaOfNodes.Proofs.Loops
import SeaOfNodes.Proofs.Edits
import SeaOfNodes.Proofs.Exchange
import SeaOfNodes.Proofs.Liveness
import SeaOfNodes.Proofs.Flow
import SeaOfNodes.Proofs.Worklist
import SeaOfNodes.Proofs.Constraints
import SeaOfNodes.Proofs.Fixpoint
import SeaOfNodes.Proofs.Journal
import SeaOfNodes.Proofs.Soundness
import SeaOfNodes.Proofs.Rewriting
import SeaOfNodes.Proofs.Verified
import SeaOfNodes.Proofs.Support
import SeaOfNodes.Proofs.Substituting
import SeaOfNodes.Proofs.Cleaning
import SeaOfNodes.Proofs.Rounds
import SeaOfNodes.Proofs.Survival
import SeaOfNodes.Proofs.Ascent
import SeaOfNodes.Proofs.Effort
import SeaOfNodes.Proofs.Traversal
import SeaOfNodes.Proofs.Faults
import SeaOfNodes.Proofs.Attribution
import SeaOfNodes.Proofs.Altering
import SeaOfNodes.Proofs.Reporting
import SeaOfNodes.Proofs.Sweeping
import SeaOfNodes.Proofs.Settling
import SeaOfNodes.Proofs.Scheduling
import SeaOfNodes.Proofs.Image
import SeaOfNodes.Proofs.Alignment
import SeaOfNodes.Proofs.Replacing
import SeaOfNodes.Proofs.Pruning
import SeaOfNodes.Proofs.Tidying
import SeaOfNodes.Proofs.WellFormed
import SeaOfNodes.Proofs.Legality
import SeaOfNodes.Proofs.Checking
import SeaOfNodes.Proofs.Elimination
import SeaOfNodes.Proofs.Precision
import SeaOfNodes.Proofs.Repeat
import SeaOfNodes.Proofs.Visits
import SeaOfNodes.Proofs.Routes
import SeaOfNodes.Proofs.Histories
import SeaOfNodes.Proofs.StandIns
import SeaOfNodes.Proofs.Chains
import SeaOfNodes.Proofs.Ordering
import SeaOfNodes.Proofs.Lockstep
import SeaOfNodes.Proofs.Preservation
import SeaOfNodes.Proofs.Outline
import SeaOfNodes.Proofs.Faithful
import SeaOfNodes.Proofs.Simultaneous
import SeaOfNodes.Proofs.Unknotted
import SeaOfNodes.Proofs.Quotients
import SeaOfNodes.Proofs.Arithmetic
import SeaOfNodes.Proofs.Division
import SeaOfNodes.Proofs.Fuel
import SeaOfNodes.Proofs.CallChains
import SeaOfNodes.Proofs.Construction
import SeaOfNodes.Proofs.Labels
import SeaOfNodes.Proofs.Freezing
import SeaOfNodes.Proofs.FiniteSets
import SeaOfNodes.Proofs.Queueing
