import OptimalMatching.Assignment.Augmenting
import OptimalMatching.Assignment.Cover
import OptimalMatching.Assignment.Excess
import OptimalMatching.Assignment.Pairing
import OptimalMatching.Assignment.Problem
import OptimalMatching.Assignment.Run
import OptimalMatching.Bags
import OptimalMatching.Blossom.MaximumMatching
import OptimalMatching.Blossom.Run
import OptimalMatching.Blossom.Search
import OptimalMatching.Blossom.Tree
import OptimalMatching.Decimal.Shortest
import OptimalMatching.Drawing
import OptimalMatching.Edge
import OptimalMatching.Failure
import OptimalMatching.Graph.Basic
import OptimalMatching.Graph.Change
import OptimalMatching.Graph.Edit
import OptimalMatching.Matching
import OptimalMatching.Neighborhoods
import OptimalMatching.OrderedMap
import OptimalMatching.Proofs.Adjacency
import OptimalMatching.Proofs.Assignment.Acceptance
import OptimalMatching.Proofs.Assignment.Amounts
import OptimalMatching.Proofs.Assignment.Augmenting
import OptimalMatching.Proofs.Assignment.Bounded
import OptimalMatching.Proofs.Assignment.Cover
import OptimalMatching.Proofs.Assignment.Excess
import OptimalMatching.Proofs.Assignment.Loops
import OptimalMatching.Proofs.Assignment.Maximum
import OptimalMatching.Proofs.Assignment.MinimumCover
import OptimalMatching.Proofs.Assignment.Pairing
import OptimalMatching.Proofs.Assignment.Problem
import OptimalMatching.Proofs.Assignment.Run
import OptimalMatching.Proofs.Assignment.Scaling
import OptimalMatching.Proofs.Assignment.Sharing
import OptimalMatching.Proofs.Assignment.Stages
import OptimalMatching.Proofs.Assignment.Totality
import OptimalMatching.Proofs.Assignment.Trail
import OptimalMatching.Proofs.Assignment.Visited
import OptimalMatching.Proofs.Bags
import OptimalMatching.Proofs.Blossom.Alternating
import OptimalMatching.Proofs.Blossom.Ancestor
import OptimalMatching.Proofs.Blossom.Augment
import OptimalMatching.Proofs.Blossom.Bounds
import OptimalMatching.Proofs.Blossom.Climb
import OptimalMatching.Proofs.Blossom.Completeness
import OptimalMatching.Proofs.Blossom.Contract
import OptimalMatching.Proofs.Blossom.Course
import OptimalMatching.Proofs.Blossom.Exchange
import OptimalMatching.Proofs.Blossom.Failed
import OptimalMatching.Proofs.Blossom.Flank
import OptimalMatching.Proofs.Blossom.Mates
import OptimalMatching.Proofs.Blossom.MaximumMatching
import OptimalMatching.Proofs.Blossom.Run
import OptimalMatching.Proofs.Blossom.Search
import OptimalMatching.Proofs.Blossom.Visited
import OptimalMatching.Proofs.Blossom.Way
import OptimalMatching.Proofs.Graph.Equality
import OptimalMatching.Proofs.Graph.Listing
import OptimalMatching.Proofs.Graph.Neighbors
import OptimalMatching.Proofs.Graph.Pairs
import OptimalMatching.Proofs.Graph.Reachable
import OptimalMatching.Proofs.Graph.Refusals
import OptimalMatching.Proofs.Graph.Removal
import OptimalMatching.Proofs.Graph.Roster
import OptimalMatching.Proofs.Graph.Vertices
import OptimalMatching.Proofs.Graph.WellFormed
import OptimalMatching.Proofs.Mates
import OptimalMatching.Proofs.Neighborhoods
import OptimalMatching.Proofs.PairMap
import OptimalMatching.Proofs.Renaming.Assignment
import OptimalMatching.Proofs.Renaming.Basic
import OptimalMatching.Proofs.Renaming.Graph
import OptimalMatching.Proofs.Renaming.Matching
import OptimalMatching.Proofs.Renaming.MaximumMatching
import OptimalMatching.Proofs.Renaming.Outcome
import OptimalMatching.Proofs.Reweighing
import OptimalMatching.Proofs.Weight.Arithmetic
import OptimalMatching.Proofs.Weight.Float
import OptimalMatching.Proofs.Weight.Rounding
import OptimalMatching.Proofs.Weight.Unpacked
import OptimalMatching.Proofs.Weight.Values
import OptimalMatching.Proofs.Workspace.Calls
import OptimalMatching.Proofs.Workspace.Copying
import OptimalMatching.Proofs.Workspace.Following
import OptimalMatching.Proofs.Workspace.Listeners
import OptimalMatching.Proofs.Workspace.Reachable
import OptimalMatching.Proofs.Workspace.Recording
import OptimalMatching.Proofs.Workspace.Refusals
import OptimalMatching.Proofs.Workspace.Removal
import OptimalMatching.Proofs.Workspace.Sessions
import OptimalMatching.Report
import OptimalMatching.Table
import OptimalMatching.Text
import OptimalMatching.Vertex
import OptimalMatching.View
import OptimalMatching.Weight.Basic
import OptimalMatching.Weight.Exact
import OptimalMatching.Weight.Text
import OptimalMatching.Workspace
