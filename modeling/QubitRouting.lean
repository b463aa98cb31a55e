import QubitRouting.Circuit
import QubitRouting.Config
import QubitRouting.Coupling
import QubitRouting.Crossing
import QubitRouting.Decay
import QubitRouting.Decimal.Positional
import QubitRouting.Decimal.Shortest
import QubitRouting.Fault
import QubitRouting.Frontier
import QubitRouting.Graph.Cheapest
import QubitRouting.Graph.DepthFirst
import QubitRouting.Graph.Heap
import QubitRouting.Graph.Hops
import QubitRouting.Layout
import QubitRouting.PathCache
import QubitRouting.Qubit
import QubitRouting.Registry
import QubitRouting.Router.Paths
import QubitRouting.Router.Progress
import QubitRouting.Router.Report
import QubitRouting.Router.Route
import QubitRouting.Sequencing.Conflicts
import QubitRouting.Sequencing.Order
import QubitRouting.Sequencing.Plan
import QubitRouting.Sequencing.Split
import QubitRouting.Sequencing.Swaps
import QubitRouting.Sorting
import QubitRouting.SwapDepth
import QubitRouting.Tally
import QubitRouting.Proofs.Checked
import QubitRouting.Proofs.Graph.DepthFirst
import QubitRouting.Proofs.Graph.Parts
import QubitRouting.Proofs.Registry.Slots
import QubitRouting.Proofs.Registry.Valid
import QubitRouting.Proofs.Registry.Parts
import QubitRouting.Proofs.Sequencing.Tokens
import QubitRouting.Proofs.Sequencing.Moves
import QubitRouting.Proofs.Sequencing.Conflicts
import QubitRouting.Proofs.Sequencing.Order
import QubitRouting.Proofs.Sequencing.Joined
import QubitRouting.Proofs.Layout.Matching
import QubitRouting.Proofs.Layout.Swaps
import QubitRouting.Proofs.Circuit.Dependencies
import QubitRouting.Proofs.Circuit.Schedules
import QubitRouting.Proofs.Frontier.Consistent
import QubitRouting.Proofs.Graph.Cheapest
import QubitRouting.Proofs.Graph.Hops
import QubitRouting.Proofs.Coupling.Connected
import QubitRouting.Proofs.PathCache.Routes
import QubitRouting.Proofs.Router.Offers
import QubitRouting.Proofs.Router.Frames
import QubitRouting.Proofs.Router.Searches
import QubitRouting.Proofs.Router.Execution
import QubitRouting.Proofs.Router.Rounds
import QubitRouting.Proofs.Router.Runs
import QubitRouting.Proofs.Router.Meaning
import QubitRouting.Proofs.Router.Reuse
import QubitRouting.Proofs.Router.Statistics
import QubitRouting.Proofs.Registry.Coherent
import QubitRouting.Proofs.Sequencing.Termination
import QubitRouting.Proofs.Frontier.Sessions
import QubitRouting.Proofs.Sequencing.Locality.Conflicts
import QubitRouting.Proofs.Sequencing.Locality.Order
import QubitRouting.Proofs.Sequencing.Locality.Blocks
import QubitRouting.Proofs.Registry.Acceptance
import QubitRouting.Proofs.Registry.Limit
import QubitRouting.Proofs.Sequencing.WalkIn
import QubitRouting.Proofs.Router.Registered
import QubitRouting.Proofs.Graph.HeapOrder
import QubitRouting.Proofs.Graph.Walks
import QubitRouting.Proofs.Graph.Optimal
import QubitRouting.Proofs.Coupling.Shortest
import QubitRouting.Proofs.Coupling.Metric
import QubitRouting.Proofs.Router.Shortest
import QubitRouting.Proofs.PathCache.Recall
import QubitRouting.Proofs.Circuit.Construction
import QubitRouting.Proofs.Coupling.Links
import QubitRouting.Proofs.Registry.Undo
import QubitRouting.Proofs.SwapDepth.CriticalPath
import QubitRouting.Proofs.Coupling.Lattices
import QubitRouting.Proofs.Layout.Placements
import QubitRouting.Proofs.Decay.Cadence
import QubitRouting.Proofs.PathCache.Bounds
import QubitRouting.Proofs.Crossing.NodeSets
import QubitRouting.Proofs.Sequencing.Constraints
import QubitRouting.Proofs.Sequencing.FreeCuts
import QubitRouting.Proofs.Sequencing.Placement
import QubitRouting.Proofs.Graph.Queue
