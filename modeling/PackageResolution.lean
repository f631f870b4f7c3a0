import PackageResolution.Constraint.Parser
import PackageResolution.Constraint.Printer
import PackageResolution.Graph.Order
import PackageResolution.Solver
import PackageResolution.Value
import PackageResolution.Proofs.CandidateOrder
import PackageResolution.Proofs.Intersection
import PackageResolution.Proofs.StateLaws
import PackageResolution.Proofs.Branches
import PackageResolution.Proofs.Assignments
import PackageResolution.Proofs.Solutions
import PackageResolution.Proofs.Completeness
import PackageResolution.Proofs.DepthFirst
import PackageResolution.Proofs.Preference
import PackageResolution.Proofs.Rounds
import PackageResolution.Proofs.SearchSpace
import PackageResolution.Proofs.RoundLimit
import PackageResolution.Proofs.Gaps
import PackageResolution.Proofs.Rearrangement
import PackageResolution.Proofs.MergeOrder
import PackageResolution.Proofs.OrderIndependence
import PackageResolution.Proofs.Relevance
import PackageResolution.Proofs.Truncation
import PackageResolution.Proofs.Locked
import PackageResolution.Proofs.Thinning
import PackageResolution.Proofs.Exploration
import PackageResolution.Proofs.Removal
import PackageResolution.Proofs.Precedence
import PackageResolution.Proofs.Accumulation
import PackageResolution.Proofs.VersionTexts
import PackageResolution.Proofs.ConstraintTexts
import PackageResolution.Proofs.VersionPrinting
import PackageResolution.Proofs.ConstraintPrinting
import PackageResolution.Proofs.BoundTexts
import PackageResolution.Proofs.OpenChoices
import PackageResolution.Proofs.Bookkeeping
import PackageResolution.Proofs.Causes
import PackageResolution.Proofs.Replay
import PackageResolution.Proofs.Lockstep
import PackageResolution.Proofs.EqualRanges
import PackageResolution.Proofs.Interchange
import PackageResolution.Proofs.Reachability
import PackageResolution.Proofs.GraphCalls
import PackageResolution.Proofs.Batches
import PackageResolution.Proofs.RootEdges
import PackageResolution.Proofs.InstallOrder
import PackageResolution.Proofs.Neighbours
import PackageResolution.Proofs.ChosenGraph
import PackageResolution.Proofs.Layers
import PackageResolution.Proofs.CycleMembers
import PackageResolution.Proofs.VersionGrammar
import PackageResolution.Proofs.VersionRoundTrip
import PackageResolution.Proofs.BestFirst
import PackageResolution.Proofs.Worklist
