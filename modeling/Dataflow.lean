import Dataflow.Closure
import Dataflow.Document
import Dataflow.Network.Answers
import Dataflow.Network.Equality
import Dataflow.Network.Hash
import Dataflow.Network.Lookup
import Dataflow.Plan.Answers
import Dataflow.Plan.Branch
import Dataflow.Plan.Contract
import Dataflow.Plan.Insert
import Dataflow.Plan.Replace
import Dataflow.Proofs.Branch.Removal
import Dataflow.Proofs.Branch.Sentinels
import Dataflow.Proofs.Closure.Agreement
import Dataflow.Proofs.Closure.BlockClosure
import Dataflow.Proofs.Closure.Blocks
import Dataflow.Proofs.Closure.Computed
import Dataflow.Proofs.Closure.Contraction
import Dataflow.Proofs.Closure.Distances
import Dataflow.Proofs.Closure.Idempotence
import Dataflow.Proofs.Closure.Masking
import Dataflow.Proofs.Closure.Search
import Dataflow.Proofs.Closure.View
import Dataflow.Proofs.Equality.Correspondence
import Dataflow.Proofs.Equality.Decoration
import Dataflow.Proofs.Equality.Equivalence
import Dataflow.Proofs.Equality.Hash
import Dataflow.Proofs.Network.Layers
import Dataflow.Proofs.Network.Lookup
import Dataflow.Proofs.Network.Merge
import Dataflow.Proofs.Network.Order
import Dataflow.Proofs.Path.Exact
import Dataflow.Proofs.Path.Stems
import Dataflow.Proofs.Plan.Answers
import Dataflow.Proofs.Plan.Change
import Dataflow.Proofs.Plan.ContractEdges
import Dataflow.Proofs.Plan.ContractOrder
import Dataflow.Proofs.Plan.Failing
import Dataflow.Proofs.Plan.History
import Dataflow.Proofs.Plan.Refinement
import Dataflow.Proofs.Plan.ReplaceInPlace
import Dataflow.Proofs.Plan.RoundTrip
import Dataflow.Proofs.Plan.Tags
import Dataflow.Proofs.Splice.Arrivals
import Dataflow.Proofs.Splice.Contract
import Dataflow.Proofs.Splice.Insert
import Dataflow.Splice
