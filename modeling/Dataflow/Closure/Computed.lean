import Dataflow.Closure.Distances
import Dataflow.Closure.LowLink
import Dataflow.Closure.Search
import Dataflow.Settings

/-!
# Closures as they are computed

The view of a closure by each of the three algorithms, as they go about it: by distances, by one
search for all components, and by a search for paths along each contracted edge.

Model of `as_sub_graph`, `as_sub_graph_biconnected` and `as_sub_graph_k_shortest` of `closure`, and
of `closure_sub_graph`, which is one of them by the settings. `Network.closureSubnetwork` gives what
they give without going their way.
-/

namespace Dataflow.Network

/-- The full network restricted to a closure, without the pruned edges. Where it has an entry, its
sentinels are left out. -/
def viewOf (full : Network) (closure : Closure) : Network :=
  let masked := full.contains .head
  let shown (l : Link) : Bool := !(masked && l.touchesSentinel) && !decide (l.id ∈ closure.pruned)
  full.restrict (closure.vertices.toList.filter fun v => !(masked && v.isSentinel))
    (some ((full.links.filter shown).map (·.id)))

/-- The view of the closure by distances. Where the full network has an entry, the closure is that
of the network without its sentinels. -/
def distanceView (distances : ∀ size, List (Fin size × Fin size) → Option (Distances size))
    (full contracted : Network) (excludes : List ElementId) : Except Failure Network :=
  ((if full.contains .head then full.mask else full).distanceClosure distances contracted
    excludes).map full.viewOf

/-- The view of the closure by components, as one search finds them. -/
def lowLinkView (full contracted : Network) : Except Failure Network :=
  (full.lowLinkClosure contracted).map fun vs => full.restrict vs.toList none

/-- The view of the closure by paths, as the search comes upon them. -/
def searchView (full contracted : Network) : Network :=
  full.restrict (full.searchClosure contracted).toList none

/-- The closure of a contracted network as a view of the full one, computed by the algorithm that
the settings name. -/
def computedSubnetwork (distances : ∀ size, List (Fin size × Fin size) → Option (Distances size))
    (full contracted : Network) (excludes : List ElementId) (settings : Settings) :
    Except Failure Network :=
  match settings.closureAlgorithm with
  | .byWalks => full.distanceView distances contracted excludes
  | .byComponents => full.lowLinkView contracted
  | .byPaths => .ok (full.searchView contracted)

end Dataflow.Network
