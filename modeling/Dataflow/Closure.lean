import Dataflow.Closure.Biconnected
import Dataflow.Closure.Paths
import Dataflow.Closure.Walks
import Dataflow.Settings

/-!
# Closures

A contracted network has some of the vertices of a full one and stands for a region of it. The
closure is the part of the full network that the contracted one implies. Three algorithms compute
it; the one by walks also prunes edges, and it alone heeds excluded elements.

Model of `closure_sub_graph` (`closure`), with the settings that it reads from `PlannerConfig`.
-/

namespace Dataflow.Network

/-- The closure of a contracted network as a view of the full one. -/
def closureSubnetwork (full contracted : Network) (excludes : List ElementId)
    (settings : Settings) : Except Failure Network :=
  match settings.closureAlgorithm with
  | .byWalks => .ok (full.closureView contracted excludes)
  | .byComponents => full.biconnectedView contracted
  | .byPaths => .ok (full.pathView contracted)

end Dataflow.Network
